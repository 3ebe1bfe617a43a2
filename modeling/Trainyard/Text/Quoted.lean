import Trainyard.Text.Hex
import Trainyard.Text.Hidden

/-!
# Quoted text

A text in double quotes, for display: quotes, backslashes and the common control
characters have short escapes, and what does not show is given by its code.
-/

set_option autoImplicit false

namespace Trainyard.Text

def hexDigits (n : Nat) : List Char := Nat.toDigits 16 n

def quoteChar (c : Char) : List Char :=
  if c = '\x00' then ['\\', '0']
  else if c = '\t' then ['\\', 't']
  else if c = '\r' then ['\\', 'r']
  else if c = '\n' then ['\\', 'n']
  else if c = '\\' then ['\\', '\\']
  else if c = '"' then ['\\', '"']
  else if isHidden c then ['\\', 'u', '{'] ++ hexDigits c.toNat ++ ['}']
  else [c]

def quoted (s : String) : String := String.ofList ('"' :: s.toList.flatMap quoteChar ++ ['"'])

end Trainyard.Text
