import Trainyard.Json.Value
import Trainyard.Text.Hex

/-!
# Writing JSON

One item or member to a line, two blanks of indent for each level, and only the
escapes that JSON requires. A string that spells no text is written as a lone
surrogate, so every value has a written form.
-/

set_option autoImplicit false

namespace Trainyard.Json

namespace Printer

/-! Each writer adds its text to the end of `out`. -/

def escape (out : String) (c : Char) : String :=
  if ' ' ≤ c ∧ c ≠ '"' ∧ c ≠ '\\' then out.push c
  else if c = '"' then out ++ "\\\""
  else if c = '\\' then out ++ "\\\\"
  else if c = '\x08' then out ++ "\\b"
  else if c = '\x0c' then out ++ "\\f"
  else if c = '\n' then out ++ "\\n"
  else if c = '\r' then out ++ "\\r"
  else if c = '\t' then out ++ "\\t"
  else ((out ++ "\\u00").push (Text.Hex.digit (c.toNat / 16))).push
    (Text.Hex.digit (c.toNat % 16))

def string (s : Option String) (out : String) : String :=
  match s with
  | some s => (s.toList.foldl escape (out.push '"')).push '"'
  | none => out ++ "\"\\ud800\""

def blanks : Nat → String → String
  | 0, out => out
  | n + 1, out => blanks n (out.push ' ')

def line (level : Nat) (out : String) : String := blanks (2 * level) (out.push '\n')

mutual

def value (level : Nat) (v : Value) (out : String) : String :=
  match v with
  | .null => out ++ "null"
  | .bool true => out ++ "true"
  | .bool false => out ++ "false"
  | .number literal => out ++ literal
  | .string s => string s out
  | .array [] => out ++ "[]"
  | .array (v :: vs) =>
    (line level (items (level + 1) vs
      (value (level + 1) v (line (level + 1) (out.push '['))))).push ']'
  | .object [] => out ++ "\x7b\x7d"
  | .object ((k, v) :: ms) =>
    (line level (members (level + 1) ms
      (value (level + 1) v (string k (line (level + 1) (out.push '{')) ++ ": ")))).push '}'

def items (level : Nat) (vs : List Value) (out : String) : String :=
  match vs with
  | [] => out
  | v :: vs => items level vs (value level v (line level (out.push ',')))

def members (level : Nat) (ms : List (Option String × Value)) (out : String) : String :=
  match ms with
  | [] => out
  | (k, v) :: ms =>
    members level ms (value level v (string k (line level (out.push ',')) ++ ": "))

end

end Printer

def Value.render (v : Value) : String := Printer.value 0 v ""

end Trainyard.Json
