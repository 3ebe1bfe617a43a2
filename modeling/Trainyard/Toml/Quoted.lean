import Trainyard.Text.Hex

/-!
# TOML strings

A string stands between quotes of one of two kinds, of which one allows escapes,
on one line or, between three quotes, on several. All four kinds are read one
character at a time: `Mode` says what has been seen, and `step` what a character
means then. In a long string fewer than three quotes stand for themselves, up to
five may end it, and a backslash hides the line end after it with all the blanks
around it.
-/

set_option autoImplicit false

namespace Trainyard.Toml

abbrev Reader (α : Type) := List Char → Option (α × List Char)

def isPlain (c : Char) : Bool := c = '\t' ∨ (' ' ≤ c ∧ c ≠ '\x7f')

def isWhite (c : Char) : Bool := c = ' ' ∨ c = '\t'

def newline? : List Char → Option (List Char)
  | '\n' :: r => some r
  | '\r' :: '\n' :: r => some r
  | _ => none

namespace Quoted

structure Style where
  quote : Char
  escapes : Bool
  long : Bool

def Style.basic : Style := ⟨'"', true, false⟩

def Style.literal : Style := ⟨'\'', false, false⟩

def Style.longBasic : Style := ⟨'"', true, true⟩

def Style.longLiteral : Style := ⟨'\'', false, true⟩

inductive Mode where
  -- so many quotes in a row, in a long string
  | text (quotes : Nat)
  | escape
  -- the digits to come and the value of those before
  | code (digits value : Nat)
  -- after a backslash and blanks, which a line end must follow
  | trailing
  -- after a hidden line end, where blanks and line ends are hidden too
  | leading
  -- a line feed must follow
  | returned (hidden : Bool)

inductive Step where
  | next (m : Mode) (acc : List Char)
  -- the string has ended before the character or with it
  | done (s : String) (before : Bool)
  | refused

def char? (code : Nat) : Option Char :=
  if code.isValidChar then some (Char.ofNat code) else none

def escaped? : Char → Option Char
  | 'b' => some '\x08'
  | 't' => some '\t'
  | 'n' => some '\n'
  | 'f' => some '\x0c'
  | 'r' => some '\r'
  | '"' => some '"'
  | '\\' => some '\\'
  | _ => none

def close (s : Style) (quotes : Nat) (acc : List Char) : String :=
  String.ofList (List.replicate quotes s.quote ++ acc).reverse

def plain (s : Style) (acc : List Char) (c : Char) : Step :=
  if c = '\\' ∧ s.escapes then .next .escape acc
  else if c = '\n' ∧ s.long then .next (.text 0) (c :: acc)
  else if c = '\r' ∧ s.long then .next (.returned false) acc
  else if isPlain c then .next (.text 0) (c :: acc)
  else .refused

def inText (s : Style) (quotes : Nat) (acc : List Char) (c : Char) : Step :=
  if c = s.quote then
    if !s.long then .done (close s 0 acc) false
    else if quotes = 4 then .done (close s 2 acc) false
    else .next (.text (quotes + 1)) acc
  else if 3 ≤ quotes then .done (close s (quotes - 3) acc) true
  else plain s (List.replicate quotes s.quote ++ acc) c

def inEscape (s : Style) (acc : List Char) (c : Char) : Step :=
  if c = 'u' then .next (.code 4 0) acc
  else if c = 'U' then .next (.code 8 0) acc
  else match escaped? c with
    | some e => .next (.text 0) (e :: acc)
    | none =>
      if !s.long then .refused
      else if isWhite c then .next .trailing acc
      else if c = '\n' then .next .leading acc
      else if c = '\r' then .next (.returned true) acc
      else .refused

def inCode (digits value : Nat) (acc : List Char) (c : Char) : Step :=
  match Text.Hex.value? c with
  | none => .refused
  | some d =>
    if 1 < digits then .next (.code (digits - 1) (16 * value + d)) acc
    else match char? (16 * value + d) with
      | some e => .next (.text 0) (e :: acc)
      | none => .refused

def step (s : Style) (m : Mode) (acc : List Char) (c : Char) : Step :=
  match m with
  | .text quotes => inText s quotes acc c
  | .escape => inEscape s acc c
  | .code digits value => inCode digits value acc c
  | .trailing =>
    if isWhite c then .next .trailing acc
    else if c = '\n' then .next .leading acc
    else if c = '\r' then .next (.returned true) acc
    else .refused
  | .leading =>
    if isWhite c ∨ c = '\n' then .next .leading acc
    else if c = '\r' then .next (.returned true) acc
    else inText s 0 acc c
  | .returned hidden =>
    if c ≠ '\n' then .refused
    else if hidden then .next .leading acc
    else .next (.text 0) (c :: acc)

def body (s : Style) (m : Mode) (acc : List Char) : Reader String
  | [] =>
    match m with
    | .text quotes => if 3 ≤ quotes then some (close s (quotes - 3) acc, []) else none
    | _ => none
  | c :: r =>
    match step s m acc c with
    | .next m acc => body s m acc r
    | .done text before => some (text, if before then c :: r else r)
    | .refused => none

end Quoted

open Quoted (Style)

def quoted (s : Style) : Reader String := Quoted.body s (.text 0) []

def longQuoted (s : Style) (cs : List Char) : Option (String × List Char) :=
  quoted s ((newline? cs).getD cs)

def string : Reader String
  | '"' :: '"' :: '"' :: r => longQuoted .longBasic r
  | '"' :: r => quoted .basic r
  | '\'' :: '\'' :: '\'' :: r => longQuoted .longLiteral r
  | '\'' :: r => quoted .literal r
  | _ => none

end Trainyard.Toml
