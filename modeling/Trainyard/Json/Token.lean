import Trainyard.Text.Hex

/-!
# JSON tokens

A JSON text is cut into punctuation, literals, numbers and strings; blanks
between them are space, tab, line feed and carriage return.
-/

set_option autoImplicit false

namespace Trainyard.Json

inductive Token where
  | openBrace
  | closeBrace
  | openBracket
  | closeBracket
  | colon
  | comma
  | null
  | bool (b : Bool)
  | number (literal : String)
  | string (text : Option String)
  deriving DecidableEq

namespace Token

def isBlank (c : Char) : Bool := c = ' ' ∨ c = '\t' ∨ c = '\n' ∨ c = '\r'

def isDigit (c : Char) : Bool := '0' ≤ c ∧ c ≤ '9'

def escaped? : Char → Option Char
  | '"' => some '"'
  | '\\' => some '\\'
  | '/' => some '/'
  | 'b' => some '\x08'
  | 'f' => some '\x0c'
  | 'n' => some '\n'
  | 'r' => some '\r'
  | 't' => some '\t'
  | _ => none

def isHighSurrogate (n : Nat) : Bool := 0xD800 ≤ n ∧ n < 0xDC00

def isLowSurrogate (n : Nat) : Bool := 0xDC00 ≤ n ∧ n < 0xE000

/-- The string read so far: its characters, the last one first, or nothing once an unpaired
surrogate was met; and a high surrogate that waits for its other half. -/
structure Spelling where
  chars : Option (List Char)
  high : Option Nat

namespace Spelling

def empty : Spelling := ⟨some [], none⟩

def char (s : Spelling) (c : Char) : Spelling :=
  match s.high with
  | none => ⟨s.chars.map (c :: ·), none⟩
  | some _ => ⟨none, none⟩

def unit (s : Spelling) (n : Nat) : Spelling :=
  match s.high with
  | some m =>
    if isLowSurrogate n then
      ⟨s.chars.map (Char.ofNat (0x10000 + (m - 0xD800) * 0x400 + (n - 0xDC00)) :: ·), none⟩
    else ⟨none, none⟩
  | none =>
    if isHighSurrogate n then ⟨s.chars, some n⟩
    else if isLowSurrogate n then ⟨none, none⟩
    else ⟨s.chars.map (Char.ofNat n :: ·), none⟩

def text? (s : Spelling) : Option String :=
  match s.high with
  | none => s.chars.map fun cs => String.ofList cs.reverse
  | some _ => none

end Spelling

def quoted (s : Spelling) : List Char → Option (Option String × List Char)
  | [] => none
  | '"' :: r => some (s.text?, r)
  | '\\' :: 'u' :: a :: b :: c :: d :: r =>
    match Text.Hex.number? [a, b, c, d] with
    | some n => quoted (s.unit n) r
    | none => none
  | '\\' :: x :: r =>
    match escaped? x with
    | some c => quoted (s.char c) r
    | none => none
  | c :: r => if c < ' ' ∨ c = '\\' then none else quoted (s.char c) r

def digits (cs : List Char) : Option (List Char × List Char) :=
  match cs.takeWhile isDigit with
  | [] => none
  | ds => some (ds, cs.dropWhile isDigit)

def digitsAfter (lead : List Char) (cs : List Char) : Option (List Char × List Char) :=
  (digits cs).map fun (ds, r) => (lead ++ ds, r)

def exponent : List Char → Option (List Char × List Char)
  | c :: r =>
    if c = 'e' ∨ c = 'E' then
      match r with
      | '+' :: r => digitsAfter [c, '+'] r
      | '-' :: r => digitsAfter [c, '-'] r
      | r => digitsAfter [c] r
    else some ([], c :: r)
  | [] => some ([], [])

def fraction : List Char → Option (List Char × List Char)
  | '.' :: r => digitsAfter ['.'] r
  | r => some ([], r)

def unsigned (cs : List Char) : Option (List Char × List Char) := do
  let (ds, r) ← digits cs
  if ds.head? = some '0' ∧ ds.length ≠ 1 then none
  let (f, r) ← fraction r
  let (e, r) ← exponent r
  some (ds ++ f ++ e, r)

def next : List Char → Option (Token × List Char)
  | '{' :: r => some (.openBrace, r)
  | '}' :: r => some (.closeBrace, r)
  | '[' :: r => some (.openBracket, r)
  | ']' :: r => some (.closeBracket, r)
  | ':' :: r => some (.colon, r)
  | ',' :: r => some (.comma, r)
  | 'n' :: 'u' :: 'l' :: 'l' :: r => some (.null, r)
  | 't' :: 'r' :: 'u' :: 'e' :: r => some (.bool true, r)
  | 'f' :: 'a' :: 'l' :: 's' :: 'e' :: r => some (.bool false, r)
  | '"' :: r => (quoted .empty r).map fun (s, r) => (.string s, r)
  | '-' :: r => (unsigned r).map fun (n, r) => (.number (String.ofList ('-' :: n)), r)
  | cs => (unsigned cs).map fun (n, r) => (.number (String.ofList n), r)

/-- Cuts a text into tokens. Every token takes at least a character, so a fuel of the text's
length is never used up. -/
def scanWithin : Nat → List Token → List Char → Option (List Token)
  | 0, acc, cs => if (cs.dropWhile isBlank).isEmpty then some acc.reverse else none
  | n + 1, acc, cs =>
    match cs.dropWhile isBlank with
    | [] => some acc.reverse
    | cs =>
      match next cs with
      | some (t, r) => scanWithin n (t :: acc) r
      | none => none

def scan (cs : List Char) : Option (List Token) := scanWithin cs.length [] cs

end Token

end Trainyard.Json
