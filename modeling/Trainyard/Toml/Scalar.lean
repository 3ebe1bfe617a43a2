import Trainyard.Toml.Quoted
import Trainyard.Toml.Value

/-!
# TOML numbers and times

Readers for the values without parts. Each takes what it wants from the front of
the text and gives back the rest.
-/

set_option autoImplicit false

namespace Trainyard.Toml

def isDigit (c : Char) : Bool := '0' ≤ c ∧ c ≤ '9'

/-! ## Numbers -/

def moreDigits (ok : Char → Bool) (acc : List Char) : Reader (List Char)
  | '_' :: d :: r => if ok d then moreDigits ok (d :: acc) r else none
  | ['_'] => none
  | c :: r => if ok c then moreDigits ok (c :: acc) r else some (acc.reverse, c :: r)
  | [] => some (acc.reverse, [])

def digits (ok : Char → Bool) : Reader (List Char)
  | c :: r => if ok c then moreDigits ok [c] r else none
  | [] => none

def decimal : List Char → Option (List Char × List Char)
  | '0' :: r => some (['0'], r)
  | cs => digits isDigit cs

def value (stop base : Nat) (ds : List Char) : Nat :=
  ds.foldl (fun n d => if n < stop then base * n + (Text.Hex.value? d).getD 0 else n) 0

def wholeLimit : Nat := UInt64.size / 2 + 1

def integer? (n : Int) : Option Value :=
  if Int64.minValue.toInt ≤ n ∧ n ≤ Int64.maxValue.toInt then some (.integer n) else none

def exponentLimit : Nat := UInt16.size

def doubleDigits : Nat := 309

def doubleLimit : Nat := ((1 <<< 54) - 1) <<< 970

/-- Whether the digits, times that power of ten, are beyond all doubles. Only a number with as
many digits before its point as the largest double needs to be looked at, and only these. -/
def overflows (ds : List Char) (exponent : Int) : Bool :=
  let ds := ds.dropWhile (· = '0')
  let size : Int := ds.length + exponent
  if ds.isEmpty then false
  else if size ≠ doubleDigits then doubleDigits < size
  else doubleLimit ≤
    value (Nat.pow 10 doubleDigits) 10 (ds.take doubleDigits) *
      Nat.pow 10 (doubleDigits - ds.length)

def exponentOf (ds : List Char) : Int := value exponentLimit 10 ds

def exponent? : List Char → Option (Option Int × List Char)
  | c :: r =>
    if c = 'e' ∨ c = 'E' then
      match r with
      | '-' :: r => (digits isDigit r).map fun (ds, r) => (some (-exponentOf ds), r)
      | '+' :: r => (digits isDigit r).map fun (ds, r) => (some (exponentOf ds), r)
      | r => (digits isDigit r).map fun (ds, r) => (some (exponentOf ds), r)
    else some (none, c :: r)
  | [] => some (none, [])

def fraction? : List Char → Option (Option (List Char) × List Char)
  | '.' :: r => (digits isDigit r).map fun (ds, r) => (some ds, r)
  | r => some (none, r)

/-- Reads a decimal number after its sign. A float beyond all doubles is refused, unless it is
negative. -/
def decimalNumber (negative : Bool) (cs : List Char) : Option (Value × List Char) := do
  let (ds, r) ← decimal cs
  let (frac, r) ← fraction? r
  let (exp, r) ← exponent? r
  match frac, exp with
  | none, none =>
    let n : Int := value wholeLimit 10 ds
    some (← integer? (if negative then -n else n), r)
  | frac, exp =>
    let frac := frac.getD []
    let big := overflows (ds ++ frac) (exp.getD 0 - frac.length)
    if big && !negative then none else some (.float, r)

def inBase (base : Nat) (ok : Char → Bool) (cs : List Char) : Option (Value × List Char) := do
  let (ds, r) ← digits ok cs
  some (← integer? (value wholeLimit base ds), r)

def special? : List Char → Option (List Char)
  | 'i' :: 'n' :: 'f' :: r => some r
  | 'n' :: 'a' :: 'n' :: r => some r
  | _ => none

def signed (negative : Bool) (cs : List Char) : Option (Value × List Char) :=
  match special? cs with
  | some r => some (.float, r)
  | none => decimalNumber negative cs

def number : Reader Value
  | '+' :: r => signed false r
  | '-' :: r => signed true r
  | '0' :: 'x' :: r => inBase 16 (fun c => (Text.Hex.value? c).isSome) r
  | '0' :: 'o' :: r => inBase 8 (fun c => '0' ≤ c ∧ c ≤ '7') r
  | '0' :: 'b' :: r => inBase 2 (fun c => c = '0' ∨ c = '1') r
  | cs => signed false cs

/-! ## Dates and times -/

def pair (low high : Nat) : List Char → Option (Nat × List Char)
  | a :: b :: r =>
    let n := value wholeLimit 10 [a, b]
    if isDigit a ∧ isDigit b ∧ low ≤ n ∧ n ≤ high then some (n, r) else none
  | _ => none

def expect (c : Char) : List Char → Option (List Char)
  | d :: r => if d = c then some r else none
  | [] => none

def daysIn (year month : Nat) : Nat :=
  if month = 2 then
    if year % 4 = 0 ∧ (year % 100 ≠ 0 ∨ year % 400 = 0) then 29 else 28
  else if month = 4 ∨ month = 6 ∨ month = 9 ∨ month = 11 then 30
  else 31

def time (cs : List Char) : Option (List Char) := do
  let (_, r) ← pair 0 23 cs
  let (_, r) ← pair 0 59 (← expect ':' r)
  let (_, r) ← pair 0 60 (← expect ':' r)
  match r with
  | '.' :: f =>
    if (f.takeWhile isDigit).isEmpty then some r else some (f.dropWhile isDigit)
  | r => some r

def offset : List Char → Option (List Char)
  | 'Z' :: r => some r
  | 'z' :: r => some r
  | c :: r =>
    if c = '+' ∨ c = '-' then do
      let (_, r) ← pair 0 23 r
      let (_, r) ← pair 0 59 (← expect ':' r)
      some r
    else some (c :: r)
  | [] => some []

def startsTime : List Char → Bool
  | a :: b :: ':' :: _ => isDigit a ∧ isDigit b
  | _ => false

def dateAfter (year : Nat) (cs : List Char) : Option (List Char) := do
  let (month, r) ← pair 1 12 cs
  let (day, r) ← pair 1 31 (← expect '-' r)
  if daysIn year month < day then none
  match r with
  | c :: r' =>
    if (c = 'T' ∨ c = 't' ∨ c = ' ') ∧ startsTime r' then offset (← time r') else some r
  | [] => some []

def numeric : Reader Value
  | a :: b :: c :: d :: '-' :: r =>
    if [a, b, c, d].all isDigit then do
      some (.dateTime, ← dateAfter (value wholeLimit 10 [a, b, c, d]) r)
    else number (a :: b :: c :: d :: '-' :: r)
  | cs => if startsTime cs then do some (.dateTime, ← time cs) else number cs

end Trainyard.Toml
