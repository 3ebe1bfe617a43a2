import Trainyard.Json.Value

/-!
# Taking values apart

What a caller wants of a JSON value: a text, a small number, a list, one of a
few names, or a record of fields. Each array or object that is wanted uses up one
level of `room`, the nesting still allowed; what is not wanted is never entered.
A record may also be written as the array of its fields in order.
-/

set_option autoImplicit false

namespace Trainyard.Json

namespace Value

def room : Nat := 127

def asText? : Value → Option String
  | .string s => s
  | _ => none

def decimal (cs : List Char) : Nat := cs.foldl (fun n c => 10 * n + (c.toNat - 48)) 0

def natural? (cs : List Char) : Option Nat :=
  if cs.length ≤ 10 ∧ cs.all fun c => '0' ≤ c ∧ c ≤ '9' then some (decimal cs) else none

def asWord? : Value → Option UInt32
  | .number literal => do
    let n ← natural? literal.toList
    if n < UInt32.size then some (UInt32.ofNat n) else none
  | _ => none

def asOptional? {α : Type} (read : Value → Option α) : Value → Option (Option α)
  | .null => some none
  | v => (read v).map some

def asList? {α : Type} (read : Nat → Value → Option α) : Nat → Value → Option (List α)
  | room + 1, .array items => items.mapM (read room)
  | _, _ => none

def asTexts? : Nat → Value → Option (List (String × String))
  | _ + 1, .object members => members.mapM fun m => do some (← m.1, ← asText? m.2)
  | _, _ => none

def asName? : Nat → Value → Option String
  | _, .string s => s
  | _ + 1, .object [(some s, .null)] => some s
  | _, _ => none

end Value

inductive Fields where
  | named (values : List (Option Value))
  | ordered (values : List Value)

namespace Fields

def member? (name : String) (members : List (String × Value)) : Option (Option Value) :=
  match members.filter (·.1 = name) with
  | [] => some none
  | [(_, v)] => some (some v)
  | _ => none

def ofValue? (names : List String) : Nat → Value → Option Fields
  | _ + 1, .object members => do
    let members ← members.mapM fun m => do some (← m.1, m.2)
    some (.named (← names.mapM fun name => member? name members))
  | _ + 1, .array items => if items.length ≤ names.length then some (.ordered items) else none
  | _, _ => none

def get? (f : Fields) (i : Nat) : Option Value :=
  match f with
  | .named values => (values[i]?).join
  | .ordered values => values[i]?

def required {α : Type} (f : Fields) (i : Nat) (read : Value → Option α) : Option α :=
  (f.get? i).bind read

def defaulted {α : Type} (f : Fields) (i : Nat) (read : Value → Option α) (default : α) :
    Option α :=
  match f.get? i with
  | some v => read v
  | none => some default

/-- A field whose absence means nothing, but only where fields are named. -/
def optional {α : Type} (f : Fields) (i : Nat) (read : Value → Option α) :
    Option (Option α) :=
  match f, f.get? i with
  | _, some v => v.asOptional? read
  | .named _, none => some none
  | .ordered _, none => none

end Fields

end Trainyard.Json
