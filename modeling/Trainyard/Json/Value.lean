/-!
# JSON values

What a JSON text says, before anything is asked of it. Members keep their order
and their repetitions. A string is `none` when its escapes name half of a
surrogate pair, so that it spells no text; a number is kept as it is written.
-/

set_option autoImplicit false

namespace Trainyard.Json

inductive Value where
  | null
  | bool (b : Bool)
  | number (literal : String)
  | string (text : Option String)
  | array (items : List Value)
  | object (members : List (Option String × Value))

namespace Value

def text (s : String) : Value := .string (some s)

def nat (n : Nat) : Value := .number (String.ofList (Nat.toDigits 10 n))

def textOrNull : Option String → Value
  | some s => text s
  | none => .null

def record (fields : List (String × Value)) : Value :=
  .object (fields.map fun f => (some f.1, f.2))

end Value

end Trainyard.Json
