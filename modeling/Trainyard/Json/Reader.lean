import Trainyard.Json.Token
import Trainyard.Json.Value

/-!
# Reading JSON

Tokens are taken one at a time. What encloses the value being read is kept on a
stack, so nesting has no limit here.
-/

set_option autoImplicit false

namespace Trainyard.Json

namespace Reader

inductive Frame where
  | array (items : List Value)
  | object (members : List (Option String × Value)) (key : Option String)

inductive Expect where
  | value
  -- a value, or the end of the array just opened
  | firstItem
  | member (members : List (Option String × Value))
  -- a member, or the end of the object just opened
  | firstMember
  | after (v : Value)

def start : Token → Option (Sum Value Expect)
  | .null => some (.inl .null)
  | .bool b => some (.inl (.bool b))
  | .number n => some (.inl (.number n))
  | .string s => some (.inl (.string s))
  | .openBracket => some (.inr .firstItem)
  | .openBrace => some (.inr .firstMember)
  | _ => none

def run (stack : List Frame) : Expect → List Token → Option Value
  | .value, t :: r =>
    match start t with
    | some (.inl v) => run stack (.after v) r
    | some (.inr e) => run stack e r
    | none => none
  | .firstItem, .closeBracket :: r => run stack (.after (.array [])) r
  | .firstItem, t :: r =>
    match start t with
    | some (.inl v) => run (.array [] :: stack) (.after v) r
    | some (.inr e) => run (.array [] :: stack) e r
    | none => none
  | .firstMember, .closeBrace :: r => run stack (.after (.object [])) r
  | .firstMember, .string k :: .colon :: r => run (.object [] k :: stack) .value r
  | .member ms, .string k :: .colon :: r => run (.object ms k :: stack) .value r
  | .after v, ts =>
    match stack, ts with
    | [], [] => some v
    | .array items :: stack, .comma :: r => run (.array (v :: items) :: stack) .value r
    | .array items :: stack, .closeBracket :: r =>
      run stack (.after (.array (v :: items).reverse)) r
    | .object ms k :: stack, .comma :: r => run stack (.member ((k, v) :: ms)) r
    | .object ms k :: stack, .closeBrace :: r =>
      run stack (.after (.object ((k, v) :: ms).reverse)) r
    | _, _ => none
  | _, _ => none
termination_by structural _ ts => ts

end Reader

def parse? (s : String) : Option Value := do
  Reader.run [] .value (← Token.scan s.toList)

end Trainyard.Json
