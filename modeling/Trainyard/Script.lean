import Trainyard.Step
import Trainyard.Text.Quoted

/-!
# Scripts

Steps written as lists of small actions on a tree.
-/

set_option autoImplicit false

namespace Trainyard

inductive Action where
  | set (key value : String)
  | append (key value : String)
  | erase (key : String)
  | report (d : Diagnostic)
  | object (n : Node)
  -- all objects go into one node of the kind, so many times
  | wrap (kind : String) (times : Nat)
  | reverse
  | generate
  -- the script ends here unless the tree has the name
  | only (name : String)
  | fail (message : String)

namespace Action

def wrapped (kind : String) (objects : List Node) : Nat → List Node
  | 0 => objects
  | n + 1 => wrapped kind [.mk kind .empty objects] n

def run : List Action → Tree → Except StepFailure Tree
  | [], t => .ok t
  | .set key value :: r, t => run r (t.setAttribute key value)
  | .append key value :: r, t =>
    run r (t.setAttribute key ((t.attribute? key).getD "" ++ value))
  | .erase key :: r, t => run r (t.eraseAttribute key)
  | .report d :: r, t => run r (t.addError d)
  | .object n :: r, t => run r (t.addObject n)
  | .wrap kind times :: r, t => run r { t with objects := .ofList (wrapped kind t.objects.toList times) }
  | .reverse :: r, t => run r { t with objects := t.objects.reverse }
  | .generate :: r, t =>
    run r (t.setAttribute Tree.codeKey ("pub struct " ++ t.name?.getD "Anon" ++ ";\n"))
  | .only name :: r, t => if t.name? = some name then run r t else .ok t
  | .fail message :: _, _ => .error ⟨message⟩

end Action

namespace Step

def ofActions (name : String) (actions : List Action) : Step := ⟨name, Action.run actions⟩

def display (s : Step) : String := "FnStep \x7b name: " ++ Text.quoted s.name ++ " \x7d"

end Step

end Trainyard
