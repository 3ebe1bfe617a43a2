import Trainyard.Toml.Scalar

/-!
# TOML documents

A document is a list of lines: assignments, headers, comments and empty ones.
The values nest, but only so deep; the assignments under each header are
collected and then put together into one table.
-/

set_option autoImplicit false

namespace Trainyard.Toml

def nestingLimit : Nat := 80

def isBareKeyChar (c : Char) : Bool :=
  ('a' ≤ c ∧ c ≤ 'z') ∨ ('A' ≤ c ∧ c ≤ 'Z') ∨ isDigit c ∨ c = '-' ∨ c = '_'

def skipWhite (cs : List Char) : List Char := cs.dropWhile isWhite

def keyPart : Reader String
  | '"' :: r => quoted .basic r
  | '\'' :: r => quoted .literal r
  | cs =>
    let bare := cs.takeWhile isBareKeyChar
    if bare.isEmpty then none else some (String.ofList bare, cs.drop bare.length)

def keyParts : Nat → Reader (List String)
  | 0, _ => none
  | n + 1, cs => do
    let (p, r) ← keyPart (skipWhite cs)
    match skipWhite r with
    | '.' :: r => do
      let (ps, r) ← keyParts n r
      some (p :: ps, r)
    | r => some ([p], r)

def key : Reader (List String × String) := fun cs => do
  let (ps, r) ← keyParts (nestingLimit - 1) cs
  some ((ps.dropLast, ← ps.getLast?), r)

def skipComment : List Char → List Char
  | '#' :: r => r.dropWhile isPlain
  | cs => cs

def lineEnd (cs : List Char) : Option (List Char) :=
  match skipComment (skipWhite cs) with
  | [] => some []
  | r => newline? r

def skipGap (comment : Bool) : List Char → List Char
  | [] => []
  | '\n' :: r => skipGap false r
  | '\r' :: '\n' :: r => skipGap false r
  | c :: r =>
    if comment then if isPlain c then skipGap true r else c :: r
    else if isWhite c then skipGap false r
    else if c = '#' then skipGap true r
    else c :: r

def gap (cs : List Char) : List Char := skipGap false cs

mutual

def anyValue (fuel depth : Nat) (cs : List Char) : Option (Value × List Char) :=
  match fuel with
  | 0 => none
  | fuel + 1 =>
    match cs with
    | '"' :: _ => (string cs).map fun (s, r) => (.string s, r)
    | '\'' :: _ => (string cs).map fun (s, r) => (.string s, r)
    | '[' :: r => if depth + 1 < nestingLimit then items fuel (depth + 1) [] r else none
    | '{' :: r =>
      if depth + 1 < nestingLimit then
        match skipWhite r with
        | '}' :: r => some (.table .inline [], r)
        | r => members fuel (depth + 1) [] r
      else none
    | 't' :: 'r' :: 'u' :: 'e' :: r => some (.boolean true, r)
    | 'f' :: 'a' :: 'l' :: 's' :: 'e' :: r => some (.boolean false, r)
    | c :: _ =>
      if isDigit c ∨ c = '+' ∨ c = '-' then numeric cs
      else (special? cs).map fun r => (.float, r)
    | [] => none

def items (fuel depth : Nat) (acc : List Value) (cs : List Char) : Option (Value × List Char) :=
  match fuel with
  | 0 => none
  | fuel + 1 =>
    match gap cs with
    | ']' :: r => some (.array acc.reverse, r)
    | cs => do
      let (v, r) ← anyValue fuel depth cs
      match gap r with
      | ',' :: r => items fuel depth (v :: acc) r
      | ']' :: r => some (.array (v :: acc).reverse, r)
      | _ => none

def members (fuel depth : Nat) (acc : List Assignment) (cs : List Char) :
    Option (Value × List Char) :=
  match fuel with
  | 0 => none
  | fuel + 1 => do
    let ((path, k), r) ← key cs
    let r ← expect '=' r
    let (v, r) ← anyValue fuel depth (skipWhite r)
    let acc := ⟨path, k, v⟩ :: acc
    match skipWhite r with
    | ',' :: r => members fuel depth acc r
    | '}' :: r => some (.table .inline (← Table.assignAll [] acc.reverse), r)
    | _ => none

end

inductive Line where
  | assignment (a : Assignment)
  | header (path : List String) (repeated : Bool)

def header (repeated : Bool) (cs : List Char) : Option (Line × List Char) := do
  let ((path, k), r) ← key cs
  let r ← expect ']' r
  let r ← if repeated then expect ']' r else some r
  some (.header (path ++ [k]) repeated, ← lineEnd r)

def assignment (fuel : Nat) (cs : List Char) : Option (Line × List Char) := do
  let ((path, k), r) ← key cs
  let (v, r) ← anyValue fuel 0 (skipWhite (← expect '=' r))
  some (.assignment ⟨path, k, v⟩, ← lineEnd r)

/-- The lines of a document. Each takes at least a character, so the fuel, at first the length
of the text, is never less than what is left of it. A value takes at most two steps for each of
its characters. -/
def lines : Nat → List Line → List Char → Option (List Line)
  | 0, acc, cs => if (skipWhite cs).isEmpty then some acc.reverse else none
  | n + 1, acc, cs =>
    match skipWhite cs with
    | [] => some acc.reverse
    | '\n' :: r => lines n acc r
    | '\r' :: '\n' :: r => lines n acc r
    | '#' :: r =>
      match lineEnd ('#' :: r) with
      | some r => lines n acc r
      | none => none
    | '[' :: '[' :: r =>
      match header true r with
      | some (l, r) => lines n (l :: acc) r
      | none => none
    | '[' :: r =>
      match header false r with
      | some (l, r) => lines n (l :: acc) r
      | none => none
    | cs =>
      match assignment (2 * n + 4) cs with
      | some (l, r) => lines n (l :: acc) r
      | none => none

def Line.addTo : Line → List Assignment × List Section → List Assignment × List Section
  | .assignment a, (first, rest) => (a :: first, rest)
  | .header path repeated, (first, rest) => ([], ⟨path, repeated, first⟩ :: rest)

def sections (ls : List Line) : List Assignment × List Section := ls.foldr Line.addTo ([], [])

def parse? (s : String) : Option Table := do
  let cs := match s.toList with
    | '\uFEFF' :: r => r
    | cs => cs
  let (first, rest) := sections (← lines cs.length [] cs)
  Table.ofSections first rest

end Trainyard.Toml
