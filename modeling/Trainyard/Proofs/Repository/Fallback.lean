import Mathlib.Data.List.Forall2
import Trainyard.Repository

/-!
# Fallbacks scan their leaves

However fallbacks are nested and whenever their switches were turned, asking for a name comes
to asking the leaves one after the other. They stand in the order of the nesting, with the two
sides of a fallback exchanged where its switch says so. The first leaf that has the object ends
the search, and when none has it, the error is that of the last one.
-/

set_option autoImplicit false

namespace Trainyard

namespace Repository

/-! ## The leaves in their order -/

structure Leaf where
  label : String
  source : Source

def leaves : Repository → List Leaf
  | .leaf label source => [⟨label, source⟩]
  | .fallback _ first second => first.leaves ++ second.leaves

def arranged (swapped : Switches) : Repository → Repository
  | .leaf label source => .leaf label source
  | .fallback switch first second =>
    if swapped switch then .fallback switch (second.arranged swapped) (first.arranged swapped)
    else .fallback switch (first.arranged swapped) (second.arranged swapped)

def Leaf.Refuses (fs : FileSystem) (name : String) (leaf : Leaf) (e : FetchError) : Prop :=
  leaf.source.get fs name = .error e

/-- What comes of asking leaves one after the other. Those before the last one asked have failed,
each of their errors is told before the next one is asked, and no leaf is asked after a success. -/
inductive Scans (fs : FileSystem) (name : String) : List Leaf → Inquiry → Prop where
  | found {before after : List Leaf} {leaf : Leaf} {errors : List FetchError} {source : String}
      (refused : List.Forall₂ (Leaf.Refuses fs name) before errors)
      (answer : leaf.source.get fs name = .ok source) :
      Scans fs name (before ++ leaf :: after)
        ⟨(before ++ [leaf]).map (·.label), errors.map (.fallingBack name), .ok source⟩
  | lost {before : List Leaf} {last : Leaf} {errors : List FetchError} {e : FetchError}
      (refused : List.Forall₂ (Leaf.Refuses fs name) before errors)
      (answer : last.source.get fs name = .error e) :
      Scans fs name (before ++ [last])
        ⟨(before ++ [last]).map (·.label), errors.map (.fallingBack name), .error e⟩

section Scans

variable {fs : FileSystem} {name : String} {first second : List Leaf} {q r : Inquiry}

theorem scans_leaf (fs : FileSystem) (name : String) (leaf : Leaf) :
    Scans fs name [leaf] ⟨[leaf.label], [], leaf.source.get fs name⟩ := by
  cases hanswer : leaf.source.get fs name with
  | ok source => exact @Scans.found fs name [] [] leaf [] source .nil hanswer
  | error e => exact @Scans.lost fs name [] leaf [] e .nil hanswer

/-- A search that has failed goes on with more leaves, and its last error is told in between. -/
theorem Scans.orElse (h : Scans fs name first q) (h' : Scans fs name second r) :
    Scans fs name (first ++ second) (q.orElse name fun _ => r) := by
  cases h with
  | @found before after leaf errors source refused answer =>
    rw [List.append_assoc, List.cons_append]
    exact .found refused answer
  | @lost before last errors e refused answer =>
    cases h' with
    | @found before' after' leaf' errors' source refused' answer' =>
      have hall := List.rel_append refused (.cons answer refused')
      have hfound : Scans fs name (before ++ last :: before' ++ leaf' :: after') _ :=
        .found hall answer'
      simpa [Inquiry.orElse] using hfound
    | @lost before' last' errors' e' refused' answer' =>
      have hall := List.rel_append refused (.cons answer refused')
      have hlost := Scans.lost hall answer'
      simpa [Inquiry.orElse] using hlost

end Scans

theorem scans_inquire (fs : FileSystem) (swapped : Switches) (name : String) (r : Repository) :
    Scans fs name (r.arranged swapped).leaves (r.inquire fs swapped name) := by
  induction r with
  | leaf label source => exact scans_leaf fs name ⟨label, source⟩
  | fallback switch first second ihFirst ihSecond =>
    rw [arranged, inquire]
    by_cases hswapped : swapped switch = true
    · rw [if_pos hswapped, if_pos hswapped, leaves]
      exact ihSecond.orElse ihFirst
    · rw [if_neg hswapped, if_neg hswapped, leaves]
      exact ihFirst.orElse ihSecond

/-! ## Switches that are turned between calls -/

inductive Call where
  | turn (switch : Nat) (swapped : Bool)
  | get (name : String)

namespace Call

def isGet : Call → Bool
  | .turn .. => false
  | .get _ => true

def turns? (switch : Nat) : Call → Option Bool
  | .turn i swapped => if i = switch then some swapped else none
  | .get _ => none

end Call

def serve (fs : FileSystem) (r : Repository) : Switches → List Call → List Inquiry
  | _, [] => []
  | switches, .turn switch swapped :: calls => serve fs r (switches.set switch swapped) calls
  | switches, .get name :: calls => r.inquire fs switches name :: serve fs r switches calls

def latest (initial : Switches) (past : List Call) : Switches := fun switch =>
  (past.reverse.findSome? (Call.turns? switch)).getD (initial switch)

theorem latest_turn (initial : Switches) (switch : Nat) (swapped : Bool) (past : List Call) :
    latest initial (.turn switch swapped :: past) = latest (initial.set switch swapped) past := by
  funext i
  rw [latest, latest, List.reverse_cons, List.findSome?_append]
  cases past.reverse.findSome? (Call.turns? i) with
  | some b => rfl
  | none =>
    by_cases hi : i = switch
    · simp [Call.turns?, Switches.set, hi]
    · simp [Call.turns?, Switches.set, hi, Ne.symm hi]

theorem latest_get (initial : Switches) (name : String) (past : List Call) :
    latest initial (.get name :: past) = latest initial past := by
  funext i
  rw [latest, latest, List.reverse_cons, List.findSome?_append]
  cases past.reverse.findSome? (Call.turns? i) <;> rfl

/-- A get is answered with all switches as they were last turned. -/
theorem getElem?_serve (fs : FileSystem) (r : Repository) (switches : Switches)
    (past : List Call) (name : String) (rest : List Call) :
    (serve fs r switches (past ++ .get name :: rest))[past.countP Call.isGet]? =
      some (r.inquire fs (latest switches past) name) := by
  induction past generalizing switches with
  | nil => rfl
  | cons call past ih =>
    cases call with
    | turn switch swapped =>
      rw [List.countP_cons_of_neg (by simp [Call.isGet]), latest_turn]
      exact ih (switches.set switch swapped)
    | get other =>
      rw [List.countP_cons_of_pos rfl, latest_get]
      exact ih switches

/-- Whatever was asked and turned before, a get scans the leaves in the order that the switches,
each as it was last turned, give them. -/
theorem get_scans_leaves_in_flag_order (fs : FileSystem) (r : Repository) (switches : Switches)
    (past : List Call) (name : String) (rest : List Call) :
    ∃ q, (serve fs r switches (past ++ .get name :: rest))[past.countP Call.isGet]? = some q ∧
      Scans fs name (r.arranged (latest switches past)).leaves q := by
  rw [getElem?_serve]
  exact ⟨_, rfl, scans_inquire fs (latest switches past) name r⟩

end Repository

end Trainyard
