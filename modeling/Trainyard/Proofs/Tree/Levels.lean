import Trainyard.Tree

/-!
# Levels of nodes

A node is nested inside its parent, one level deeper. The number of levels is what
bounds the readers of trees: by the number of bytes there, and by a fixed limit where
the tree is a text.
-/

set_option autoImplicit false

namespace Trainyard

namespace Node

@[elab_as_elim]
theorem induct {P : Node → Prop}
    (mk : ∀ kind attributes children, (∀ c ∈ children, P c) → P (.mk kind attributes children))
    (n : Node) : P n :=
  @Node.rec P (fun children => ∀ c ∈ children, P c) mk
    (fun _ h => absurd h (List.not_mem_nil))
    (fun _ _ hn hns => List.forall_mem_cons.2 ⟨hn, hns⟩) n

mutual

def levels : Node → Nat
  | .mk _ _ children => levelsAll children + 1

def levelsAll : List Node → Nat
  | [] => 0
  | n :: ns => max n.levels (levelsAll ns)

end

theorem levels_le_levelsAll {n : Node} {ns : List Node} (h : n ∈ ns) :
    n.levels ≤ levelsAll ns := by
  induction ns with
  | nil => simp at h
  | cons m ms ih =>
    rw [levelsAll]
    rcases List.mem_cons.1 h with rfl | h
    · omega
    · have := ih h
      omega

theorem levelsAll_le_iff {ns : List Node} {k : Nat} :
    levelsAll ns ≤ k ↔ ∀ n ∈ ns, n.levels ≤ k := by
  induction ns with
  | nil => simp [levelsAll]
  | cons n ns ih => rw [levelsAll, List.forall_mem_cons, ← ih, Nat.max_le]

end Node

namespace Tree

def levels (t : Tree) : Nat := Node.levelsAll t.objects.toList

end Tree

end Trainyard
