import Trainyard.Proofs.Job
import Trainyard.Proofs.Tree.Json

/-!
# Saved trees

Saving writes the text of a tree whatever its depth, and loading reads it from the
same path. The two agree up to 62 levels of nodes, where the text nests arrays and
objects up to 127 deep; deeper trees are saved and cannot be loaded.
-/

set_option autoImplicit false

namespace Trainyard

/-! ## How deep a text nests -/

namespace Json.Value

mutual

def nesting : Value → Nat
  | .array vs => nestingItems vs + 1
  | .object ms => nestingMembers ms + 1
  | _ => 0

def nestingItems : List Value → Nat
  | [] => 0
  | v :: vs => max v.nesting (nestingItems vs)

def nestingMembers : List (Option String × Value) → Nat
  | [] => 0
  | (_, v) :: ms => max v.nesting (nestingMembers ms)

end

end Json.Value

open Json (Value)

theorem Attributes.nesting_toJson (a : Attributes) : a.toJson.nesting = 1 := by
  have htexts (es : List (String × String)) : Value.nestingMembers
      ((es.map fun e => (e.1, Value.text e.2)).map fun f => (some f.1, f.2)) = 0 := by
    induction es with
    | nil => rfl
    | cons e es ih => simpa [Value.nestingMembers, Value.text, Value.nesting] using ih
  rw [toJson, Value.record, Value.nesting, htexts]

theorem Diagnostic.nesting_toJson_le (d : Diagnostic) : d.toJson.nesting ≤ 2 := by
  have hlocation : (Location.orNull d.location).nesting ≤ 1 := by
    cases d.location with
    | none => exact Nat.zero_le 1
    | some l => simp [Location.orNull, Location.toJson, Value.record, Value.nesting,
        Value.nestingMembers, Value.nat]
  have hstep : (Value.textOrNull d.step).nesting = 0 := by
    cases d.step <;> rfl
  simp only [toJson, Value.record, List.map_cons, List.map_nil, Value.nesting,
    Value.nestingMembers, Value.text, hstep]
  omega

theorem Node.nesting_toJson (n : Node) : n.toJson.nesting = 2 * n.levels := by
  induction n using Node.induct with
  | mk kind attributes children ih =>
    have hchildren : Value.nestingItems (children.map Node.toJson) = 2 * levelsAll children := by
      induction children with
      | nil => rfl
      | cons c cs ihs =>
        have hc := ih c (by simp)
        have hcs := ihs fun d hd => ih d (by simp [hd])
        rw [List.map_cons, Value.nestingItems, levelsAll, hc, hcs]
        omega
    simp only [Node.toJson, listJson_eq_map, Value.record, List.map_cons, List.map_nil,
      Value.nesting, Value.nestingMembers, Value.text, hchildren, attributes.nesting_toJson,
      levels]
    omega

namespace Tree

theorem nesting_toJson_le_iff (t : Tree) : t.toJson.nesting ≤ 127 ↔ t.levels ≤ 62 := by
  have hobjects (ns : List Node) :
      Value.nestingItems (ns.map Node.toJson) = 2 * Node.levelsAll ns := by
    induction ns with
    | nil => rfl
    | cons n ns ih =>
      rw [List.map_cons, Value.nestingItems, Node.levelsAll, n.nesting_toJson, ih]
      omega
  have herrors (ds : List Diagnostic) :
      Value.nestingItems (ds.map Diagnostic.toJson) ≤ 2 := by
    induction ds with
    | nil => exact Nat.zero_le 2
    | cons d ds ih =>
      have hd := d.nesting_toJson_le
      rw [List.map_cons, Value.nestingItems]
      omega
  have herrors := herrors t.errors.toList
  simp only [toJson, Value.record, List.map_cons, List.map_nil, Value.nesting,
    Value.nestingMembers, t.attributes.nesting_toJson, hobjects, levels]
  omega

/-! ## Saving and loading -/

theorem fst_on_save_eq (t t' : Tree) (p : Path) (s : Site) :
    ((t.save p).on s).1 = ((t'.save p).on s).1 := Job.fst_on_writeText_eq _ _ _ _ _

theorem on_load_of_stat {t : Tree} {p : Path} {s : Site} {time : Nat}
    (h : s.files.stat p = .ok (.file t.render.toUTF8 time)) :
    (load p).on s = (if t.levels ≤ 62 then .ok t else .error (.parse p), s) := by
  have htext : s.files.readText p = .ok t.render :=
    FileSystem.readText_eq_ok.2 ⟨_, time, h, Bytes.fromUTF8?_toUTF8 _⟩
  rw [load, Job.on_bind, Job.on_ask, htext]
  simp only [mapError_ok, parse?_render]
  by_cases hlevels : t.levels ≤ 62
  · rw [if_pos hlevels, if_pos hlevels, Job.on_pure]
  · rw [if_neg hlevels, if_neg hlevels, Job.on_fail]

/-- A tree is read back from its text, and loaded from where it was saved, exactly when it has
at most 62 levels of nodes. Saving goes as it would go for any other tree. -/
theorem load_save_iff_levels (t : Tree) :
    (parse? t.render = if t.levels ≤ 62 then some t else none) ∧
    (t.toJson.nesting ≤ 127 ↔ t.levels ≤ 62) ∧
    ∀ (p : Path) (s : Site),
      (∀ t' : Tree, ((t.save p).on s).1 = ((t'.save p).on s).1) ∧
      ∀ s', (t.save p).on s = (.ok (), s') →
        (load p).on s' = (if t.levels ≤ 62 then .ok t else .error (.parse p), s') := by
  refine ⟨t.parse?_render, t.nesting_toJson_le_iff, fun p s => ⟨fun t' => ?_, fun s' h => ?_⟩⟩
  · exact t.fst_on_save_eq t' p s
  · exact on_load_of_stat (on_save_ok h)

/-- A tree of 63 levels is saved in an empty directory and not loaded from there. -/
theorem load_save_iff_levels_deep :
    let t : Tree := ⟨.empty, .ofList (Nat.repeat (fun ns => [.mk "o" .empty ns]) 63 []), .empty⟩
    let s : Site := { files := .fresh ["work"] }
    let p : Path := ⟨"out/t.json"⟩
    t.levels = 63 ∧ ∃ s', (t.save p).on s = (.ok (), s') ∧
      (load p).on s' = (.error (.parse p), s') := by
  intro t s p
  have hlevels : t.levels = 63 := by decide +kernel
  have hempty : ((Tree.empty.save p).on s).1 = .ok () := by decide +kernel
  obtain ⟨-, -, hfiles⟩ := load_save_iff_levels t
  have hsaved : ((t.save p).on s).1 = .ok () := ((hfiles p s).1 .empty).trans hempty
  have hload := (hfiles p s).2 ((t.save p).on s).2 (Prod.ext hsaved rfl)
  rw [if_neg (by omega)] at hload
  exact ⟨hlevels, ((t.save p).on s).2, Prod.ext hsaved rfl, hload⟩

end Tree

end Trainyard
