import Trainyard.Proofs.Json.Record
import Trainyard.Proofs.Json.RoundTrip
import Trainyard.Proofs.Tree.Levels
import Trainyard.Tree.Json

/-!
# The text of a tree says the tree, down to a level

The printer writes any tree. The reader gives it back as long as its room lasts: a
node takes one level of room for itself and one for the list of its children, and
since every part is written, the attributes of the deepest node need room as well.
-/

set_option autoImplicit false

namespace Trainyard

open Json (Value Fields)

namespace Attributes

theorem plain_toJson (a : Attributes) : a.toJson.Plain := by
  refine .record fun f hf => ?_
  obtain ⟨e, -, rfl⟩ := List.mem_map.1 hf
  exact .text e.2

theorem ofJson?_toJson (a : Attributes) (room : Nat) : ofJson? (room + 1) a.toJson = some a := by
  rw [ofJson?, toJson, Value.asTexts?_record, Option.map_some, ofList_entries]

end Attributes

namespace Location

theorem plain_orNull (l : Option Location) : (orNull l).Plain := by
  cases l with
  | none => exact .null
  | some l => exact .record (by simp [Value.Plain.nat])

theorem ofJson?_toJson (l : Location) (room : Nat) : ofJson? (room + 1) l.toJson = some l := by
  rw [ofJson?, toJson, Fields.ofValue?_record]
  · simp [Fields.required, Fields.get?, Value.asWord?_nat]
  · rfl
  · decide

theorem asOptional?_orNull (l : Option Location) (room : Nat) :
    Value.asOptional? (ofJson? (room + 1)) (orNull l) = some l := by
  cases l with
  | none => rfl
  | some l =>
    show ((ofJson? (room + 1) l.toJson).map some) = some (some l)
    rw [ofJson?_toJson, Option.map_some]

end Location

namespace Diagnostic

theorem plain_toJson (d : Diagnostic) : d.toJson.Plain := by
  refine .record ?_
  simp [Value.Plain.text, Value.Plain.textOrNull, Location.plain_orNull]

theorem ofJson?_toJson (d : Diagnostic) (room : Nat) : ofJson? (room + 2) d.toJson = some d := by
  rw [ofJson?, toJson, Fields.ofValue?_record]
  · simp [Fields.required, Fields.optional, Fields.get?, Severity.ofJson?, Value.asName?,
      Value.text, Severity.ofName?_name, Value.asText?, Location.asOptional?_orNull,
      Value.asOptional?_textOrNull]
  · rfl
  · decide

end Diagnostic

namespace Node

theorem listJson_eq_map (ns : List Node) : listJson ns = ns.map toJson := by
  induction ns with
  | nil => rfl
  | cons n ns ih => rw [listJson, ih, List.map_cons]

theorem plain_toJson (n : Node) : n.toJson.Plain := by
  induction n using induct with
  | mk kind attributes children ih =>
    have hchildren : (Value.array (children.map toJson)).Plain :=
      .array (by simpa using ih)
    rw [toJson, listJson_eq_map]
    refine .record ?_
    simp [Value.Plain.text, attributes.plain_toJson, hchildren]

theorem ofFields?_toJson (kind : String) (attributes : Attributes) (children : List Node)
    (room : Nat) (read : Value → Option (List Node)) :
    ofFields? room read (toJson (.mk kind attributes children)) =
      (Attributes.ofJson? room attributes.toJson).bind fun a =>
        (read (.array (children.map toJson))).bind fun cs => some (.mk kind a cs) := by
  rw [ofFields?, toJson, listJson_eq_map, Fields.ofValue?_record]
  · simp [Fields.required, Fields.defaulted, Fields.get?, Value.asText?, Value.text]
  · rfl
  · decide

theorem mapM_ofJson? {ns : List Node} {room : Nat}
    (h : ∀ n ∈ ns, ofJson? room n.toJson = if 2 * n.levels ≤ room then some n else none) :
    (ns.map toJson).mapM (ofJson? room) =
      if 2 * levelsAll ns ≤ room then some ns else none := by
  have hall := Json.mapM_eq_ite (g := id) ns h
  have hroom : (∀ n ∈ ns, 2 * n.levels ≤ room) ↔ 2 * levelsAll ns ≤ room := by
    have hhalf : levelsAll ns ≤ room / 2 ↔ _ := levelsAll_le_iff
    constructor
    · intro h
      have := hhalf.2 fun n hn => by have := h n hn; omega
      omega
    · intro h n hn
      have := hhalf.1 (by omega) n hn
      omega
  simp only [hroom, List.map_id] at hall
  rw [List.mapM_map]
  exact hall

/-- A node is read exactly when there is room for twice its levels. -/
theorem ofJson?_toJson (n : Node) (room : Nat) :
    ofJson? room n.toJson = if 2 * n.levels ≤ room then some n else none := by
  induction n using induct generalizing room with
  | mk kind attributes children ih =>
    rw [levels]
    match room with
    | 0 => simp [ofJson?]
    | 1 =>
      -- there is room for the node itself but not for its attributes
      rw [ofJson?, ofFields?_toJson, if_neg (by omega)]
      rfl
    | inner + 2 =>
      have hroom : 2 * levelsAll children ≤ inner ↔
          2 * (levelsAll children + 1) ≤ inner + 2 := by omega
      rw [ofJson?, ofFields?_toJson, Attributes.ofJson?_toJson, Value.asList?,
        mapM_ofJson? fun c hc => ih c hc inner]
      simp only [hroom]
      split <;> rfl

end Node

namespace Tree

theorem plain_toJson (t : Tree) : t.toJson.Plain := by
  have hobjects : (Value.array (t.objects.toList.map Node.toJson)).Plain :=
    .array (by simp [Node.plain_toJson])
  have herrors : (Value.array (t.errors.toList.map Diagnostic.toJson)).Plain :=
    .array (by simp [Diagnostic.plain_toJson])
  refine .record ?_
  simp [t.attributes.plain_toJson, hobjects, herrors]

theorem ofJson?_toJson (t : Tree) (room : Nat) :
    ofJson? (room + 1) t.toJson =
      (Attributes.ofJson? room t.attributes.toJson).bind fun a =>
        (Value.asList? Node.ofJson? room (.array (t.objects.toList.map Node.toJson))).bind fun os =>
          (Value.asList? Diagnostic.ofJson? room
            (.array (t.errors.toList.map Diagnostic.toJson))).bind fun es =>
            some ⟨a, .ofList os, .ofList es⟩ := by
  rw [ofJson?, toJson, Fields.ofValue?_record]
  · simp [Fields.defaulted, Fields.get?]
  · rfl
  · decide

/-- A tree is read back from its text exactly when it has at most 62 levels of nodes. -/
theorem parse?_render (t : Tree) :
    parse? t.render = if t.levels ≤ 62 then some t else none := by
  have herrors : (t.errors.toList.map Diagnostic.toJson).mapM (Diagnostic.ofJson? 125) =
      some t.errors.toList := by
    rw [List.mapM_map, Json.mapM_eq_some (g := id) _ fun d _ => d.ofJson?_toJson 123, List.map_id]
  have hlimit : 2 * Node.levelsAll t.objects.toList ≤ 125 ↔ t.levels ≤ 62 := by
    rw [levels]
    omega
  rw [parse?, render, Json.parse?_render t.plain_toJson, Option.bind_some, Value.room,
    ofJson?_toJson, Attributes.ofJson?_toJson, Value.asList?, Value.asList?, herrors,
    Node.mapM_ofJson? fun n _ => n.ofJson?_toJson 125]
  simp only [hlimit]
  split <;> simp

end Tree

end Trainyard
