import Mathlib
import Trainyard.Proofs.Binary.Size
import Trainyard.Proofs.Tree.Binary

/-!
# The bytes of a tree bound the tree

A tree holds nodes, attributes, diagnostics and texts. Each of them takes a byte at least where the
tree is written, and a text takes all of its bytes. The reader finds trees in many more byte strings
than the writer makes: numbers may stand in longer forms, and the attributes may come unordered and
with keys repeated. Yet whatever the bytes declare, the tree that is found in them takes no more
bytes when it is written again, so they are never outgrown by it.
-/

set_option autoImplicit false

namespace Trainyard

open Binary (Writer Reader Steady Covers cost)

/-! ## What a tree holds -/

def Text.byteSize (texts : List String) : Nat := (texts.map String.utf8ByteSize).sum

def Attributes.textsOf (entries : List (String × String)) : List String :=
  entries.flatMap fun e => [e.1, e.2]

def Diagnostic.texts (d : Diagnostic) : List String := d.message :: d.step.toList

namespace Node

mutual

def nodes : Node → List Node
  | .mk kind attributes children => .mk kind attributes children :: nodesAll children

def nodesAll : List Node → List Node
  | [] => []
  | n :: ns => n.nodes ++ nodesAll ns

end

end Node

namespace Tree

def nodes (t : Tree) : List Node := Node.nodesAll t.objects.toList

def entries (t : Tree) : List (String × String) :=
  t.attributes.entries ++ t.nodes.flatMap (·.attributes.entries)

def texts (t : Tree) : List String :=
  t.nodes.map (·.kind) ++ Attributes.textsOf t.entries ++ t.errors.toList.flatMap Diagnostic.texts

end Tree

theorem Attributes.textsOf_append (entries entries' : List (String × String)) :
    textsOf (entries ++ entries') = textsOf entries ++ textsOf entries' :=
  List.flatMap_append

/-! ## What the parts take -/

namespace Text

theorem byteSize_append (ss ss' : List String) :
    byteSize (ss ++ ss') = byteSize ss + byteSize ss' := by
  simp [byteSize]

theorem byteSize_cons (s : String) (ss : List String) :
    byteSize (s :: ss) = s.utf8ByteSize + byteSize ss := by
  simp [byteSize]

theorem byteSize_nil : byteSize [] = 0 := rfl

end Text

open Text (byteSize byteSize_append byteSize_cons byteSize_nil)

theorem Bytes.length_ofText (s : String) : (Bytes.ofText s).length = s.utf8ByteSize := by
  simp [Bytes.ofText, Bytes.unpack]

theorem Binary.utf8ByteSize_lt_cost_text (s : String) : s.utf8ByteSize < cost text s := by
  have hcount := cost_nat_pos s.utf8ByteSize
  rw [cost_text, Bytes.length_ofText]
  omega

theorem Binary.length_add_byteSize_le {α : Type} {write : Writer α} {texts : α → List String}
    (h : ∀ x, byteSize (texts x) < cost write x) (xs : List α) :
    xs.length + byteSize (xs.flatMap texts) ≤ (xs.map (cost write)).sum := by
  induction xs with
  | nil => simp [byteSize_nil]
  | cons x xs ih =>
    have hx := h x
    rw [List.length_cons, List.flatMap_cons, byteSize_append, List.map_cons, List.sum_cons]
    omega

/-! ## Attributes -/

theorem Ordered.insert_subperm {α : Type} (name : String) (value : α) (r : List (String × α)) :
    (Ordered.insert name value r).Subperm ((name, value) :: r) := by
  induction r with
  | nil => exact List.Subperm.refl _
  | cons e r ih =>
    rw [Ordered.insert]
    split
    · exact ((List.subperm_cons e).2 ih).trans (List.Perm.swap _ _ r).subperm
    · split
      · exact List.Subperm.refl _
      · exact (List.subperm_cons _).2 List.subperm_cons_self

namespace Attributes

/-- Setting keys brings in no entry that was not given, and none more often than it was. -/
theorem entries_foldl_subperm (pairs : List (String × String)) (a : Attributes) :
    (pairs.foldl (fun a p => a.insert p.1 p.2) a).entries.Subperm (a.entries ++ pairs) := by
  induction pairs generalizing a with
  | nil => rw [List.append_nil, List.foldl_nil]
  | cons p pairs ih =>
    have hinsert := Ordered.insert_subperm p.1 p.2 a.entries
    have hall : (a.entries ++ p :: pairs).Perm (p :: a.entries ++ pairs) := List.perm_middle
    rw [List.foldl_cons]
    exact ((ih (a.insert p.1 p.2)).trans (hinsert.append (List.Subperm.refl pairs))).trans
      hall.symm.subperm

theorem entries_ofList_subperm (pairs : List (String × String)) :
    (ofList pairs).entries.Subperm pairs :=
  entries_foldl_subperm pairs empty

def writeEntry : Writer (String × String) := fun e rest => Binary.text e.1 (Binary.text e.2 rest)

def readEntry : Reader (String × String) := fun b => do
  let (k, b) ← Binary.readText b
  let (v, b) ← Binary.readText b
  some ((k, v), b)

theorem steady_writeEntry : Steady writeEntry := by
  intro e rest
  rw [cost, writeEntry, writeEntry, Binary.steady_text, Binary.steady_text, Binary.steady_text,
    Binary.steady_text, List.length_nil]
  omega

theorem cost_writeEntry (e : String × String) :
    cost writeEntry e = cost Binary.text e.1 + cost Binary.text e.2 :=
  Binary.steady_text e.1 _

theorem steady_writeBinary : Steady writeBinary :=
  fun a => Binary.steady_list steady_writeEntry a.entries

theorem cost_writeBinary (a : Attributes) :
    cost writeBinary a = cost (Binary.list writeEntry) a.entries := rfl

theorem covers_readEntry :
    Covers readEntry writeEntry fun e => Binary.Fits e.1 ∧ Binary.Fits e.2 := by
  intro b e rest h
  obtain ⟨⟨k, b₁⟩, hk, h⟩ := Option.bind_eq_some_iff.1 h
  obtain ⟨⟨v, b₂⟩, hv, h⟩ := Option.bind_eq_some_iff.1 h
  cases h
  obtain ⟨hkey, hkeyCost⟩ := Binary.covers_readText _ _ _ hk
  obtain ⟨hvalue, hvalueCost⟩ := Binary.covers_readText _ _ _ hv
  refine ⟨⟨hkey, hvalue⟩, ?_⟩
  rw [cost_writeEntry]
  dsimp only
  omega

/-- All pairs are paid for, also those whose text does not stay. -/
theorem covers_readBinary : Covers readBinary writeBinary Fits := by
  intro b a rest h
  obtain ⟨⟨pairs, b₁⟩, hpairs, h⟩ := Option.bind_eq_some_iff.1 h
  cases h
  obtain ⟨⟨hcount, hfits⟩, hcost⟩ :=
    Binary.covers_readList covers_readEntry steady_writeEntry _ _ _ hpairs
  have hsome := entries_ofList_subperm pairs
  have hless := Binary.cost_list_le_of_subperm steady_writeEntry hsome
  refine ⟨⟨Nat.lt_of_le_of_lt hsome.length_le hcount, fun e he => hfits e (hsome.subset he)⟩, ?_⟩
  rw [cost_writeBinary]
  omega

theorem length_add_byteSize_lt (a : Attributes) :
    a.entries.length + byteSize (textsOf a.entries) < cost writeBinary a := by
  have hentry (e : String × String) : byteSize [e.1, e.2] < cost writeEntry e := by
    have hkey := Binary.utf8ByteSize_lt_cost_text e.1
    have hvalue := Binary.utf8ByteSize_lt_cost_text e.2
    rw [cost_writeEntry, byteSize_cons, byteSize_cons, byteSize_nil]
    omega
  have hentries := Binary.length_add_byteSize_le hentry a.entries
  have hcount := Binary.cost_nat_pos a.entries.length
  rw [cost_writeBinary, Binary.cost_list steady_writeEntry, textsOf]
  omega

end Attributes

/-! ## Diagnostics -/

theorem Severity.rank_of_ofRank? {n : Nat} {s : Severity} (h : ofRank? n = some s) :
    s.rank = n := by
  simpa using List.find?_some h

namespace Diagnostic

theorem cost_writeLocation (l : Location) :
    cost writeLocation l = cost Binary.nat l.line.toNat + cost Binary.nat l.column.toNat :=
  Binary.steady_nat _ _

theorem steady_writeLocation : Steady writeLocation := by
  intro l rest
  rw [cost_writeLocation, writeLocation, Binary.steady_nat, Binary.steady_nat, Nat.add_assoc]

theorem covers_readLocation : Covers readLocation writeLocation fun _ => True := by
  intro b l rest h
  obtain ⟨⟨line, b₁⟩, hline, h⟩ := Option.bind_eq_some_iff.1 h
  obtain ⟨⟨column, b₂⟩, hcolumn, h⟩ := Option.bind_eq_some_iff.1 h
  cases h
  obtain ⟨hlineLt, hlineCost⟩ := Binary.covers_readNat false _ _ _ hline
  obtain ⟨hcolumnLt, hcolumnCost⟩ := Binary.covers_readNat false _ _ _ hcolumn
  refine ⟨trivial, ?_⟩
  rw [cost_writeLocation]
  dsimp only
  rw [UInt32.toNat_ofNat_of_lt' hlineLt, UInt32.toNat_ofNat_of_lt' hcolumnLt]
  omega

theorem cost_writeBinary (d : Diagnostic) : cost writeBinary d =
    cost Binary.nat d.severity.rank + cost Binary.text d.message +
      cost (Binary.option writeLocation) d.location + cost (Binary.option Binary.text) d.step := by
  rw [cost, writeBinary, Binary.steady_nat, Binary.steady_text,
    Binary.steady_option steady_writeLocation]
  exact (Nat.add_assoc _ _ _).symm.trans (Nat.add_assoc _ _ _).symm

theorem steady_writeBinary : Steady writeBinary := by
  intro d rest
  rw [cost_writeBinary, writeBinary, Binary.steady_nat, Binary.steady_text,
    Binary.steady_option steady_writeLocation, Binary.steady_option Binary.steady_text]
  omega

theorem covers_readBinary : Covers readBinary writeBinary Fits := by
  intro b d rest h
  obtain ⟨⟨rank, b₁⟩, hrank, h⟩ := Option.bind_eq_some_iff.1 h
  obtain ⟨severity, hseverity, h⟩ := Option.bind_eq_some_iff.1 h
  obtain ⟨⟨message, b₂⟩, hmessage, h⟩ := Option.bind_eq_some_iff.1 h
  obtain ⟨⟨location, b₃⟩, hlocation, h⟩ := Option.bind_eq_some_iff.1 h
  obtain ⟨⟨step, b₄⟩, hstep, h⟩ := Option.bind_eq_some_iff.1 h
  cases h
  obtain ⟨-, hrankCost⟩ := Binary.covers_readNat false _ _ _ hrank
  obtain ⟨hfits, hmessageCost⟩ := Binary.covers_readText _ _ _ hmessage
  obtain ⟨-, hlocationCost⟩ := Binary.covers_readOption covers_readLocation _ _ _ hlocation
  obtain ⟨hfits', hstepCost⟩ := Binary.covers_readOption Binary.covers_readText _ _ _ hstep
  refine ⟨⟨hfits, hfits'⟩, ?_⟩
  rw [cost_writeBinary, Severity.rank_of_ofRank? hseverity]
  dsimp only
  omega

theorem byteSize_texts_lt (d : Diagnostic) : byteSize d.texts < cost writeBinary d := by
  have hmessage := Binary.utf8ByteSize_lt_cost_text d.message
  have hstep : byteSize d.step.toList ≤ cost (Binary.option Binary.text) d.step := by
    cases d.step with
    | none => exact Nat.zero_le _
    | some s =>
      have hs := Binary.utf8ByteSize_lt_cost_text s
      have hmark : cost (Binary.option Binary.text) (some s) = cost Binary.text s + 1 := rfl
      rw [Option.toList_some, byteSize_cons, byteSize_nil, hmark]
      omega
  rw [cost_writeBinary, texts, byteSize_cons]
  omega

end Diagnostic

/-! ## Nodes -/

namespace Node

theorem writeBinary_eq (kind : String) (attributes : Attributes) (children : List Node)
    (rest : Bytes) : writeBinary (.mk kind attributes children) rest =
      Binary.text kind (attributes.writeBinary (Binary.list writeBinary children rest)) := by
  rw [writeBinary, writeAll_eq_foldr, Binary.list]

theorem steady_writeBinary : Steady writeBinary := by
  intro n
  induction n using induct with
  | mk kind attributes children ih =>
    intro rest
    rw [cost, writeBinary_eq, writeBinary_eq, Binary.steady_text, Binary.steady_text,
      Attributes.steady_writeBinary, Attributes.steady_writeBinary,
      Binary.length_list children rest ih, Binary.length_list children [] ih, List.length_nil]
    omega

theorem cost_writeBinary (kind : String) (attributes : Attributes) (children : List Node) :
    cost writeBinary (.mk kind attributes children) =
      cost Binary.text kind + cost Attributes.writeBinary attributes +
        cost (Binary.list writeBinary) children := by
  rw [cost, writeBinary_eq, Binary.steady_text, Attributes.steady_writeBinary, Nat.add_assoc]
  rfl

theorem covers_readWithin (depth : Nat) : Covers (readWithin depth) writeBinary Fits := by
  induction depth with
  | zero =>
    intro b n rest h
    cases h
  | succ depth ih =>
    intro b n rest h
    obtain ⟨⟨kind, b₁⟩, hkind, h⟩ := Option.bind_eq_some_iff.1 h
    obtain ⟨⟨attributes, b₂⟩, hattributes, h⟩ := Option.bind_eq_some_iff.1 h
    obtain ⟨⟨children, b₃⟩, hchildren, h⟩ := Option.bind_eq_some_iff.1 h
    cases h
    obtain ⟨hkindFits, hkindCost⟩ := Binary.covers_readText _ _ _ hkind
    obtain ⟨hattributesFits, hattributesCost⟩ := Attributes.covers_readBinary _ _ _ hattributes
    obtain ⟨⟨hcount, hfits⟩, hchildrenCost⟩ :=
      Binary.covers_readList ih steady_writeBinary _ _ _ hchildren
    refine ⟨.mk hkindFits hattributesFits hcount hfits, ?_⟩
    rw [cost_writeBinary]
    omega

def weight (n : Node) : Nat :=
  1 + n.attributes.entries.length + n.kind.utf8ByteSize +
    byteSize (Attributes.textsOf n.attributes.entries)

theorem sum_weight (ns : List Node) : (ns.map weight).sum =
    ns.length + (ns.flatMap (·.attributes.entries)).length + byteSize (ns.map (·.kind)) +
      byteSize (Attributes.textsOf (ns.flatMap (·.attributes.entries))) := by
  induction ns with
  | nil => rfl
  | cons n ns ih =>
    rw [List.map_cons, List.sum_cons, ih, weight, List.length_cons, List.flatMap_cons,
      List.length_append, List.map_cons, byteSize_cons, Attributes.textsOf_append, byteSize_append]
    omega

theorem sum_weight_nodesAll_le {ns : List Node}
    (h : ∀ n ∈ ns, (n.nodes.map weight).sum ≤ cost writeBinary n) :
    ((nodesAll ns).map weight).sum ≤ (ns.map (cost writeBinary)).sum := by
  induction ns with
  | nil => exact Nat.le_refl _
  | cons n ns ih =>
    rw [List.forall_mem_cons] at h
    have hn := h.1
    have hns := ih h.2
    rw [nodesAll, List.map_append, List.sum_append, List.map_cons, List.sum_cons]
    omega

theorem sum_weight_nodes_le (n : Node) : (n.nodes.map weight).sum ≤ cost writeBinary n := by
  induction n using induct with
  | mk kind attributes children ih =>
    have hinside := sum_weight_nodesAll_le ih
    have hkind := Binary.utf8ByteSize_lt_cost_text kind
    have hattributes := attributes.length_add_byteSize_lt
    have hown : weight (.mk kind attributes children) = 1 + attributes.entries.length +
      kind.utf8ByteSize + byteSize (Attributes.textsOf attributes.entries) := rfl
    rw [nodes, List.map_cons, List.sum_cons, hown, cost_writeBinary,
      Binary.cost_list steady_writeBinary]
    omega

end Node

/-! ## Trees -/

namespace Tree

theorem cost_writeBinary (t : Tree) : cost writeBinary t =
    cost Attributes.writeBinary t.attributes +
      cost (Binary.list Node.writeBinary) t.objects.toList +
        cost (Binary.list Diagnostic.writeBinary) t.errors.toList := by
  rw [cost, writeBinary, Attributes.steady_writeBinary, Binary.steady_list Node.steady_writeBinary,
    Nat.add_assoc]
  rfl

theorem covers_readWithin (depth : Nat) : Covers (readWithin depth) writeBinary Fits := by
  intro b t rest h
  obtain ⟨⟨attributes, b₁⟩, hattributes, h⟩ := Option.bind_eq_some_iff.1 h
  obtain ⟨⟨objects, b₂⟩, hobjects, h⟩ := Option.bind_eq_some_iff.1 h
  obtain ⟨⟨errors, b₃⟩, herrors, h⟩ := Option.bind_eq_some_iff.1 h
  cases h
  obtain ⟨hattributesFits, hattributesCost⟩ := Attributes.covers_readBinary _ _ _ hattributes
  obtain ⟨⟨hobjectCount, hobjectsFit⟩, hobjectsCost⟩ :=
    Binary.covers_readList (Node.covers_readWithin depth) Node.steady_writeBinary _ _ _ hobjects
  obtain ⟨⟨herrorCount, herrorsFit⟩, herrorsCost⟩ :=
    Binary.covers_readList Diagnostic.covers_readBinary Diagnostic.steady_writeBinary _ _ _ herrors
  rw [cost_writeBinary]
  refine ⟨⟨hattributesFits, ?_, ?_, ?_, ?_⟩, ?_⟩
  all_goals simp only [Series.toList_ofList]
  · exact hobjectCount
  · exact hobjectsFit
  · exact herrorCount
  · exact herrorsFit
  · omega

/-- What a tree holds takes the bytes of the tree at least. -/
theorem parts_le_length_toBinary (t : Tree) :
    t.nodes.length + t.entries.length + t.errors.toList.length + byteSize t.texts ≤
      t.toBinary.length := by
  have hattributes := t.attributes.length_add_byteSize_lt
  have hnodes : (t.nodes.map Node.weight).sum ≤
      (t.objects.toList.map (cost Node.writeBinary)).sum :=
    Node.sum_weight_nodesAll_le fun n _ => n.sum_weight_nodes_le
  have herrors := Binary.length_add_byteSize_le Diagnostic.byteSize_texts_lt t.errors.toList
  have hbytes : t.toBinary.length = cost writeBinary t := rfl
  rw [Node.sum_weight] at hnodes
  rw [hbytes, cost_writeBinary, Binary.cost_list Node.steady_writeBinary,
    Binary.cost_list Diagnostic.steady_writeBinary, texts, byteSize_append, byteSize_append,
    entries, Attributes.textsOf_append, byteSize_append, List.length_append]
  omega

theorem readBinary_of_ofBinary {b : Bytes} {t : Tree} (h : ofBinary b = .ok t) :
    readBinary b = some (t, []) := by
  rw [ofBinary] at h
  split at h
  next => cases h
  next hread =>
    cases h
    exact hread
  next => cases h

/-- Decoding never inflates. The bytes in which a tree is found are no fewer than those in which it
is written, from which it is found again, and no fewer than its nodes, attributes, diagnostics and
the bytes of its texts taken together. -/
theorem ofBinary_never_inflates {b : Bytes} {t : Tree} (h : ofBinary b = .ok t) :
    (ofBinary t.toBinary = .ok t ∧ t.toBinary.length ≤ b.length) ∧
    t.nodes.length + t.entries.length + t.errors.toList.length + byteSize t.texts ≤ b.length := by
  obtain ⟨hfits, hcost⟩ := covers_readWithin b.length b t [] (readBinary_of_ofBinary h)
  have hbytes : t.toBinary.length ≤ b.length := hcost
  exact ⟨⟨t.ofBinary_toBinary hfits, hbytes⟩, Nat.le_trans t.parts_le_length_toBinary hbytes⟩

/-- Counts and lengths in longer forms, and a node with keys out of order and one of them twice. -/
theorem ofBinary_never_inflates_loose :
    let b : Bytes := [251, 1, 0, 4, 110, 97, 109, 101, 252, 1, 0, 0, 0, 120,
      253, 1, 0, 0, 0, 0, 0, 0, 0, 1, 111, 3, 1, 98, 0, 1, 97, 0, 1, 98, 251, 1, 0, 99, 1, 0, 0, 0,
      1, 251, 2, 0, 0, 1, 252, 4, 0, 0, 0, 251, 7, 0, 0]
    let t : Tree := ⟨.ofList [("name", "x")],
      .ofList [.mk "o" (.ofList [("a", ""), ("b", "c")]) [.mk "" .empty []]],
      .ofList [⟨.critical, "", some ⟨4, 7⟩, none⟩]⟩
    (ofBinary b = .ok t ∧ b.length = 57 ∧ t.toBinary.length = 30) ∧
    (ofBinary t.toBinary = .ok t ∧ t.toBinary.length ≤ b.length) ∧
      t.nodes.length + t.entries.length + t.errors.toList.length + byteSize t.texts ≤ b.length := by
  intro b t
  have h : ofBinary b = .ok t := by decide +kernel
  exact ⟨⟨h, rfl, by decide⟩, ofBinary_never_inflates h⟩

end Tree

end Trainyard
