import Trainyard.FileSystem

/-!
# A file system as a map

What a key leads to is a file with its content and time, or a directory. Seen this
way a file system is a map from keys, and every change to it sets at most one key.
Directories have times too, which change with what is put into them; a mark shows them.
-/

set_option autoImplicit false

namespace Trainyard

inductive Item where
  | file (content : ByteArray) (modified : Nat)
  | directory

-- Not derived: libraries give byte arrays a second instance, and which one is found then depends
-- on what else is in scope.
instance : DecidableEq Item
  | .file b t, .file c u =>
    have : Decidable (b = c) := ByteArray.instDecidableEq b c
    decidable_of_decidable_of_iff (iff_of_eq (Item.file.injEq b t c u).symm)
  | .file .., .directory => isFalse nofun
  | .directory, .file .. => isFalse nofun
  | .directory, .directory => isTrue rfl

inductive Mark where
  | file (content : ByteArray) (modified : Nat)
  | directory (modified : Nat)

namespace Mark

def item : Mark → Item
  | .file b t => .file b t
  | .directory _ => .directory

@[simp] theorem item_file (b : ByteArray) (t : Nat) : (file b t).item = .file b t := rfl

@[simp] theorem item_directory (t : Nat) : (directory t).item = .directory := rfl

def retimed (g : Nat → Nat) : Mark → Mark
  | .file b t => .file b t
  | .directory t => .directory (g t)

@[simp] theorem item_retimed (g : Nat → Nat) (m : Mark) : (m.retimed g).item = m.item := by
  cases m <;> rfl

end Mark

namespace Entry

def item : Entry → Item
  | .file b t => .file b t
  | .directory .. => .directory

def mark : Entry → Mark
  | .file b t => .file b t
  | .directory _ t => .directory t

@[simp] theorem mark_file (b : ByteArray) (t : Nat) : (file b t).mark = .file b t := rfl

@[simp] theorem mark_directory (es : List (String × Entry)) (t : Nat) :
    (directory es t).mark = .directory t := rfl

@[simp] theorem item_mark (e : Entry) : e.mark.item = e.item := by
  cases e <;> rfl

@[simp] theorem item_file (b : ByteArray) (t : Nat) : (file b t).item = .file b t := rfl

@[simp] theorem item_directory (es : List (String × Entry)) (t : Nat) :
    (directory es t).item = .directory := rfl

def item? (k : Key) (e : Entry) : Option Item := (e.get? k).map item

def mark? (k : Key) (e : Entry) : Option Mark := (e.get? k).map mark

theorem item?_eq_map_mark? (k : Key) (e : Entry) : item? k e = (mark? k e).map Mark.item := by
  rw [item?, mark?, Option.map_map]
  congr 1
  funext c
  exact (item_mark c).symm

theorem mark?_nil (e : Entry) : mark? [] e = some e.mark := rfl

theorem mark?_cons (n : String) (k : Key) (e : Entry) :
    mark? (n :: k) e = (e.child? n).bind (mark? k) := by
  rw [mark?, get?]
  cases e.child? n <;> rfl

theorem item_eq_directory {e : Entry} : e.item = .directory ↔ e.isDirectory = true := by
  cases e <;> simp [isDirectory]

theorem item?_nil (e : Entry) : item? [] e = some e.item := rfl

theorem item?_cons (n : String) (k : Key) (e : Entry) :
    item? (n :: k) e = (e.child? n).bind (item? k) := by
  rw [item?, get?]
  cases e.child? n <;> rfl

def Bare (e : Entry) : Prop := ∀ n, e.child? n = none

theorem bare_file (b : ByteArray) (t : Nat) : (file b t).Bare := fun _ => rfl

theorem bare_empty (t : Nat) : (directory [] t).Bare := fun _ => rfl

theorem mark?_of_bare {e : Entry} (h : e.Bare) (n : String) (k : Key) :
    mark? (n :: k) e = none := by
  rw [mark?_cons, h n]
  rfl

mutual

def isBefore (time : Nat) : Entry → Bool
  | .file _ t => t < time
  | .directory es t => t < time && areBefore time es

def areBefore (time : Nat) : List (String × Entry) → Bool
  | [] => true
  | (_, e) :: es => e.isBefore time && areBefore time es

end

theorem isBefore_of_lookup {time : Nat} {es : List (String × Entry)} {n : String} {e : Entry}
    (h : areBefore time es = true) (hn : es.lookup n = some e) : e.isBefore time = true := by
  induction es with
  | nil => simp at hn
  | cons x es ih =>
    obtain ⟨m, c⟩ := x
    rw [areBefore, Bool.and_eq_true] at h
    rw [List.lookup_cons] at hn
    split at hn
    · cases hn
      exact h.1
    · exact ih h.2 hn

theorem modified_lt_of_get? {time : Nat} {k : Key} {e e' : Entry} (h : e.isBefore time = true)
    (hk : e.get? k = some e') : e'.modified < time := by
  induction k generalizing e with
  | nil =>
    cases hk
    cases e' <;> simp_all [isBefore, modified]
  | cons n k ih =>
    rw [get?] at hk
    split at hk
    next c hc =>
      cases e with
      | file b t => simp [child?] at hc
      | directory es t =>
        rw [isBefore, Bool.and_eq_true] at h
        exact ih (isBefore_of_lookup h.2 hc) hk
    next => simp at hk

def Plants (f : Entry → Entry) (name : String) (x : Entry) (g : Nat → Nat) : Prop :=
  ∀ es t, (f (directory es t)).mark = .directory (g t) ∧
    ∀ n, (f (directory es t)).child? n = if n = name then some x else (directory es t).child? n

theorem plants_put (name : String) (x : Entry) : Plants (·.put name x) name x id :=
  fun es t => ⟨rfl, fun n => child?_put name n x es t⟩

theorem plants_add (name : String) (x : Entry) (now : Nat) :
    Plants (fun d => (d.put name x).withModified now) name x (fun _ => now) :=
  fun es t => ⟨rfl, fun n => child?_put name n x es t⟩

theorem exists_child_of_item? {m : String} {k : Key} {e : Entry} {i : Item}
    (h : item? (m :: k) e = some i) :
    ∃ es t c, e = directory es t ∧ e.child? m = some c ∧ item? k c = some i := by
  rw [item?_cons] at h
  obtain ⟨c, hc, hi⟩ := Option.bind_eq_some_iff.1 h
  cases e with
  | file b t => simp [child?] at hc
  | directory es t => exact ⟨es, t, c, rfl, hc, hi⟩

/-- A planted entry shows at its key, and the directory it is put into may get another time. -/
theorem mark?_alter {f : Entry → Entry} {name : String} {x : Entry} {g : Nat → Nat}
    (hf : Plants f name x g) (hx : x.Bare) (parent k : Key) (e : Entry)
    (hdir : item? parent e = some .directory)
    (hold : ∀ o, e.get? (parent ++ [name]) = some o → o.Bare) :
    mark? k (alter f parent e) = if k = parent ++ [name] then some x.mark
      else if k = parent then (mark? k e).map (Mark.retimed g) else mark? k e := by
  induction parent generalizing k e with
  | nil =>
    cases e with
    | file b t => simp [item?_nil] at hdir
    | directory es t =>
      obtain ⟨hkind, hchild⟩ := hf es t
      rw [alter, List.nil_append]
      cases k with
      | nil => simp [mark?_nil, hkind, Mark.retimed]
      | cons n k =>
        rw [mark?_cons, hchild, mark?_cons]
        by_cases hn : n = name
        · subst hn
          cases k with
          | nil => simp [mark?_nil]
          | cons m k =>
            have hbelow : ((directory es t).child? n).bind (mark? (m :: k)) = none := by
              cases hc : (directory es t).child? n with
              | none => rfl
              | some o => exact mark?_of_bare (hold o (by simp [get?, hc])) m k
            simp [mark?_of_bare hx, hbelow]
        · simp [hn]
  | cons m parent ih =>
    obtain ⟨es, t, c, rfl, hc, hdir⟩ := exists_child_of_item? hdir
    have hbelow (k : Key) := ih k c hdir fun o ho => hold o (by simp [get?, hc, ho])
    simp only [alter, hc]
    cases k with
    | nil => simp [mark?_nil, put]
    | cons n k =>
      rw [mark?_cons, child?_put, mark?_cons]
      by_cases hn : n = m
      · subst hn
        simp [hc, hbelow]
      · simp [hn]

theorem mark?_alter_disturbed (now : Nat) (k' k : Key) (e : Entry) :
    mark? k (alter (·.disturbed now) k' e) =
      if k = k' then (mark? k e).map (Mark.retimed fun _ => now) else mark? k e := by
  induction k' generalizing k e with
  | nil =>
    cases e with
    | file b t => cases k <;> rfl
    | directory es t => cases k <;> rfl
  | cons m k' ih =>
    rw [alter]
    cases e with
    | file b t => cases k <;> simp [mark?_nil, mark?_cons, child?]
    | directory es t =>
      cases hc : (directory es t).child? m with
      | none =>
        cases k with
        | nil => rfl
        | cons n k =>
          by_cases hn : n = m
          · subst hn
            simp [mark?_cons, hc]
          · simp [hn]
      | some c =>
        cases k with
        | nil => rfl
        | cons n k =>
          simp only [mark?_cons, child?_put]
          by_cases hn : n = m
          · subst hn
            simp [hc, ih]
          · simp [hn]

end Entry

namespace FileSystem

def item? (fs : FileSystem) (k : Key) : Option Item := fs.root.item? k

theorem item?_eq_map (fs : FileSystem) (k : Key) : fs.item? k = (fs.get? k).map Entry.item := rfl

def mark? (fs : FileSystem) (k : Key) : Option Mark := fs.root.mark? k

theorem mark?_eq_map (fs : FileSystem) (k : Key) : fs.mark? k = (fs.get? k).map Entry.mark := rfl

theorem item?_eq_map_mark? (fs : FileSystem) (k : Key) :
    fs.item? k = (fs.mark? k).map Mark.item := Entry.item?_eq_map_mark? k fs.root

theorem item?_congr {fs fs' : FileSystem} {k : Key} (h : fs'.mark? k = fs.mark? k) :
    fs'.item? k = fs.item? k := by
  rw [item?_eq_map_mark?, item?_eq_map_mark?, h]

theorem item?_of_mark? {fs : FileSystem} {k : Key} {m : Mark} (h : fs.mark? k = some m) :
    fs.item? k = some m.item := by
  rw [item?_eq_map_mark?, h, Option.map_some]

theorem item?_eq_none {fs : FileSystem} {k : Key} : fs.item? k = none ↔ fs.mark? k = none := by
  rw [item?_eq_map_mark?, Option.map_eq_none_iff]

theorem item?_eq_directory {fs : FileSystem} {k : Key} :
    fs.item? k = some .directory ↔ ∃ t, fs.mark? k = some (.directory t) := by
  rw [item?_eq_map_mark?]
  cases fs.mark? k with
  | none => simp
  | some m => cases m <;> simp

theorem item?_eq_file {fs : FileSystem} {k : Key} {b : ByteArray} {t : Nat} :
    fs.item? k = some (.file b t) ↔ fs.get? k = some (.file b t) := by
  rw [item?_eq_map]
  cases fs.get? k with
  | none => simp
  | some e => cases e <;> simp

end FileSystem

/-! ## Where paths lead -/

namespace Path

def climb (names : List String) (c : String) : List String :=
  if c = "." then names else if c = ".." then names.tail else c :: names

def trail (working : Key) (p : Path) : List String :=
  p.components.foldl climb (if p.isAbsolute then [] else working.reverse)

def key (working : Key) (p : Path) : Key := (p.trail working).reverse

end Path

namespace FileSystem

namespace Spot

structure Sits (root : Entry) (s : Spot) : Prop where
  here : root.get? s.key = some s.here
  directory : s.here.isDirectory = true

theorem get?_key_append {root : Entry} {s : Spot} (h : s.Sits root) (name : String) :
    root.get? (s.key ++ [name]) = s.here.child? name := by
  rw [Entry.get?_append, h.here, Option.bind_some, Entry.get?]
  cases s.here.child? name <;> rfl

theorem Sits.up {root : Entry} {s : Spot} (h : s.Sits root) : (s.up root).Sits root := by
  obtain ⟨names, here⟩ := s
  cases names with
  | nil =>
    have hroot : root = here := Option.some.inj h.here
    exact ⟨rfl, hroot ▸ h.directory⟩
  | cons n names =>
    have hkey : root.get? (names.reverse ++ [n]) = some here := by simpa [key] using h.here
    rw [Entry.get?_append] at hkey
    obtain ⟨parent, hparent, hchild⟩ := Option.bind_eq_some_iff.1 hkey
    refine ⟨by simp [Spot.up, key, hparent], ?_⟩
    cases parent with
    | file b t => simp [Entry.get?, Entry.child?] at hchild
    | directory es t => simp [Spot.up, hparent, Entry.isDirectory]

theorem Sits.enter {root : Entry} {s : Spot} (h : s.Sits root) {name : String}
    {es : List (String × Entry)} {t : Nat} (hc : s.here.child? name = some (.directory es t)) :
    Sits root ⟨name :: s.names, .directory es t⟩ := by
  refine ⟨?_, rfl⟩
  rw [key, List.reverse_cons, ← hc]
  exact get?_key_append h name

end Spot

theorem walk_ok {root : Entry} {s s' : Spot} {cs : List String} (h : walk root s cs = .ok s')
    (hs : s.Sits root) : s'.Sits root ∧ s'.names = cs.foldl Path.climb s.names := by
  induction cs generalizing s with
  | nil => cases h; exact ⟨hs, rfl⟩
  | cons c cs ih =>
    rw [walk] at h
    rw [List.foldl_cons, Path.climb]
    split at h
    next hdot => rw [if_pos hdot]; exact ih h hs
    next hdot =>
      rw [if_neg hdot]
      split at h
      next hup => rw [if_pos hup]; exact ih h hs.up
      next hup =>
        rw [if_neg hup]
        split at h
        next => simp at h
        next => simp at h
        next => simp at h
        next d hfile hlook =>
          rw [Spot.look] at hlook
          split at hlook
          next => simp at hlook
          next =>
            have hchild : s.here.child? c = some d := Except.ok.inj hlook
            cases d with
            | file b t => exact absurd rfl (hfile b t)
            | directory es t => exact ih h (hs.enter hchild)

namespace Target

def names : Target → List String
  | .spot s => s.names
  | .child s name _ => name :: s.names

def Sits (root : Entry) : Target → Prop
  | .spot s => s.Sits root
  | .child s _ _ => s.Sits root

end Target

theorem follow_ok {fs : FileSystem} {s : Spot} {slash : Bool} {names : List String}
    {target : Target} (h : fs.follow s slash names = .ok target) (hs : s.Sits fs.root) :
    target.Sits fs.root ∧ target.names = names.reverse.foldl Path.climb s.names := by
  cases names with
  | nil => cases h; exact ⟨hs, rfl⟩
  | cons name before =>
    rw [follow] at h
    rw [List.reverse_cons, List.foldl_append, List.foldl_cons, List.foldl_nil, Path.climb]
    split at h
    next => simp at h
    next s' hwalk =>
      obtain ⟨hs', hnames⟩ := walk_ok hwalk hs
      rw [← hnames]
      split at h
      next hdot => cases h; rw [if_pos hdot]; exact ⟨hs', rfl⟩
      next hdot =>
        rw [if_neg hdot]
        split at h
        next hup => cases h; rw [if_pos hup]; exact ⟨hs'.up, rfl⟩
        next hup => cases h; rw [if_neg hup]; exact ⟨hs', rfl⟩

theorem start_ok {fs : FileSystem} {p : Path} {s : Spot} (h : fs.start p = .ok s) :
    s.Sits fs.root ∧ s.names = if p.isAbsolute then [] else fs.working.reverse := by
  simp only [start] at h
  split at h
  next es t hget =>
    cases h
    refine ⟨⟨by rw [Spot.key, List.reverse_reverse]; exact hget, rfl⟩, ?_⟩
    cases p.isAbsolute <;> rfl
  next => simp at h

theorem bind_eq_ok {ε α β : Type} {x : Except ε α} {f : α → Except ε β} {b : β} :
    x >>= f = .ok b ↔ ∃ a, x = .ok a ∧ f a = .ok b := by
  cases x <;> simp [bind, Except.bind]

/-- A path that is resolved leads to its key. -/
theorem locate_ok {fs : FileSystem} {p : Path} {target : Target} (h : fs.locate p = .ok target) :
    target.Sits fs.root ∧ target.names = p.trail fs.working := by
  rw [locate] at h
  split at h
  next => simp at h
  next =>
    split at h
    next => simp at h
    next =>
      obtain ⟨s, hstart, hfollow⟩ := bind_eq_ok.1 h
      obtain ⟨hs, hnames⟩ := start_ok hstart
      obtain ⟨hsits, htrail⟩ := follow_ok hfollow hs
      exact ⟨hsits, by rw [htrail, hnames, List.reverse_reverse]; rfl⟩

end FileSystem

end Trainyard
