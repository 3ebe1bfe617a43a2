import Trainyard.Proofs.Memo.Session
import Trainyard.Proofs.Train.Course

/-!
# A place is transformed once

Trees are brought one after the other to a memo that counts its lookups, and the
transformation counts its runs. It is run for a tree exactly when no tree of the same
place was transformed with success before, whatever the gates said then: an entry stands
for a success and a success leaves an entry. Every run is a miss, and every tree with a
place is a hit or a miss.
-/

set_option autoImplicit false

namespace Trainyard

namespace Optimization

def counting (o : Optimization) : Optimization where
  transform t := do
    Job.countApplication
    o.transform t
  validate := o.validate

structure Pure (o : Optimization) (f : Tree → Except WorkError Tree) (cost : Tree → Nat) :
    Prop where
  computes : o.Computes f
  tally : ∀ t s, ((o.transform t).on s).2.tally =
    { s.tally with applications := s.tally.applications + cost t }
  validates : ∀ t s, ((o.validate t).on s).2.files = s.files ∧
    ((o.validate t).on s).2.tally = s.tally

variable {o : Optimization} {f : Tree → Except WorkError Tree} {cost : Tree → Nat}

theorem Pure.computes_counting (h : o.Pure f cost) : o.counting.Computes f :=
  fun t s => h.computes t
    { s with tally := { s.tally with applications := s.tally.applications + 1 } }

theorem Pure.tally_counting (h : o.Pure f cost) (t : Tree) (s : Site) :
    ((o.counting.transform t).on s).2.tally =
      { s.tally with applications := s.tally.applications + 1 + cost t } :=
  h.tally t { s with tally := { s.tally with applications := s.tally.applications + 1 } }

end Optimization

namespace Train

theorem pure_of_plain {tr : Train} (h : tr.snapshots = none) :
    tr.optimization.Pure (fun t => (tr.content t).mapError .structural)
      fun t => (reached tr.contentStations t).countP Station.isContent where
  computes := computes_of_plain h
  tally t s := by
    have hran := ran_run 1 tr.contentStations t s
    rw [← h] at hran
    exact hran.tally
  validates t s := by
    have hran := ran_run (tr.steps.length + 1) tr.gateStations t s
    rw [← h] at hran
    have hgates : (reached tr.gateStations t).countP Station.isContent = 0 := by
      refine List.countP_eq_zero.2 fun station hstation => ?_
      obtain ⟨g, -, rfl⟩ := List.mem_map.1 (mem_of_mem_reached hstation)
      exact Bool.false_ne_true
    have htally := hran.tally
    rw [hgates] at htally
    exact ⟨hran.files, htally⟩

end Train

namespace Memo

/-! ## One call -/

section Fate

variable {m : Memo} {o : Optimization} {f : Tree → Except WorkError Tree} {cost : Tree → Nat}
  {t : Tree} {s : Site}

/-- What can become of a tree that is brought to a memo which counts lookups and runs. -/
inductive Fate (m : Memo) (f : Tree → Except WorkError Tree) (cost : Tree → Nat) (t : Tree)
    (s s' : Site) : Prop
  | unplaced (hplace : ∀ place, t.place ≠ .ok place) (hfiles : s'.files = s.files)
      (htally : s'.tally = s.tally)
  | hit {place : Place} {found : Tree} (hplace : t.place = .ok place)
      (hseen : m.seen s.files (place.relative "tree") = .hit found) (hfiles : s'.files = s.files)
      (htally : s'.tally = { s.tally with hits := s.tally.hits + 1 })
  | failed {place : Place} {e : WorkError} (hplace : t.place = .ok place)
      (hno : ∀ found, m.seen s.files (place.relative "tree") ≠ .hit found) (hf : f t = .error e)
      (hfiles : s'.files = s.files)
      (htally : s'.tally = { s.tally with
        misses := s.tally.misses + 1, applications := s.tally.applications + 1 + cost t })
  | stored {place : Place} {r : Tree} (hplace : t.place = .ok place)
      (hno : ∀ found, m.seen s.files (place.relative "tree") ≠ .hit found) (hf : f t = .ok r)
      (hseen : m.seen s'.files (place.relative "tree") = .hit r)
      (hevolves : s.files.Evolves
        (fun k raw => k = slot s.files.working m.dir place ∧ raw = entry r) s'.files)
      (htally : s'.tally = { s.tally with
        misses := s.tally.misses + 1, applications := s.tally.applications + 1 + cost t })

theorem uncounted_record (m : Memo) (relative : Path) (replace : Bool) (r : Tree) :
    Job.Uncounted (m.record relative replace r) := by
  refine Job.uncounted_adapt _ ?_
  split
  · exact Job.uncounted_bind (m.store.uncounted_write _ _) fun _ => Job.uncounted_pure _
  · exact Job.uncounted_bind (m.store.uncounted_writeOnce _ _) fun _ => Job.uncounted_pure _

theorem tally_on_compute (m : Memo) (relative : Path) (replace : Bool) (t : Tree) (s : Site) :
    ((m.compute relative replace t).on s).2.tally = ((m.inner.transform t).on s).2.tally :=
  Job.tally_on_bind _ (fun r => Job.uncounted_bind (m.uncounted_record relative replace r) fun _ =>
    Job.uncounted_pure r) s

theorem tally_on_transform_of_no_hit (hpure : o.Pure f cost) (hinner : m.inner = o.counting)
    (hcounted : m.counted = true) {place : Place} (hplace : t.place = .ok place)
    (hno : ∀ found, m.seen s.files (place.relative "tree") ≠ .hit found) :
    ((m.transform t).on s).2.tally = { s.tally with
      misses := s.tally.misses + 1, applications := s.tally.applications + 1 + cost t } := by
  obtain ⟨replace, -, htransform⟩ := on_transform_of_no_hit hplace hno
  have hmissed : (m.seen s.files (place.relative "tree")).isHit = false := by
    cases hseen : m.seen s.files (place.relative "tree") with
    | hit found => exact absurd hseen (hno found)
    | _ => rfl
  rw [htransform, tally_on_compute, hinner, hpure.tally_counting, lookedUp, hmissed, tallied,
    hcounted]
  rfl

theorem fate_transform (hpure : o.Pure f cost) (hinner : m.inner = o.counting)
    (hcounted : m.counted = true) (hfits : ∀ r, f t = .ok r → r.Fits) (hstore : m.CanStore t s) :
    Fate m f cost t s ((m.transform t).on s).2 := by
  have hcomputes : m.inner.Computes f := hinner ▸ hpure.computes_counting
  cases hplace : t.place with
  | error e =>
    rw [on_transform_of_unplaced hplace]
    exact .unplaced (by simp [hplace]) rfl rfl
  | ok place =>
    rcases m.hit_or_no_hit s.files (place.relative "tree") with ⟨found, hfound⟩ | hno
    · rw [show (m.transform t).on s = _ from on_transform_of_hit hplace hfound m.inner]
      refine .hit hplace hfound (m.files_lookedUp _ s) ?_
      rw [lookedUp, hfound, tallied, hcounted]
      rfl
    · have htally := tally_on_transform_of_no_hit hpure hinner hcounted hplace hno
      cases hf : f t with
      | error e =>
        obtain ⟨s', htransform, hfiles⟩ := on_transform_of_failure hcomputes hplace hno hf
        rw [htransform] at htally ⊢
        exact .failed hplace hno hf hfiles htally
      | ok r =>
        obtain ⟨path, hwrite⟩ := hstore.write hcomputes hplace hno hf
        obtain ⟨s', htransform⟩ := on_transform_of_stored hcomputes hplace hno hf hwrite
        have hevolves := within_transform_of_ok hcomputes hplace hf s.files.working s rfl
        rw [htransform] at htally hevolves ⊢
        exact .stored hplace hno hf (seen_of_on_transform hcomputes hplace hfits htransform)
          hevolves htally

theorem Fate.congr {s₁ s' : Site} (h : Fate m f cost t s s₁) (hfiles : s'.files = s₁.files)
    (htally : s'.tally = s₁.tally) : Fate m f cost t s s' := by
  cases h with
  | unplaced hplace hf ht => exact .unplaced hplace (hfiles.trans hf) (htally.trans ht)
  | hit hplace hseen hf ht => exact .hit hplace hseen (hfiles.trans hf) (htally.trans ht)
  | failed hplace hno he hf ht => exact .failed hplace hno he (hfiles.trans hf) (htally.trans ht)
  | stored hplace hno hr hseen hevolves ht =>
    rw [← hfiles] at hseen hevolves
    exact .stored hplace hno hr hseen hevolves (htally.trans ht)

theorem fate_apply (hpure : o.Pure f cost) (hinner : m.inner = o.counting)
    (hcounted : m.counted = true) (hfits : ∀ r, f t = .ok r → r.Fits) (hstore : m.CanStore t s) :
    Fate m f cost t s ((m.optimization.apply t).on s).2 := by
  have hfate := fate_transform hpure hinner hcounted hfits hstore
  have hvalidate : m.optimization.validate = o.validate := by
    show m.inner.validate = _
    rw [hinner]
    rfl
  rw [Optimization.apply, hvalidate, Job.on_bind]
  rcases hrun : (m.optimization.transform t).on s with ⟨answer, s₁⟩
  rw [show (m.transform t).on s = (answer, s₁) from hrun] at hfate
  cases answer with
  | error e => exact hfate
  | ok r => exact hfate.congr (hpure.validates r s₁).1 (hpure.validates r s₁).2

end Fate

/-! ## Call after call -/

structure Query where
  tree : Tree
  time : Nat

structure Served where
  query : Query
  before : Site
  after : Site

namespace Served

def ran (v : Served) : Bool := decide (v.before.tally.applications < v.after.tally.applications)

def placed (v : Served) : Bool := v.query.tree.place.isOk

theorem ran_of_same {v : Served} (h : v.after.tally.applications = v.before.tally.applications) :
    v.ran = false := by
  simp [ran, h]

theorem ran_of_more {v : Served} {n : Nat}
    (h : v.after.tally.applications = v.before.tally.applications + 1 + n) : v.ran = true := by
  rw [ran, decide_eq_true_eq, h]
  omega

theorem placed_of_place {v : Served} {place : Place} (h : v.query.tree.place = .ok place) :
    v.placed = true := by
  rw [placed, h]
  rfl

def Settles (f : Tree → Except WorkError Tree) (v : Served) (place : Place) : Prop :=
  v.query.tree.place = .ok place ∧ v.ran = true ∧ ∃ r, f v.query.tree = .ok r

end Served

section Serving

variable (o : Optimization) (dir : Path)

def counter : Memo := ⟨o.counting, dir, true⟩

def Query.serve (q : Query) (s : Site) : Served :=
  ⟨q, s.atTime q.time, (((counter o dir).optimization.apply q.tree).on (s.atTime q.time)).2⟩

def served : List Query → Site → List Served
  | [], _ => []
  | q :: qs, s => q.serve o dir s :: served qs (q.serve o dir s).after

end Serving

structure Shelved (m : Memo) (f : Tree → Except WorkError Tree) (done : List Served)
    (fs : FileSystem) : Prop where
  stored : ∀ v ∈ done, ∀ place, v.Settles f place →
    ∃ found, m.seen fs (place.relative "tree") = .hit found
  sound : ∀ place : Place, place.Proper →
    Sound (fun _ => ∃ v ∈ done, v.Settles f place) fs (slot fs.working m.dir place)

structure Counted (start : Tally) (done : List Served) (tally : Tally) : Prop where
  misses : tally.misses = start.misses + done.countP Served.ran
  lookups : tally.hits + tally.misses = start.hits + start.misses + done.countP Served.placed

section Steps

variable {m : Memo} {f : Tree → Except WorkError Tree} {done : List Served} {v : Served}
  {cost : Tree → Nat} {start : Tally}

theorem Shelved.sound_append {fs : FileSystem} (h : Shelved m f done fs) (v : Served)
    (place : Place) (hproper : place.Proper) :
    Sound (fun _ => ∃ w ∈ done ++ [v], w.Settles f place) fs (slot fs.working m.dir place) := by
  refine (h.sound place hproper).mono fun _ hdone => ?_
  obtain ⟨w, hw, hsettles⟩ := hdone
  exact ⟨w, List.mem_append_left _ hw, hsettles⟩

theorem Shelved.of_unsettled (h : Shelved m f done v.before.files)
    (hfiles : v.after.files = v.before.files) (hv : ∀ place, ¬ v.Settles f place) :
    Shelved m f (done ++ [v]) v.after.files := by
  rw [hfiles]
  refine ⟨fun w hw place hsettles => ?_, h.sound_append v⟩
  rcases List.mem_append.1 hw with hw | hw
  · exact h.stored w hw place hsettles
  · exact absurd (List.mem_singleton.1 hw ▸ hsettles) (hv place)

/-- An entry that is seen stays one when another is stored, in its slot or elsewhere. -/
theorem seen_of_evolves {fs fs' : FileSystem} {k : Key} {r found : Tree} {place : Place}
    (hfits : r.Fits) (he : fs.Evolves (fun k' raw => k' = k ∧ raw = entry r) fs')
    (h : m.seen fs (place.relative "tree") = .hit found) :
    ∃ found', m.seen fs' (place.relative "tree") = .hit found' := by
  obtain ⟨raw, time, hitem, hheld⟩ := exists_of_seen_hit h
  have hreach := (reaches_of_seen_hit h).mono he
  rcases he.item (slot fs.working m.dir place) with hsame | ⟨hnone, -⟩ | ⟨-, raw', ⟨-, rfl⟩, hset⟩
  · rw [hitem, ← he.working] at hsame
    exact ⟨found, seen_of_reaches hreach hsame hheld⟩
  · simp [hitem] at hnone
  · rw [← he.working] at hset
    exact ⟨r, seen_of_reaches hreach hset (held?_entry hfits)⟩

theorem Shelved.of_stored (h : Shelved m f done v.before.files) {place : Place} {r : Tree}
    (hfits : r.Fits) (hsettles : v.Settles f place)
    (hseen : m.seen v.after.files (place.relative "tree") = .hit r)
    (he : v.before.files.Evolves
      (fun k raw => k = slot v.before.files.working m.dir place ∧ raw = entry r) v.after.files) :
    Shelved m f (done ++ [v]) v.after.files := by
  refine ⟨fun w hw place' hw' => ?_, fun place' hproper => ?_⟩
  · rcases List.mem_append.1 hw with hw | hw
    · obtain ⟨found, hfound⟩ := h.stored w hw place' hw'
      exact seen_of_evolves hfits he hfound
    · obtain rfl := List.mem_singleton.1 hw
      cases hsettles.1.symm.trans hw'.1
      exact ⟨r, hseen⟩
  · rw [he.working]
    refine (h.sound_append v place' hproper).evolve he ?_
    rintro raw ⟨hslot, rfl⟩
    have heq : place' = place :=
      Place.eq_of_key_within hproper (Place.proper_of_ofName hsettles.1) (by decide) hslot
    subst heq
    exact ⟨r, ⟨v, List.mem_append_right _ (List.mem_singleton_self v), hsettles⟩, hfits, rfl⟩

theorem Counted.append {tally tally' : Tally} (h : Counted start done tally)
    (hmisses : tally'.misses = tally.misses + [v].countP Served.ran)
    (hlookups : tally'.hits + tally'.misses =
      tally.hits + tally.misses + [v].countP Served.placed) :
    Counted start (done ++ [v]) tally' where
  misses := by rw [hmisses, h.misses, List.countP_append, Nat.add_assoc]
  lookups := by rw [hlookups, h.lookups, List.countP_append, Nat.add_assoc]

theorem Fate.ran_iff (hfate : Fate m f cost v.query.tree v.before v.after)
    (h : Shelved m f done v.before.files) :
    v.ran = true ↔ ∃ place, v.query.tree.place = .ok place ∧ ∀ w ∈ done, ¬ w.Settles f place := by
  -- without a hit there was no success, since it would have left an entry
  have hdue {place : Place} (hplace : v.query.tree.place = .ok place)
      (hno : ∀ found, m.seen v.before.files (place.relative "tree") ≠ .hit found) :
      ∃ place, v.query.tree.place = .ok place ∧ ∀ w ∈ done, ¬ w.Settles f place := by
    refine ⟨place, hplace, fun w hw hsettles => ?_⟩
    obtain ⟨found, hfound⟩ := h.stored w hw place hsettles
    exact hno found hfound
  cases hfate with
  | unplaced hplace _ htally =>
    have hran : v.ran = false := Served.ran_of_same (by rw [htally])
    simp [hran, hplace]
  | @hit place found hplace hseen _ htally =>
    have hran : v.ran = false := Served.ran_of_same (by rw [htally])
    obtain ⟨raw, time, hitem, hheld⟩ := exists_of_seen_hit hseen
    obtain ⟨w, hw, hsettles⟩ :=
      h.sound place (Place.proper_of_ofName hplace) raw time found hitem hheld
    refine iff_of_false (by simp [hran]) ?_
    rintro ⟨place', hplace', hnone⟩
    cases hplace.symm.trans hplace'
    exact hnone w hw hsettles
  | failed hplace hno _ _ htally =>
    exact iff_of_true (Served.ran_of_more (by rw [htally])) (hdue hplace hno)
  | stored hplace hno _ _ _ htally =>
    exact iff_of_true (Served.ran_of_more (by rw [htally])) (hdue hplace hno)

theorem Fate.applications (hfate : Fate m f cost v.query.tree v.before v.after) :
    v.after.tally.applications = v.before.tally.applications +
      if v.ran then 1 + cost v.query.tree else 0 := by
  have hsame (h : v.after.tally.applications = v.before.tally.applications) :
      v.after.tally.applications = v.before.tally.applications +
        if v.ran then 1 + cost v.query.tree else 0 := by
    simp [Served.ran_of_same h, h]
  have hmore (h : v.after.tally.applications =
      v.before.tally.applications + 1 + cost v.query.tree) :
      v.after.tally.applications = v.before.tally.applications +
        if v.ran then 1 + cost v.query.tree else 0 := by
    rw [Served.ran_of_more h, if_pos rfl, h, Nat.add_assoc]
  cases hfate with
  | unplaced _ _ htally => exact hsame (by rw [htally])
  | hit _ _ _ htally => exact hsame (by rw [htally])
  | failed _ _ _ _ htally => exact hmore (by rw [htally])
  | stored _ _ _ _ _ htally => exact hmore (by rw [htally])

theorem Fate.shelved (hfate : Fate m f cost v.query.tree v.before v.after)
    (hfits : ∀ r, f v.query.tree = .ok r → r.Fits) (h : Shelved m f done v.before.files) :
    Shelved m f (done ++ [v]) v.after.files := by
  cases hfate with
  | unplaced hplace hfiles _ => exact h.of_unsettled hfiles fun place hv => hplace place hv.1
  | hit _ _ hfiles htally =>
    have hran : v.ran = false := Served.ran_of_same (by rw [htally])
    exact h.of_unsettled hfiles fun place hv => Bool.false_ne_true (hran.symm.trans hv.2.1)
  | failed _ _ hf hfiles _ =>
    refine h.of_unsettled hfiles fun place hv => ?_
    obtain ⟨r, hr⟩ := hv.2.2
    simp [hf] at hr
  | stored hplace _ hf hseen hevolves htally =>
    have hran : v.ran = true := Served.ran_of_more (by rw [htally])
    exact h.of_stored (hfits _ hf) ⟨hplace, hran, _, hf⟩ hseen hevolves

theorem Fate.counted (hfate : Fate m f cost v.query.tree v.before v.after)
    (h : Counted start done v.before.tally) : Counted start (done ++ [v]) v.after.tally := by
  cases hfate with
  | unplaced hplace _ htally =>
    have hran : v.ran = false := Served.ran_of_same (by rw [htally])
    have hplaced : v.placed = false := by
      cases hp : v.query.tree.place with
      | error e => rw [Served.placed, hp]; rfl
      | ok place => exact absurd hp (hplace place)
    exact h.append (by simp [htally, hran]) (by simp [htally, hplaced])
  | hit hplace _ _ htally =>
    have hran : v.ran = false := Served.ran_of_same (by rw [htally])
    have hplaced := Served.placed_of_place hplace
    exact h.append (by simp [htally, hran]) (by simp [htally, hplaced]; omega)
  | failed hplace _ _ _ htally =>
    have hran : v.ran = true := Served.ran_of_more (by rw [htally])
    have hplaced := Served.placed_of_place hplace
    exact h.append (by simp [htally, hran]) (by simp [htally, hplaced]; omega)
  | stored hplace _ _ _ _ htally =>
    have hran : v.ran = true := Served.ran_of_more (by rw [htally])
    have hplaced := Served.placed_of_place hplace
    exact h.append (by simp [htally, hran]) (by simp [htally, hplaced]; omega)

end Steps

section Runs

variable {o : Optimization} {f : Tree → Except WorkError Tree} {cost : Tree → Nat} {dir : Path}
  {start : Tally}

theorem Shelved.atTime {m : Memo} {done : List Served} {s : Site}
    (h : Shelved m f done s.files) (time : Nat) : Shelved m f done (s.atTime time).files := by
  refine ⟨fun v hv place hsettles => ?_, h.sound⟩
  rw [seen_congr (s.read_atTime time _)]
  exact h.stored v hv place hsettles

/-- From one query to the next: the induction is on the queries to come, and what is known of
entries and counts speaks of all that are done. -/
theorem served_step (hpure : o.Pure f cost) (queries : List Query) (done : List Served) (s : Site)
    (hfits : ∀ q ∈ queries, ∀ r, f q.tree = .ok r → r.Fits)
    (hstore : ∀ v ∈ served o dir queries s, (counter o dir).CanStore v.query.tree v.before)
    (hshelved : Shelved (counter o dir) f done s.files) (hcounted : Counted start done s.tally)
    {before after : List Served} {v : Served} (h : served o dir queries s = before ++ v :: after) :
    (v.ran = true ↔ ∃ place, v.query.tree.place = .ok place ∧
      ∀ w ∈ done ++ before, ¬ w.Settles f place) ∧
    v.after.tally.applications = v.before.tally.applications +
      (if v.ran then 1 + cost v.query.tree else 0) ∧
    Counted start (done ++ before ++ [v]) v.after.tally := by
  induction queries generalizing done s before with
  | nil => simp [served] at h
  | cons q queries ih =>
    rw [served] at h hstore
    have hcan : (counter o dir).CanStore q.tree (s.atTime q.time) :=
      hstore (q.serve o dir s) List.mem_cons_self
    have hfate : Fate (counter o dir) f cost q.tree (s.atTime q.time) (q.serve o dir s).after :=
      fate_apply hpure rfl rfl (hfits q List.mem_cons_self) hcan
    have hnow := hshelved.atTime q.time
    cases before with
    | nil =>
      obtain ⟨rfl, -⟩ := List.cons.inj h
      rw [List.append_nil]
      exact ⟨hfate.ran_iff hnow, hfate.applications, hfate.counted hcounted⟩
    | cons w before =>
      obtain ⟨rfl, hrest⟩ := List.cons.inj h
      have hlater := ih (done ++ [q.serve o dir s]) (q.serve o dir s).after
        (fun q' hq' => hfits q' (List.mem_cons_of_mem _ hq'))
        (fun v hv => hstore v (List.mem_cons_of_mem _ hv))
        (hfate.shelved (hfits q List.mem_cons_self) hnow) (hfate.counted hcounted) hrest
      simpa using hlater

/-- Queries on a directory in which no entry passes all checks in the beginning, as long as what
is to be stored can be stored. The transformation is run for a tree exactly when the tree has a
place and no run before it on a tree of that place was a success, and then it is run once. At all
times every run was a miss, and every tree with a place was a hit or a miss. -/
theorem transforms_once_per_place (o : Optimization) (f : Tree → Except WorkError Tree)
    (cost : Tree → Nat) (hpure : o.Pure f cost) (dir : Path) (queries : List Query) (s : Site)
    (hempty : ∀ names raw time,
      s.files.get? (dir.key s.files.working ++ names) = some (.file raw time) → held? raw = none)
    (hfits : ∀ q ∈ queries, ∀ r, f q.tree = .ok r → r.Fits)
    (hstore : ∀ v ∈ served o dir queries s, (counter o dir).CanStore v.query.tree v.before) :
    ∀ before v after, served o dir queries s = before ++ v :: after →
      (v.ran = true ↔ ∃ place, v.query.tree.place = .ok place ∧
        ∀ w ∈ before, ¬ w.Settles f place) ∧
      v.after.tally.applications = v.before.tally.applications +
        (if v.ran then 1 + cost v.query.tree else 0) ∧
      v.after.tally.misses = s.tally.misses + (before ++ [v]).countP Served.ran ∧
      v.after.tally.hits + v.after.tally.misses =
        s.tally.hits + s.tally.misses + (before ++ [v]).countP Served.placed := by
  intro before v after h
  have hshelved : Shelved (counter o dir) f [] s.files :=
    ⟨nofun, fun place hproper => sound_of_empty hempty hproper⟩
  obtain ⟨hran, honce, hcounted⟩ :=
    served_step hpure queries [] s hfits hstore hshelved ⟨rfl, rfl⟩ h
  exact ⟨hran, honce, hcounted.misses, hcounted.lookups⟩

/-- A failure is tried again and a success is not, though a gate stops its tree and the next tree
of the place would fail. A name without a place counts for nothing, and a tree without a name has
the place of the name that stands for it. -/
theorem transforms_once_per_place_mixed :
    let mark : Step := ⟨"mark", fun t =>
      if t.has .error then .error ⟨"no"⟩ else .ok (t.addError ⟨.warning, "odd", none, none⟩)⟩
    let tr : Train := ⟨[mark], [⟨.warning⟩], none⟩
    let good : Tree := .ofName "b"
    let bad : Tree := good.addError ⟨.error, "bad", none, none⟩
    let queries : List Query := [⟨bad, 1⟩, ⟨good, 2⟩, ⟨bad, 3⟩, ⟨.ofName "", 4⟩, ⟨.empty, 5⟩,
      ⟨.ofName "_anonymous", 6⟩]
    let vs := served tr.optimization ⟨"cache"⟩ queries { files := .fresh ["work"] }
    vs.map Served.ran = [true, true, false, false, true, false] ∧
      ∃ before v, vs = before ++ [v] ∧ v.after.tally.misses = 3 ∧
        v.after.tally.hits + v.after.tally.misses = 5 := by
  intro mark tr good bad queries vs
  let f (t : Tree) : Except WorkError Tree := (tr.content t).mapError .structural
  have hempty : ∀ names raw time, (FileSystem.fresh ["work"]).get?
      ((Path.mk "cache").key ["work"] ++ names) = some (.file raw time) → held? raw = none := by
    intro names raw time h
    have hkey : (Path.mk "cache").key ["work"] = ["work", "cache"] := by decide +kernel
    rw [hkey] at h
    cases h
  have hfits : ∀ q ∈ queries, ∀ r, f q.tree = .ok r → r.Fits := by
    intro q hq r hr
    have hodd : (Diagnostic.mk .warning "odd" none none).Fits := ⟨by decide, by simp⟩
    simp only [queries, List.mem_cons, List.not_mem_nil, or_false] at hq
    rcases hq with rfl | rfl | rfl | rfl | rfl | rfl
    · cases hr
    · cases hr
      exact (Tree.fits_ofName (by decide)).addError hodd (by decide)
    · cases hr
    · cases hr
      exact (Tree.fits_ofName (by decide)).addError hodd (by decide)
    · cases hr
      exact Tree.fits_empty.addError hodd (by decide)
    · cases hr
      exact (Tree.fits_ofName (by decide)).addError hodd (by decide)
  have hwrites : ∀ v ∈ vs, ∀ place ∈ v.query.tree.place.toOption, ∀ r ∈ (f v.query.tree).toOption,
      (((counter tr.optimization ⟨"cache"⟩).store.write (place.relative "tree") r.toBinary).on
        v.before).1.isOk = true := by
    decide +kernel
  have hpure : tr.optimization.Pure f _ := Train.pure_of_plain rfl
  have hstore : ∀ v ∈ vs, (counter tr.optimization ⟨"cache"⟩).CanStore v.query.tree v.before := by
    intro v hv place r hplace hr _
    have hf : f v.query.tree = .ok r := (hpure.computes_counting _ v.before).1.symm.trans hr
    have hok := hwrites v hv place (by simp [hplace, Except.toOption]) r
      (by simp [hf, Except.toOption])
    cases hwrite : (((counter tr.optimization ⟨"cache"⟩).store.write (place.relative "tree")
        r.toBinary).on v.before).1 with
    | ok path => exact ⟨path, rfl⟩
    | error e => simp [hwrite, Except.isOk, Except.toBool] at hok
  have hne : vs ≠ [] := List.cons_ne_nil _ _
  have hlast := List.dropLast_concat_getLast hne
  obtain ⟨-, -, hmisses, hlookups⟩ := transforms_once_per_place tr.optimization f _ hpure
    ⟨"cache"⟩ queries _ hempty hfits hstore vs.dropLast (vs.getLast hne) [] hlast.symm
  have hran : vs.map Served.ran = [true, true, false, false, true, false] := by decide +kernel
  have hruns : vs.countP Served.ran = 3 :=
    (List.countP_map (p := id)).symm.trans (congrArg (List.countP id) hran)
  rw [hlast] at hmisses hlookups
  exact ⟨hran, _, _, hlast.symm, hmisses.trans (by rw [hruns]), hlookups.trans (by decide +kernel)⟩

end Runs

end Memo

end Trainyard
