import Mathlib.Order.Basic
import Trainyard.Proofs.Memo

/-!
# Calls through one directory

Any number of calls share a directory. Each brings a tree and gates of its own; the steps
are the same for all. As long as trees of one place are equal and what is to be stored can
be stored, every call answers as the train would without a memo.
-/

set_option autoImplicit false

namespace Trainyard.Memo

/-- What is to be stored for a tree can be stored: its directory is made and its entry is
written. Nothing is to be stored on a hit, or where the transformation fails. -/
def CanStore (m : Memo) (t : Tree) (s : Site) : Prop :=
  ∀ place result, t.place = .ok place → ((m.inner.transform t).on s).1 = .ok result →
    (∀ found, ((m.lookup (place.relative "tree")).on s).1 ≠ .ok (.hit found)) →
    ∃ path, ((m.store.write (place.relative "tree") result.toBinary).on s).1 = .ok path

section Computing

variable {m : Memo} {f : Tree → Except WorkError Tree} {t r : Tree} {place : Place} {s : Site}

theorem CanStore.write (h : m.CanStore t s) (hinner : m.inner.Computes f)
    (hplace : t.place = .ok place)
    (hno : ∀ found, m.seen s.files (place.relative "tree") ≠ .hit found) (hr : f t = .ok r) :
    ∃ path, ((m.store.write (place.relative "tree") r.toBinary).on s).1 = .ok path := by
  obtain ⟨s₁, -, hlookup⟩ := m.on_lookup (place.relative "tree") s
  refine h place r hplace ((hinner t s).1.trans hr) fun found hfound => hno found ?_
  rw [hlookup] at hfound
  exact Except.ok.inj hfound

theorem fst_on_transform (hinner : m.inner.Computes f) (hplace : t.place = .ok place)
    (hsound : Sound (fun r => f t = .ok r) s.files (slot s.files.working m.dir place))
    (hstore : m.CanStore t s) : ((m.transform t).on s).1 = f t := by
  rcases m.hit_or_no_hit s.files (place.relative "tree") with ⟨found, hfound⟩ | hno
  · obtain ⟨raw, time, hitem, hheld⟩ := exists_of_seen_hit hfound
    have htransform := on_transform_of_hit hplace hfound m.inner
    rw [htransform, hsound raw time found hitem hheld]
  · cases hf : f t with
    | error e =>
      obtain ⟨s', htransform, -⟩ := on_transform_of_failure hinner hplace hno hf
      rw [htransform]
    | ok r =>
      obtain ⟨path, hwrite⟩ := hstore.write hinner hplace hno hf
      obtain ⟨s', htransform⟩ := on_transform_of_stored hinner hplace hno hf hwrite
      rw [htransform]

end Computing

/-! ## Sessions -/

structure Call where
  tree : Tree
  gates : List Gate
  time : Nat
  counted : Bool

structure Visit where
  call : Call
  before : Site
  answer : Except WorkError Tree

section Session

variable (steps : List Step) (dir : Path)

def Call.train (c : Call) : Train := ⟨steps, c.gates, none⟩

def Call.memo (c : Call) : Memo := ⟨(c.train steps).optimization, dir, c.counted⟩

def Call.outcome (c : Call) (s : Site) : Except WorkError Tree × Site :=
  ((c.memo steps dir).optimization.apply c.tree).on s

/-- Calls one after the other, each through a memo of its own in the same directory. -/
def visits : List Call → Site → List Visit
  | [], _ => []
  | c :: cs, s =>
    ⟨c, s.atTime c.time, (c.outcome steps dir (s.atTime c.time)).1⟩ ::
      visits cs (c.outcome steps dir (s.atTime c.time)).2

def Settled (calls : List Call) (fs : FileSystem) : Prop :=
  ∀ c ∈ calls, ∀ place, c.tree.place = .ok place →
    Sound (fun r => (c.train steps).content c.tree = .ok r) fs (slot fs.working dir place)

end Session

section Steps

variable {steps : List Step} {dir : Path} {calls : List Call} {c : Call} {s : Site}

/-- One call stores at most the result for its tree, in the slot of its place. -/
theorem within_apply (dir : Path) (working : Key) (c : Call)
    (hfits : ∀ r, (c.train steps).content c.tree = .ok r → r.Fits) :
    Job.Within working (fun k raw => ∃ place r, c.tree.place = .ok place ∧
        k = slot working dir place ∧ (c.train steps).content c.tree = .ok r ∧ r.Fits ∧
        raw = entry r) ((c.memo steps dir).optimization.apply c.tree) := by
  refine Job.within_bind (within_transform ?_ ?_) fun r => ?_
  · exact Train.within_run nofun _ _ _
  · intro place s r s' hplace hrun
    have hr := Train.passed_of_on_run hrun
    exact ⟨place, r, hplace, rfl, hr, hfits r hr, rfl⟩
  · exact Train.within_run nofun _ _ _

/-- One call answers as the train does and leaves the entries settled. -/
theorem settled_apply (hc : c ∈ calls)
    (hplaced : ∃ place, c.tree.place = .ok place)
    (hsame : ∀ c' ∈ calls, c'.tree.place = c.tree.place → c'.tree = c.tree)
    (hfits : ∀ r, (c.train steps).content c.tree = .ok r → r.Fits)
    (hstore : (c.memo steps dir).CanStore c.tree s) (h : Settled steps dir calls s.files) :
    (c.outcome steps dir s).1 = ((c.train steps).answer c.tree).mapError .structural ∧
      Settled steps dir calls (c.outcome steps dir s).2.files := by
  constructor
  · obtain ⟨place, hplace⟩ := hplaced
    have htransform : (((c.memo steps dir).transform c.tree).on s).1 =
        ((c.train steps).content c.tree).mapError .structural := by
      refine fst_on_transform (Train.computes_of_plain rfl) hplace ?_ hstore
      refine (h c hc place hplace).mono fun r hr => ?_
      rw [hr]
      rfl
    exact Train.fst_on_apply rfl rfl htransform
  · have hevolves := within_apply dir s.files.working c hfits s rfl
    intro c' hc' place' hplace'
    rw [Call.outcome, hevolves.working]
    refine (h c' hc' place' hplace').evolve hevolves ?_
    rintro raw ⟨place, r, hplace, hslot, hr, hrfits, rfl⟩
    have heq : place' = place :=
      Place.eq_of_key_within (Place.proper_of_ofName hplace') (Place.proper_of_ofName hplace)
        (by decide) hslot
    subst heq
    rw [hsame c' hc' (hplace'.trans hplace.symm)]
    exact ⟨r, hr, hrfits, rfl⟩

theorem answers_of_settled (calls : List Call)
    (hplaced : ∀ c ∈ calls, ∃ place, c.tree.place = .ok place)
    (hsame : ∀ c ∈ calls, ∀ c' ∈ calls, c'.tree.place = c.tree.place → c'.tree = c.tree)
    (hfits : ∀ c ∈ calls, ∀ r, (c.train steps).content c.tree = .ok r → r.Fits)
    (cs : List Call) (hcs : ∀ c ∈ cs, c ∈ calls) (s : Site)
    (hstore : ∀ v ∈ visits steps dir cs s, (v.call.memo steps dir).CanStore v.call.tree v.before)
    (h : Settled steps dir calls s.files) :
    (visits steps dir cs s).map (·.answer) =
      cs.map fun c => ((c.train steps).answer c.tree).mapError .structural := by
  -- the invariant speaks of all calls, the induction is on those still to come
  induction cs generalizing s with
  | nil => rfl
  | cons c cs ih =>
    have hc := hcs c (by simp)
    rw [visits, List.forall_mem_cons] at hstore
    obtain ⟨hnow, hlater⟩ := hstore
    obtain ⟨hanswer, hsettled⟩ := settled_apply (s := s.atTime c.time) hc (hplaced c hc)
      (hsame c hc) (hfits c hc) hnow h
    rw [visits, List.map_cons, List.map_cons, hanswer,
      ih (fun d hd => hcs d (by simp [hd])) _ hlater hsettled]

/-- Calls through a memo answer as the train does. In the beginning no entry below the directory
passes all checks; trees of one place are equal; and whatever is to be stored can be stored. -/
theorem answers_eq_uncached (steps : List Step) (dir : Path) (calls : List Call) (s : Site)
    (hempty : ∀ names raw time,
      s.files.get? (dir.key s.files.working ++ names) = some (.file raw time) → held? raw = none)
    (hplaced : ∀ c ∈ calls, ∃ place, c.tree.place = .ok place)
    (hsame : ∀ c ∈ calls, ∀ c' ∈ calls, c'.tree.place = c.tree.place → c'.tree = c.tree)
    (hfits : ∀ c ∈ calls, ∀ site r, (((c.train steps).transform c.tree).on site).1 = .ok r → r.Fits)
    (hstore : ∀ v ∈ visits steps dir calls s,
      (v.call.memo steps dir).CanStore v.call.tree v.before) (site : Site) :
    (visits steps dir calls s).map (·.answer) =
      calls.map fun c => (((c.train steps).optimization.apply c.tree).on site).1 := by
  have hresults : ∀ c ∈ calls, ∀ r, (c.train steps).content c.tree = .ok r → r.Fits := by
    intro c hc r hr
    refine hfits c hc site r ?_
    rw [(Train.on_transform_of_plain rfl c.tree site).1, hr]
    rfl
  have hsettled : Settled steps dir calls s.files :=
    fun c hc place hplace => sound_of_empty hempty (Place.proper_of_ofName hplace)
  rw [answers_of_settled calls hplaced hsame hresults calls (fun c hc => hc) s hstore hsettled]
  refine List.map_congr_left fun c _ => ?_
  exact (Train.fst_on_apply_of_plain rfl c.tree site).symm

/-- A damaged entry is mended by the first call, the second finds its tree and holds it to a gate
of its own, and the third brings a tree without a name. -/
theorem answers_eq_uncached_gated :
    let steps : List Step := [⟨"mark", fun t => .ok (t.addError ⟨.warning, "odd", none, none⟩)⟩]
    let marked (t : Tree) : Tree := t.addError ⟨.warning, "odd", none, none⟩
    let calls : List Call := [⟨.ofName "a", [], 1, true⟩, ⟨.ofName "a", [⟨.warning⟩], 2, false⟩,
      ⟨.empty, [], 3, true⟩]
    let cache : Entry := .directory [("a.tree", .file ⟨#[1, 2, 3]⟩ 0)] 0
    let s : Site := { files := ⟨.directory [("work", .directory [("cache", cache)] 0)] 0, ["work"], 5⟩ }
    (visits steps ⟨"cache"⟩ calls s).map (·.answer) = [.ok (marked (.ofName "a")),
      .error (.structural ⟨"fail-on-warnings", "1 warning(s) found", [⟨.warning, "odd", none, none⟩]⟩),
      .ok (marked .empty)] := by
  intro steps marked calls cache s
  have hempty : ∀ names raw time, s.files.get? ((Path.mk "cache").key ["work"] ++ names) =
      some (.file raw time) → held? raw = none := by
    intro names raw time h
    have hkey : (Path.mk "cache").key ["work"] = ["work", "cache"] := by decide +kernel
    rw [hkey] at h
    have hbelow : cache.get? names = some (.file raw time) := h
    cases names with
    | nil => simp [Entry.get?, cache] at hbelow
    | cons n rest =>
      by_cases hn : n = "a.tree"
      · subst hn
        cases rest with
        | nil =>
          obtain ⟨rfl, -⟩ : ByteArray.mk #[1, 2, 3] = raw ∧ 0 = time := by
            simpa [Entry.get?, Entry.child?, cache, List.lookup_cons] using hbelow
          decide +kernel
        | cons => simp [Entry.get?, Entry.child?, cache] at hbelow
      · simp [Entry.get?, Entry.child?, cache, List.lookup_cons, beq_false_of_ne hn] at hbelow
  have htrees : ∀ c ∈ calls, c.tree = .ofName "a" ∨ c.tree = .empty := by decide +kernel
  have hplaced : ∀ c ∈ calls, ∃ place, c.tree.place = .ok place := by
    intro c hc
    rcases htrees c hc with h | h <;> rw [h]
    · exact ⟨⟨["a"]⟩, by decide +kernel⟩
    · exact ⟨⟨["_anonymous"]⟩, by decide +kernel⟩
  have hfits : ∀ c ∈ calls, ∀ site r,
      (((c.train steps).transform c.tree).on site).1 = .ok r → r.Fits := by
    intro c hc site r h
    rw [(Train.on_transform_of_plain rfl c.tree site).1] at h
    have hdiagnostic : (Diagnostic.mk .warning "odd" none none).Fits := ⟨by decide, by simp⟩
    rcases htrees c hc with ht | ht <;> rw [ht] at h <;> cases h
    · exact (Tree.fits_ofName (by decide)).addError hdiagnostic (by decide)
    · exact Tree.fits_empty.addError hdiagnostic (by decide)
  have hstore : ∀ v ∈ visits steps ⟨"cache"⟩ calls s,
      (v.call.memo steps ⟨"cache"⟩).CanStore v.call.tree v.before := by
    intro v hv place result hplace hresult _
    have hcontent : ((v.call.train steps).content v.call.tree).mapError WorkError.structural =
        .ok result :=
      (Train.on_transform_of_plain rfl v.call.tree v.before).1.symm.trans hresult
    simp only [visits, calls, List.mem_cons, List.not_mem_nil, or_false] at hv
    rcases hv with rfl | rfl | rfl
    · obtain rfl : place = ⟨["a"]⟩ := Except.ok.inj (hplace.symm.trans (by decide +kernel))
      obtain rfl : marked (.ofName "a") = result := Except.ok.inj hcontent
      exact ⟨⟨"cache/a.tree"⟩, by decide +kernel⟩
    · obtain rfl : place = ⟨["a"]⟩ := Except.ok.inj (hplace.symm.trans (by decide +kernel))
      obtain rfl : marked (.ofName "a") = result := Except.ok.inj hcontent
      exact ⟨⟨"cache/a.tree"⟩, by decide +kernel⟩
    · obtain rfl : place = ⟨["_anonymous"]⟩ := Except.ok.inj (hplace.symm.trans (by decide +kernel))
      obtain rfl : marked .empty = result := Except.ok.inj hcontent
      exact ⟨⟨"cache/_anonymous.tree"⟩, by decide +kernel⟩
  have hanswers := answers_eq_uncached steps ⟨"cache"⟩ calls s hempty
    hplaced (by decide +kernel) hfits hstore s
  rw [hanswers]
  rfl

end Steps

end Trainyard.Memo
