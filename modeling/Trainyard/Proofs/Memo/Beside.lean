import Trainyard.Proofs.Footprint
import Trainyard.Proofs.Memo
import Trainyard.Stage.Batch

/-!
# Trains and memos beside other work

Where the files of a tree go is decided by its name. Steps that keep the name keep all
snapshots of a tree in the directory of its place, and the entry of a memo is in one file.
A footprint that takes these in takes in the whole way of a tree through a train, with or
without a memo.
-/

set_option autoImplicit false

namespace Trainyard

/-! ## Steps that keep the name -/

def Step.KeepsName (step : Step) : Prop := ∀ t t', step.apply t = .ok t' → t'.name? = t.name?

theorem Tree.name?_setAttribute {key : String} (h : key ≠ nameKey) (t : Tree) (value : String) :
    (t.setAttribute key value).name? = t.name? := by
  rw [name?, attribute?, setAttribute, Attributes.get?_insert, if_neg (Ne.symm h)]
  rfl

theorem Tree.place_congr {t t' : Tree} (h : t'.name? = t.name?) : t'.place = t.place := by
  rw [place, place, nameOrAnonymous, nameOrAnonymous, h]

theorem Tree.place_of_name? {t : Tree} {n : String} (h : t.name? = some n) :
    t.place = Place.ofName n := by
  rw [place, nameOrAnonymous, h, Option.getD_some]

namespace Station

def KeepsName (station : Station) : Prop := ∀ t t', station.pass t = .ok t' → t'.name? = t.name?

theorem keepsName_content {step : Step} (h : step.KeepsName) : (content step).KeepsName :=
  fun t t' hpass => h t t' (apply_of_pass hpass)

theorem keepsName_gate (g : Gate) : (gate g).KeepsName := by
  intro t t' hpass
  rw [Gate.apply_ok (apply_of_pass hpass)]

theorem steady_announce (station : Station) {F : Footprint} {s : Site} (hready : F.Ready s.files)
    (t : Tree) : Job.Steady F (station.announce t) s := by
  refine Job.steady_bind hready (Job.steady_tell _) fun _ s₁ _ _ _ => ?_
  split
  · exact Job.steady_countApplication
  · exact Job.steady_pure ()

end Station

namespace Train

def KeepsName (tr : Train) : Prop := ∀ step ∈ tr.steps, step.KeepsName

variable {tr : Train} {stations : List Station} {t r : Tree}

theorem KeepsName.contentStations (h : tr.KeepsName) :
    ∀ station ∈ tr.contentStations, station.KeepsName := by
  intro station hstation
  obtain ⟨step, hstep, rfl⟩ := List.mem_map.1 hstation
  exact Station.keepsName_content (h step hstep)

theorem keepsName_gateStations (tr : Train) : ∀ station ∈ tr.gateStations, station.KeepsName := by
  intro station hstation
  obtain ⟨g, -, rfl⟩ := List.mem_map.1 hstation
  exact Station.keepsName_gate g

theorem name?_of_passed (h : ∀ station ∈ stations, station.KeepsName)
    (hpassed : passed stations t = .ok r) : r.name? = t.name? := by
  induction stations generalizing t with
  | nil =>
    cases hpassed
    rfl
  | cons station stations ih =>
    rw [List.forall_mem_cons] at h
    rw [passed] at hpassed
    cases hpass : station.pass t with
    | error failure => simp [hpass] at hpassed
    | ok t' =>
      rw [hpass] at hpassed
      rw [ih h.2 hpassed, h.1 t t' hpass]

/-! ## The way of a tree -/

def Takes (F : Footprint) (working : Key) (snapshots : Option Path) (names : List String)
    (place : Place) : Prop :=
  ∀ dir ∈ snapshots, ∃ base front, place.within dir "" = base.descend front ∧
    ∀ i station, names[i]? = some station →
      F.Covers working base front (snapshotName (i + 1) station)

variable {F : Footprint} {s s' : Site} {snapshots : Option Path} {names : List String}

theorem steady_saveSnapshot (hready : F.Ready s.files)
    (htakes : ∀ place, t.place = .ok place → Takes F s.files.working snapshots names place)
    {i : Nat} {station : String} (hstation : names[i]? = some station) :
    Job.Steady F (saveSnapshot snapshots (i + 1) station t) s := by
  cases snapshots with
  | none => exact Job.steady_pure ()
  | some dir =>
    refine Job.steady_bind hready (Job.steady_ofExcept _ _) fun place s₁ hplaced hworking hready₁ => ?_
    obtain ⟨base, front, hwithin, hcovers⟩ := htakes place (Job.on_ofExcept_ok hplaced).1 dir rfl
    have hpath : (place.within dir "").child (snapshotName (i + 1) station) =
        base.descend (front ++ [snapshotName (i + 1) station]) := by
      rw [hwithin, Path.descend_append]
    have hcovers := hcovers i station hstation
    rw [← hworking] at hcovers
    refine Job.steady_bind hready₁ (Job.steady_adapt _ ?_) fun _ _ _ _ _ => Job.steady_tell _
    rw [hpath]
    exact t.steady_save hready₁ hcovers

theorem steady_run (hready : F.Ready s.files)
    (hkeeps : ∀ station ∈ stations, station.KeepsName)
    (htakes : ∀ place, t.place = .ok place → Takes F s.files.working snapshots names place)
    {before after : List String} (hnames : names = before ++ stations.map Station.name ++ after)
    {n : Nat} (hn : before.length = n) :
    Job.Steady F (run snapshots (n + 1) stations t) s := by
  induction stations generalizing before n t s with
  | nil => exact Job.steady_pure t
  | cons station stations ih =>
    rw [List.forall_mem_cons] at hkeeps
    refine Job.steady_bind hready (station.steady_announce hready t) fun _ s₁ _ hworking hready₁ => ?_
    refine Job.steady_bind hready₁ (Job.steady_ofExcept _ _)
      fun t' s₂ hpassed hworking₂ hready₂ => ?_
    have hplace : t'.place = t.place :=
      Tree.place_congr (hkeeps.1 t t' (Job.on_ofExcept_ok hpassed).1)
    rw [← hplace, ← hworking, ← hworking₂] at htakes
    have hstation : names[n]? = some station.name := by simp [hnames, ← hn]
    refine Job.steady_bind hready₂ (steady_saveSnapshot hready₂ htakes hstation)
      fun _ s₃ _ hworking₃ hready₃ => ?_
    rw [← hworking₃] at htakes
    have hnames' : names = (before ++ [station.name]) ++ stations.map Station.name ++ after := by
      simp [hnames]
    exact ih hready₃ hkeeps.2 htakes hnames' (by simp [hn])

section Phases

variable {n : String}

theorem KeepsName.name?_of_on_transform (h : tr.KeepsName) (hname : t.name? = some n)
    (hrun : (tr.transform t).on s = (.ok r, s')) : r.name? = some n := by
  rw [name?_of_passed h.contentStations (passed_of_on_run hrun), hname]

theorem steady_transform (hready : F.Ready s.files) (hkeeps : tr.KeepsName)
    (hname : t.name? = some n)
    (htakes : ∀ place, Place.ofName n = .ok place →
      Takes F s.files.working tr.snapshots tr.stationNames place) :
    Job.Steady F (tr.transform t) s := by
  have hnames : tr.stationNames = [] ++ tr.contentStations.map Station.name ++
      tr.gateStations.map Station.name := by simp [stationNames]
  rw [← Tree.place_of_name? hname] at htakes
  exact steady_run hready hkeeps.contentStations htakes hnames rfl

theorem steady_validate (hready : F.Ready s.files)
    (hname : tr.snapshots ≠ none → t.name? = some n)
    (htakes : ∀ place, Place.ofName n = .ok place →
      Takes F s.files.working tr.snapshots tr.stationNames place) :
    Job.Steady F (tr.validate t) s := by
  have hnames : tr.stationNames = tr.contentStations.map Station.name ++
      tr.gateStations.map Station.name ++ [] := by simp [stationNames]
  have hlength : (tr.contentStations.map Station.name).length = tr.steps.length := by
    simp [contentStations]
  refine steady_run hready tr.keepsName_gateStations (fun place ht dir hdir => ?_) hnames hlength
  rw [Tree.place_of_name? (hname (by rw [hdir]; simp))] at ht
  exact htakes place ht dir hdir

end Phases

end Train

namespace Memo

variable {m : Memo} {t : Tree} {F : Footprint} {s s' : Site}

def Takes (F : Footprint) (working : Key) (dir : Path) (place : Place) : Prop :=
  ∃ base front name, place.within dir "tree" = base.descend (front ++ [name]) ∧
    F.Covers working base front name

theorem steady_lookup {place : Place} (hready : F.Ready s.files)
    (htakes : Takes F s.files.working m.dir place) :
    Job.Steady F (m.lookup (place.relative "tree")) s := by
  obtain ⟨base, front, name, hpath, hcovers⟩ := htakes
  refine Job.steady_bind hready (Artifact.Store.steady_read hcovers hpath) fun found s₁ _ _ hready₁ => ?_
  cases found with
  | none => exact Job.steady_pure _
  | some payload =>
    dsimp only
    split <;>
      exact Job.steady_bind hready₁ (Job.steady_tell _) fun _ _ _ _ _ => Job.steady_pure _

theorem steady_count (hit : Bool) : Job.Steady F (m.count hit) s := by
  rw [count]
  split
  · split
    · exact Job.steady_countHit
    · exact Job.steady_countMiss
  · exact Job.steady_pure ()

theorem steady_compute {place : Place} (hready : F.Ready s.files)
    (htakes : Takes F s.files.working m.dir place)
    (hinner : Job.Steady F (m.inner.transform t) s) (replace : Bool) :
    Job.Steady F (m.compute (place.relative "tree") replace t) s := by
  obtain ⟨base, front, name, hpath, hcovers⟩ := htakes
  refine Job.steady_bind hready hinner fun r s₁ _ hworking hready₁ => ?_
  rw [← hworking] at hcovers
  refine Job.steady_bind hready₁ (Job.steady_adapt _ ?_) fun _ _ _ _ _ => Job.steady_pure r
  split
  · exact Job.steady_bind hready₁ (Artifact.Store.steady_write _ hready₁ hcovers hpath)
      fun _ _ _ _ _ => Job.steady_pure ()
  · exact Job.steady_bind hready₁ (Artifact.Store.steady_writeOnce _ hready₁ hcovers hpath)
      fun _ _ _ _ _ => Job.steady_pure ()

theorem steady_transform (hready : F.Ready s.files)
    (htakes : ∀ place, t.place = .ok place → Takes F s.files.working m.dir place)
    (hinner : ∀ s₁, s₁.files = s.files → Job.Steady F (m.inner.transform t) s₁) :
    Job.Steady F (m.transform t) s := by
  refine Job.steady_bind hready (Job.steady_ofExcept _ _) fun place s₁ hplaced _ _ => ?_
  obtain ⟨hplace, rfl⟩ := Job.on_ofExcept_ok hplaced
  have htakes := htakes place hplace
  refine Job.steady_bind hready (steady_lookup hready htakes) fun answer s₂ hlookup _ hready₂ => ?_
  refine Job.steady_bind hready₂ (steady_count _) fun _ s₃ hcount _ hready₃ => ?_
  have hfiles : s₃.files = s₁.files := by
    obtain ⟨s', hsame, hon⟩ := m.on_lookup (place.relative "tree") s₁
    rw [hlookup] at hon
    rw [m.on_count] at hcount
    cases hon
    cases hcount
    exact hsame
  have hcompute (replace : Bool) : Job.Steady F (m.compute (place.relative "tree") replace t) s₃ :=
    steady_compute hready₃ (hfiles ▸ htakes) (hinner s₃ hfiles) replace
  cases answer with
  | hit found => exact Job.steady_pure found
  | miss => exact hcompute false
  | undecodable => exact hcompute true

end Memo

/-- The whole way of a tree with a name, through a memo or not. A tree that is found in a memo
must have the name too if there are snapshots. -/
theorem Stage.steady_applyTo {tr : Train} {F : Footprint} {s : Site} {p : Program} {t : Tree}
    {cache : Path} {n : String} (hready : F.Ready s.files) (hkeeps : tr.KeepsName)
    (hname : t.name? = some n)
    (hsnaps : ∀ place, Place.ofName n = .ok place →
      Train.Takes F s.files.working tr.snapshots tr.stationNames place)
    (hmemo : ∀ d ∈ p.digest, ∀ place, Place.ofName n = .ok place →
      Memo.Takes F s.files.working (cache.child d.toHex) place)
    (hsound : tr.snapshots ≠ none → ∀ d ∈ p.digest, ∀ place, Place.ofName n = .ok place →
      Memo.Sound (·.name? = some n) s.files
        (Memo.slot s.files.working (cache.child d.toHex) place)) :
    Job.Steady F (applyTo tr.optimization cache p t) s := by
  have hplace : t.place = Place.ofName n := Tree.place_of_name? hname
  have hcontent (s r s') (hrun : (tr.transform t).on s = (.ok r, s')) : r.name? = some n :=
    hkeeps.name?_of_on_transform hname hrun
  rw [applyTo]
  cases hd : p.digest with
  | none =>
    refine Job.steady_bind hready (Train.steady_transform hready hkeeps hname hsnaps)
      fun r s₁ hrun hworking hready₁ => ?_
    rw [← hworking] at hsnaps
    exact Train.steady_validate hready₁ (fun _ => hcontent s r s₁ hrun) hsnaps
  | some d =>
    refine Job.steady_bind hready ?_ fun r s₁ hrun hworking hready₁ => ?_
    · refine Memo.steady_transform hready (fun place ht => hmemo d hd place (hplace ▸ ht)) ?_
      intro s₁ hfiles
      rw [← hfiles] at hready hsnaps
      exact Train.steady_transform hready hkeeps hname hsnaps
    · rw [← hworking] at hsnaps
      refine Train.steady_validate hready₁ (fun hsnapshots => ?_) hsnaps
      obtain ⟨place, s₂, hplaced, -⟩ := Job.on_bind_ok hrun
      have ht := (Job.on_ofExcept_ok hplaced).1
      have hentry := hsound hsnapshots d hd place (hplace ▸ ht)
      let m : Memo := { inner := tr.optimization, dir := cache.child d.toHex }
      exact Memo.good_of_on_transform (m := m) ht hcontent hentry hrun

end Trainyard
