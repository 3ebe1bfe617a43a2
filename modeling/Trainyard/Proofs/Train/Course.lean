import Trainyard.Proofs.Train

/-!
# The course of a tree through a train

Steps and gates may be added to a train in any order; the steps come first and the gates after
them, each in the order of their addition. What then happens to a tree is told by its course: it
arrives, or a step gives up on it, or a gate finds a diagnostic of its severity. Every tree has
exactly one course on a train without snapshots, and the work on it is that course: the answer,
and which stations were run.
-/

set_option autoImplicit false

namespace Trainyard

def Gate.complaint (g : Gate) (n : Nat) : String := s!"{n} {g.severity.name}(s) found"

theorem Gate.apply_of_clear {g : Gate} {t : Tree}
    (h : ∀ d ∈ t.errors.toList, d.severity ≠ g.severity) : g.apply t = .ok t := by
  simp only [apply, Tree.count_eq_zero.2 h]

theorem Gate.apply_of_found {g : Gate} {t : Tree}
    (h : ∃ d ∈ t.errors.toList, d.severity = g.severity) :
    g.apply t = .error ⟨g.complaint (t.errors.toList.countP (·.severity = g.severity))⟩ := by
  have hcount : t.count g.severity = t.errors.toList.countP (·.severity = g.severity) :=
    Series.count_eq_countP _ _
  have hne : t.count g.severity ≠ 0 := by
    obtain ⟨d, hd, hsame⟩ := h
    exact fun hzero => Tree.count_eq_zero.1 hzero d hd hsame
  rw [apply, ← hcount]
  split
  next hzero => exact absurd hzero hne
  next => rfl

theorem Station.pass_of_fails (station : Station) {t : Tree} {failure : StepFailure}
    (h : station.apply t = .error failure) :
    station.pass t = .error ⟨station.name, failure.message, t.errors.toList⟩ := by
  rw [pass, h, mapError_error]

namespace Train

/-! ## Building a train -/

inductive Addition where
  | step (s : Step)
  | steps (ss : List Step)
  | gate (g : Gate)

namespace Addition

def content : Addition → List Step
  | .step s => [s]
  | .steps ss => ss
  | .gate _ => []

def gates : Addition → List Gate
  | .step _ => []
  | .steps _ => []
  | .gate g => [g]

end Addition

def extend (tr : Train) : Addition → Train
  | .step s => tr.addStep s
  | .steps ss => tr.addSteps ss
  | .gate g => tr.addGate g

def built (additions : List Addition) : Train := additions.foldl extend {}

theorem foldl_extend (additions : List Addition) (tr : Train) :
    additions.foldl extend tr =
      { tr with
        steps := tr.steps ++ additions.flatMap Addition.content
        gates := tr.gates ++ additions.flatMap Addition.gates } := by
  induction additions generalizing tr with
  | nil => simp
  | cons a additions ih =>
    rw [List.foldl_cons, ih]
    cases a <;> simp [extend, addStep, addSteps, addGate, Addition.content, Addition.gates]

/-- Steps and gates keep the order in which they were added, whatever came between. -/
theorem built_eq (additions : List Addition) : built additions =
    ⟨additions.flatMap Addition.content, additions.flatMap Addition.gates, none⟩ :=
  foldl_extend additions {}

/-! ## Courses -/

def chain (steps : List Step) (t : Tree) : Except StepFailure Tree :=
  steps.foldlM (fun t step => step.apply t) t

/-- How a tree fares on steps and then gates: the answer, and the stations that are run. -/
inductive Course (steps : List Step) (gates : List Gate) (t : Tree) :
    Except WorkError Tree → List Station → Prop
  | arrives {r : Tree} (hsteps : chain steps t = .ok r)
      (hclear : ∀ g ∈ gates, ∀ d ∈ r.errors.toList, d.severity ≠ g.severity) :
      Course steps gates t (.ok r) (steps.map .content ++ gates.map .gate)
  | stepFails {before after : List Step} {step : Step} {u : Tree} {failure : StepFailure}
      (hsplit : steps = before ++ step :: after) (hbefore : chain before t = .ok u)
      (hfails : step.apply u = .error failure) :
      Course steps gates t
        (.error (.structural ⟨step.name, failure.message, u.errors.toList⟩))
        ((before ++ [step]).map .content)
  | gateFails {r : Tree} {before after : List Gate} {g : Gate} (hsteps : chain steps t = .ok r)
      (hsplit : gates = before ++ g :: after)
      (hbefore : ∀ g' ∈ before, ∀ d ∈ r.errors.toList, d.severity ≠ g'.severity)
      (hfound : ∃ d ∈ r.errors.toList, d.severity = g.severity) :
      Course steps gates t
        (.error (.structural ⟨g.name,
          g.complaint (r.errors.toList.countP (·.severity = g.severity)), r.errors.toList⟩))
        (steps.map .content ++ (before ++ [g]).map .gate)

/-- What the work of stations leaves behind on a site: the journal names each of them, the content
steps among them are counted, and no file is touched. -/
structure Ran (stations : List Station) (s s' : Site) : Prop where
  files : s'.files = s.files
  journal : ∃ trees : List Tree, trees.length = stations.length ∧
    s'.journal.toList = s.journal.toList ++
      List.zipWith (fun station t => .applying station.name t.nameOrAnonymous) stations trees
  tally : s'.tally =
    { s.tally with applications := s.tally.applications + stations.countP Station.isContent }

theorem Ran.nil (s : Site) : Ran [] s s := ⟨rfl, ⟨[], rfl, by simp⟩, rfl⟩

theorem Ran.append {stations others : List Station} {s s₁ s₂ : Site} (h : Ran stations s s₁)
    (h' : Ran others s₁ s₂) : Ran (stations ++ others) s s₂ := by
  obtain ⟨trees, hlength, hjournal⟩ := h.journal
  obtain ⟨trees', hlength', hjournal'⟩ := h'.journal
  refine ⟨h'.files.trans h.files, ⟨trees ++ trees', ?_, ?_⟩, ?_⟩
  · rw [List.length_append, List.length_append, hlength, hlength']
  · rw [hjournal', hjournal, List.zipWith_append hlength.symm, List.append_assoc]
  · rw [h'.tally, h.tally, List.countP_append, Nat.add_assoc]

theorem ran_announce (station : Station) (t : Tree) (s : Site) :
    ∃ s₁, (station.announce t).on s = (.ok (), s₁) ∧ Ran [station] s s₁ := by
  cases station with
  | content step => exact ⟨_, rfl, rfl, ⟨[t], rfl, by simp [Station.name]⟩, rfl⟩
  | gate g => exact ⟨_, rfl, rfl, ⟨[t], rfl, by simp [Station.name]⟩, rfl⟩

/-! ## Stations that are reached -/

def reached : List Station → Tree → List Station
  | [], _ => []
  | station :: stations, t =>
    station :: match station.pass t with
      | .error _ => []
      | .ok t' => reached stations t'

section Reached

variable {stations others : List Station} {station : Station} {t u : Tree}
  {failure : StructuralFailure}

/-- Without snapshots the stations that are reached are run, and no others. -/
theorem ran_run (position : Nat) (stations : List Station) (t : Tree) (s : Site) :
    Ran (reached stations t) s ((run none position stations t).on s).2 := by
  induction stations generalizing position t s with
  | nil => exact .nil s
  | cons station stations ih =>
    obtain ⟨s₁, hannounce, hran⟩ := ran_announce station t s
    rw [run, Job.on_bind, hannounce, reached]
    simp only [Job.on_bind, Job.on_ofExcept]
    cases station.pass t with
    | error failure => exact hran
    | ok t' => exact hran.append (ih (position + 1) t' s₁)

theorem append_of_passed (others : List Station) (h : passed stations t = .ok u) :
    passed (stations ++ others) t = passed others u ∧
      reached (stations ++ others) t = stations ++ reached others u := by
  induction stations generalizing t with
  | nil =>
    cases h
    exact ⟨rfl, rfl⟩
  | cons station stations ih =>
    rw [List.cons_append, List.cons_append, passed, reached]
    rw [passed] at h
    cases hpass : station.pass t with
    | error failure => simp [hpass] at h
    | ok t' =>
      rw [hpass] at h
      exact ⟨(ih h).1, congrArg (station :: ·) (ih h).2⟩

theorem append_of_stopped (others : List Station) (h : passed stations t = .error failure) :
    passed (stations ++ others) t = .error failure ∧
      reached (stations ++ others) t = reached stations t := by
  induction stations generalizing t with
  | nil => simp [passed] at h
  | cons station stations ih =>
    rw [List.cons_append, passed, reached, reached]
    rw [passed] at h
    cases hpass : station.pass t with
    | error cause =>
      rw [hpass] at h
      exact ⟨h, rfl⟩
    | ok t' =>
      rw [hpass] at h
      exact ⟨(ih h).1, congrArg (station :: ·) (ih h).2⟩

theorem reached_of_passed (h : passed stations t = .ok u) : reached stations t = stations := by
  have hreached := (append_of_passed [] h).2
  rwa [List.append_nil, reached, List.append_nil] at hreached

theorem mem_of_mem_reached (h : station ∈ reached stations t) : station ∈ stations := by
  induction stations generalizing t with
  | nil => simp [reached] at h
  | cons first stations ih =>
    rw [reached] at h
    cases hpass : first.pass t with
    | error failure =>
      rw [hpass] at h
      exact List.mem_cons.2 (.inl (List.mem_singleton.1 h))
    | ok t' =>
      rw [hpass] at h
      exact List.mem_cons.2 ((List.mem_cons.1 h).imp_right ih)

/-- The first station that fails decides and is the last to be reached. -/
theorem passed_of_fails (others : List Station) (hbefore : passed stations t = .ok u)
    (hfails : station.pass u = .error failure) :
    passed (stations ++ station :: others) t = .error failure ∧
      reached (stations ++ station :: others) t = stations ++ [station] := by
  obtain ⟨hpassed, hreached⟩ := append_of_passed (station :: others) hbefore
  rw [hpassed, hreached, passed, reached, hfails]
  exact ⟨rfl, rfl⟩

theorem on_run_plain (position : Nat) (stations : List Station) (t : Tree) (s : Site) :
    ∃ s', (run none position stations t).on s = ((passed stations t).mapError .structural, s') ∧
      Ran (reached stations t) s s' :=
  ⟨_, Job.on_of_fst (on_run_none position stations t s).1, ran_run position stations t s⟩

/-- A train without snapshots sends a tree through its steps and then through its gates. -/
theorem on_apply_plain {tr : Train} (h : tr.snapshots = none) (t : Tree) (s : Site) :
    ∃ s', (tr.optimization.apply t).on s =
        ((passed (tr.contentStations ++ tr.gateStations) t).mapError .structural, s') ∧
      Ran (reached (tr.contentStations ++ tr.gateStations) t) s s' := by
  obtain ⟨s₁, hcontent, hran⟩ := on_run_plain 1 tr.contentStations t s
  simp only [Optimization.apply, optimization, transform, validate, h, Job.on_bind, hcontent]
  cases hpassed : passed tr.contentStations t with
  | error failure =>
    obtain ⟨hstopped, hreached⟩ := append_of_stopped tr.gateStations hpassed
    rw [hstopped, hreached]
    exact ⟨s₁, rfl, hran⟩
  | ok r =>
    obtain ⟨s₂, hgates, hran'⟩ := on_run_plain (tr.steps.length + 1) tr.gateStations r s₁
    obtain ⟨hanswer, hreached⟩ := append_of_passed tr.gateStations hpassed
    rw [reached_of_passed hpassed] at hran
    rw [hanswer, hreached]
    exact ⟨s₂, hgates, hran.append hran'⟩

end Reached

/-! ## Every tree takes its course -/

section Courses

variable {steps : List Step} {gates : List Gate} {t r : Tree} {x : Except WorkError Tree}
  {ran : List Station}

theorem chain_cons (step : Step) (steps : List Step) (t : Tree) :
    chain (step :: steps) t = step.apply t >>= chain steps := List.foldlM_cons

theorem passed_content (h : chain steps t = .ok r) : passed (steps.map .content) t = .ok r := by
  induction steps generalizing t with
  | nil =>
    cases h
    rfl
  | cons step steps ih =>
    rw [chain_cons] at h
    obtain ⟨t', happly, h⟩ := FileSystem.bind_eq_ok.1 h
    rw [List.map_cons, passed, Station.pass, Station.apply, happly]
    exact ih h

theorem passed_gates (h : ∀ g ∈ gates, ∀ d ∈ r.errors.toList, d.severity ≠ g.severity) :
    passed (gates.map .gate) r = .ok r := by
  induction gates with
  | nil => rfl
  | cons g gates ih =>
    obtain ⟨hg, hgates⟩ := List.forall_mem_cons.1 h
    rw [List.map_cons, passed, Station.pass, Station.apply, Gate.apply_of_clear hg]
    exact ih hgates

/-- A course is what becomes of the tree, and names the stations that are reached. -/
theorem Course.eq (h : Course steps gates t x ran) :
    (passed (steps.map .content ++ gates.map .gate) t).mapError .structural = x ∧
      reached (steps.map .content ++ gates.map .gate) t = ran := by
  cases h with
  | arrives hsteps hclear =>
    have hgates := passed_gates hclear
    obtain ⟨hpassed, hreached⟩ := append_of_passed (gates.map .gate) (passed_content hsteps)
    rw [hpassed, hreached, hgates, reached_of_passed hgates]
    exact ⟨rfl, rfl⟩
  | @stepFails before after step u failure hsplit hbefore hfails =>
    have hall : steps.map Station.content ++ gates.map .gate =
        before.map .content ++ .content step :: (after.map .content ++ gates.map .gate) := by
      simp [hsplit]
    obtain ⟨hpassed, hreached⟩ := passed_of_fails (after.map .content ++ gates.map .gate)
      (passed_content hbefore) (Station.pass_of_fails (.content step) hfails)
    rw [hall, hpassed, hreached, List.map_append]
    exact ⟨rfl, rfl⟩
  | @gateFails r before after g hsteps hsplit hbefore hfound =>
    obtain ⟨hstopped, hlast⟩ := passed_of_fails (after.map .gate) (passed_gates hbefore)
      (Station.pass_of_fails (.gate g) (Gate.apply_of_found hfound))
    obtain ⟨hpassed, hreached⟩ := append_of_passed
      (before.map .gate ++ .gate g :: after.map .gate) (passed_content hsteps)
    rw [hsplit, List.map_append, List.map_cons, hpassed, hreached, hstopped, hlast,
      List.map_append]
    exact ⟨rfl, rfl⟩

theorem chain_cases (steps : List Step) (t : Tree) : (∃ r, chain steps t = .ok r) ∨
    ∃ before step after u failure, steps = before ++ step :: after ∧ chain before t = .ok u ∧
      step.apply u = .error failure := by
  induction steps generalizing t with
  | nil => exact .inl ⟨t, rfl⟩
  | cons step steps ih =>
    cases happly : step.apply t with
    | error failure => exact .inr ⟨[], step, steps, t, failure, rfl, rfl, happly⟩
    | ok t' =>
      rcases ih t' with ⟨r, hr⟩ | ⟨before, step', after, u, failure, rfl, hbefore, hfails⟩
      · refine .inl ⟨r, ?_⟩
        rw [chain_cons, happly]
        exact hr
      · refine .inr ⟨step :: before, step', after, u, failure, rfl, ?_, hfails⟩
        rw [chain_cons, happly]
        exact hbefore

theorem exists_course (steps : List Step) (gates : List Gate) (t : Tree) :
    ∃ x ran, Course steps gates t x ran := by
  rcases chain_cases steps t with
    ⟨r, hsteps⟩ | ⟨before, step, after, u, failure, hsplit, hbefore, hfails⟩
  · cases hfind : gates.find? (fun g => r.has g.severity) with
    | none =>
      refine ⟨_, _, .arrives hsteps fun g hg => ?_⟩
      apply Tree.has_eq_false.1
      simpa using List.find?_eq_none.1 hfind g hg
    | some g =>
      obtain ⟨hg, before, after, hsplit, hbefore⟩ := List.find?_eq_some_iff_append.1 hfind
      refine ⟨_, _, .gateFails hsteps hsplit (fun g' hg' => ?_) (Tree.has_eq_true.1 hg)⟩
      apply Tree.has_eq_false.1
      simpa using hbefore g' hg'
  · exact ⟨_, _, .stepFails hsplit hbefore hfails⟩

/-- The work of a train is the one course of the tree. The train may be built by any additions
in any order. -/
theorem apply_takes_its_course (additions : List Addition) (t : Tree) (s : Site) :
    ∃ x ran s', ((built additions).optimization.apply t).on s = (x, s') ∧ Ran ran s s' ∧
      Course (additions.flatMap Addition.content) (additions.flatMap Addition.gates) t x ran ∧
      ∀ y others, Course (additions.flatMap Addition.content)
        (additions.flatMap Addition.gates) t y others → y = x ∧ others = ran := by
  obtain ⟨x, ran, hcourse⟩ := exists_course (additions.flatMap Addition.content)
    (additions.flatMap Addition.gates) t
  obtain ⟨hanswer, hreached⟩ := hcourse.eq
  have hplain : (built additions).snapshots = none := by rw [built_eq]
  obtain ⟨s', happly, hran⟩ := on_apply_plain hplain t s
  refine ⟨x, ran, s', ?_, ?_, hcourse, fun y others hother => ?_⟩
  · rw [happly, built_eq]
    exact congrArg (·, s') hanswer
  · rw [built_eq] at hran
    exact hreached ▸ hran
  · obtain ⟨hanswer', hreached'⟩ := hother.eq
    exact ⟨hanswer'.symm.trans hanswer, hreached'.symm.trans hreached⟩

/-- A gate that was added before the steps finds what both of them reported; the gate for errors
has passed the tree before it, and the one after it is not reached. -/
theorem apply_takes_its_course_stopped :
    let odd : Diagnostic := ⟨.warning, "odd", none, none⟩
    let lint : Step := ⟨"lint", fun t => .ok (t.addError odd)⟩
    let additions : List Addition :=
      [.gate ⟨.error⟩, .gate ⟨.warning⟩, .step lint, .gate ⟨.warning⟩, .steps [lint]]
    let s : Site := { files := .fresh ["work"] }
    ∃ s', ((built additions).optimization.apply (.ofName "a")).on s =
        (.error (.structural ⟨"fail-on-warnings", "2 warning(s) found", [odd, odd]⟩), s') ∧
      Ran [.content lint, .content lint, .gate ⟨.error⟩, .gate ⟨.warning⟩] s s' := by
  intro odd lint additions s
  obtain ⟨x, ran, s', happly, hran, -, hunique⟩ := apply_takes_its_course additions (.ofName "a") s
  have hcourse : Course (additions.flatMap Addition.content) (additions.flatMap Addition.gates)
      (.ofName "a")
      (.error (.structural ⟨"fail-on-warnings", Gate.complaint ⟨.warning⟩ 2, [odd, odd]⟩))
      [.content lint, .content lint, .gate ⟨.error⟩, .gate ⟨.warning⟩] :=
    @Course.gateFails _ _ _ (((Tree.ofName "a").addError odd).addError odd) [⟨.error⟩]
      [⟨.warning⟩] ⟨.warning⟩ rfl rfl (by decide) (by decide)
  obtain ⟨rfl, rfl⟩ := hunique _ _ hcourse
  have hcomplaint : Gate.complaint ⟨.warning⟩ 2 = "2 warning(s) found" := by decide
  exact ⟨s', hcomplaint ▸ happly, hran⟩

end Courses

end Train

end Trainyard
