import Trainyard.Event
import Trainyard.Tree.Json

/-!
# Jobs

A job works on a site: the files, the journal of events, and the tally of what
was looked up and applied. It may fail; what it did before that stays.
-/

set_option autoImplicit false

namespace Trainyard

structure Tally where
  hits : Nat := 0
  misses : Nat := 0
  applications : Nat := 0
  deriving DecidableEq

structure Site where
  files : FileSystem
  journal : Array Event := #[]
  tally : Tally := {}

/-- Work in single actions. An action changes the site and gives an answer, and the work goes on
with the answer. Between two actions others may change the site. -/
inductive Job (ε α : Type) : Type 1 where
  | done (result : Except ε α)
  | act {β : Type} (action : Site → β × Site) (next : β → Job ε α)

namespace Job

variable {ε ε' α β : Type}

def on : Job ε α → Site → Except ε α × Site
  | done result, s => (result, s)
  | act action next, s =>
    let (answer, s) := action s
    (next answer).on s

def single (action : Site → Except ε α × Site) : Job ε α := act action done

def andThen (f : Except ε α → Job ε' β) : Job ε α → Job ε' β
  | done result => f result
  | act action next => act action fun answer => (next answer).andThen f

def bind (job : Job ε α) (f : α → Job ε β) : Job ε β :=
  job.andThen fun
    | .ok a => f a
    | .error e => done (.error e)

def adapt (f : ε' → ε) (job : Job ε' α) : Job ε α :=
  job.andThen fun result => done (result.mapError f)

def attempt (job : Job ε' α) : Job ε (Except ε' α) := job.andThen fun result => done (.ok result)

instance : Monad (Job ε) where
  pure a := done (.ok a)
  bind := Job.bind

def fail (e : ε) : Job ε α := done (.error e)

@[simp] theorem on_pure (a : α) (s : Site) : (pure a : Job ε α).on s = (.ok a, s) := rfl

@[simp] theorem on_fail (e : ε) (s : Site) : (fail e : Job ε α).on s = (.error e, s) := rfl

@[simp] theorem on_single (action : Site → Except ε α × Site) (s : Site) :
    (single action).on s = action s := rfl

theorem on_andThen (f : Except ε α → Job ε' β) (job : Job ε α) (s : Site) :
    (job.andThen f).on s = (f (job.on s).1).on (job.on s).2 := by
  induction job generalizing s with
  | done result => rfl
  | act action next ih => exact ih (action s).1 (action s).2

/-- What follows a job sees its site; a failure ends the work and keeps the site. -/
theorem on_bind (job : Job ε α) (f : α → Job ε β) (s : Site) :
    (job >>= f).on s = match job.on s with
      | (.ok a, s) => (f a).on s
      | (.error e, s) => (.error e, s) := by
  show (job.bind f).on s = _
  rw [bind, on_andThen]
  rcases job.on s with ⟨result, s₁⟩
  cases result <;> rfl

def ofExcept (f : ε' → ε) : Except ε' α → Job ε α
  | .ok a => pure a
  | .error e => fail (f e)

def files : Job ε FileSystem := single fun s => (.ok s.files, s)

def tell (e : Event) : Job ε Unit :=
  single fun s => (.ok (), { s with journal := s.journal.push e })

def countHit : Job ε Unit :=
  single fun s => (.ok (), { s with tally := { s.tally with hits := s.tally.hits + 1 } })

def countMiss : Job ε Unit :=
  single fun s => (.ok (), { s with tally := { s.tally with misses := s.tally.misses + 1 } })

def countApplication : Job ε Unit :=
  single fun s =>
    (.ok (), { s with tally := { s.tally with applications := s.tally.applications + 1 } })

def ask (f : OsError → ε) (question : FileSystem → Except OsError α) : Job ε α :=
  single fun s => ((question s.files).mapError f, s)

def change (f : OsError → ε) (action : FileSystem → Except OsError FileSystem) : Job ε Unit :=
  single fun s =>
    match action s.files with
    | .ok fs => (.ok (), { s with files := fs })
    | .error e => (.error (f e), s)

def makeDirectories (f : OsError → ε) (dir : Path) : Job ε Unit :=
  single fun s =>
    let (result, fs) := s.files.makeDirectories dir
    (result.mapError f, { s with files := fs })

def makeParent (f : Path → OsError → ε) (p : Path) : Job ε Unit :=
  match p.parent? with
  | some dir => makeDirectories (f dir) dir
  | none => pure ()

def writeText (f : Path → OsError → ε) (p : Path) (s : String) : Job ε Unit := do
  makeParent f p
  change (f p) (·.write p s.toUTF8)

end Job

namespace Tree

def load (p : Path) : Job TreeError Tree := do
  match parse? (← Job.ask (.io p) (·.readText p)) with
  | some t => pure t
  | none => Job.fail (.parse p)

def save (t : Tree) (p : Path) : Job TreeError Unit := Job.writeText .io p t.render

end Tree

end Trainyard
