import Mathlib.Data.Finset.Card
import Trainyard.Catalog
import Trainyard.Proofs.Artifact
import Trainyard.Proofs.Json.Record
import Trainyard.Proofs.Json.RoundTrip

/-!
# A catalog keeps what was added last, in the order names came

Adding a program either takes the place of the one with its name or goes to the end,
so names stay apart and in the order they first came. What a catalog is written as is
read back as the same catalog, whatever the texts in it, so saving it and going on with
what was read changes nothing.
-/

set_option autoImplicit false

namespace Trainyard

open Json (Value Fields)

theorem Scope.ofName?_name (s : Scope) : ofName? s.name = some s := by
  cases s <;> decide

/-! ## Programs and catalogs as JSON -/

namespace Program

theorem plain_pathJson (p : Option Path) : (pathJson p).Plain := by
  cases p with
  | none => exact .null
  | some p => exact .text p.text

theorem asOptional?_pathJson (p : Option Path) : (pathJson p).asOptional? path? = some p := by
  cases p <;> rfl

theorem asOptional?_digest? (d : Option Digest) :
    (Value.textOrNull (d.map Digest.toHex)).asOptional? digest? = some d := by
  cases d with
  | none => rfl
  | some d =>
    show (digest? (.text d.toHex)).map some = some (some d)
    simp [digest?, Value.asText?, Value.text, Digest.ofHex_toHex]

theorem plain_toJson (p : Program) : p.toJson.Plain := by
  refine .record ?_
  simp [Value.Plain.text, Value.Plain.textOrNull, plain_pathJson]

theorem ofJson?_toJson (p : Program) (room : Nat) : ofJson? (room + 1) p.toJson = some p := by
  rw [ofJson?, toJson, Fields.ofValue?_record]
  · simp [Fields.required, Fields.defaulted, Fields.get?, Value.asName?, Value.text,
      Value.asText?, path?, Scope.ofName?_name, asOptional?_pathJson, asOptional?_digest?]
  · rfl
  · decide

end Program

namespace Catalog

theorem plain_toJson (c : Catalog) : c.toJson.Plain := by
  have hprograms : (Value.array (c.programs.map Program.toJson)).Plain :=
    .array (by simp [Program.plain_toJson])
  refine .record ?_
  simp [hprograms]

theorem ofJson?_toJson (c : Catalog) (room : Nat) : ofJson? (room + 3) c.toJson = some c := by
  have hprograms : (c.programs.map Program.toJson).mapM (Program.ofJson? (room + 1)) =
      some c.programs := by
    have hread := Json.mapM_eq_some (g := id) c.programs fun p _ => p.ofJson?_toJson room
    rw [List.map_id] at hread
    rw [List.mapM_map]
    exact hread
  rw [ofJson?, toJson, Fields.ofValue?_record]
  · simp [Fields.defaulted, Fields.get?, Value.asList?, hprograms]
  · rfl
  · decide

theorem parse?_render (c : Catalog) : parse? c.toJson.render = some c := by
  rw [parse?, Json.parse?_render c.plain_toJson]
  exact c.ofJson?_toJson 124

/-! ## Saving and loading -/

variable {c : Catalog} {p : Path} {s : Site}

theorem on_load_of_readText (h : s.files.readText p = .ok c.toJson.render) :
    (load p).on s = (.ok c, s) := by
  rw [load, Job.on_bind, Job.on_ask, h]
  simp only [mapError_ok, c.parse?_render, Job.on_pure]

theorem readText_of_on_save {s' : Site} {u : Unit} (h : (c.save p).on s = (.ok u, s')) :
    s'.files.readText p = .ok c.toJson.render :=
  FileSystem.readText_eq_ok.2 ⟨_, _, Job.on_writeText_ok h, Bytes.fromUTF8?_toUTF8 _⟩

/-! ## Names -/

def names (c : Catalog) : List String := c.programs.map Program.name

theorem map_name_replaceFirst (p : Program) (ps : List Program) :
    (replaceFirst p ps).map Program.name =
      if p.name ∈ ps.map Program.name then ps.map Program.name
      else ps.map Program.name ++ [p.name] := by
  induction ps with
  | nil => simp [replaceFirst]
  | cons q qs ih =>
    rw [replaceFirst]
    by_cases hq : q.name = p.name
    · simp [hq]
    · rw [if_neg hq, List.map_cons, ih]
      by_cases hmem : p.name ∈ qs.map Program.name
      · rw [if_pos hmem, List.map_cons, if_pos (List.mem_cons_of_mem _ hmem)]
      · rw [if_neg hmem, List.map_cons, if_neg]
        · rfl
        · simpa [Ne.symm hq] using hmem

theorem names_add (c : Catalog) (p : Program) :
    (c.add p).names = if p.name ∈ c.names then c.names else c.names ++ [p.name] :=
  map_name_replaceFirst p c.programs

theorem eraseDups_concat (names : List String) (name : String) :
    (names ++ [name]).eraseDups =
      if name ∈ names.eraseDups then names.eraseDups else names.eraseDups ++ [name] := by
  rw [List.eraseDups_append]
  by_cases h : name ∈ names
  · simp [h, List.removeAll]
  · simp [h, List.removeAll, List.eraseDups_cons]

/-- The catalog that shows what was added: names in the order they first came, and under each
name what came last. -/
structure Shows (c : Catalog) (added : List Program) : Prop where
  names : c.names = (added.map Program.name).eraseDups
  nodup : c.names.Nodup
  get? : ∀ name, c.get? name = added.reverse.find? (·.name = name)

namespace Shows

variable {added : List Program}

theorem empty : Shows {} [] := ⟨rfl, .nil, fun _ => rfl⟩

theorem add (h : Shows c added) (p : Program) : Shows (c.add p) (added ++ [p]) where
  names := by
    rw [names_add, List.map_append, List.map_singleton, eraseDups_concat, ← h.names]
  nodup := by
    rw [names_add]
    by_cases hmem : p.name ∈ c.names
    · rw [if_pos hmem]
      exact h.nodup
    · rw [if_neg hmem]
      simpa using h.nodup.concat hmem
  get? name := by
    rw [get?_add, List.reverse_append, List.reverse_singleton, List.singleton_append,
      List.find?_cons, h.get?]
    by_cases hname : name = p.name
    · simp [hname]
    · simp [hname, Ne.symm hname]

theorem foldl_add (h : Shows c added) (more : List Program) :
    Shows (more.foldl Catalog.add c) (added ++ more) := by
  induction more generalizing c added with
  | nil => simpa using h
  | cons p more ih => simpa using ih (h.add p)

theorem size (h : Shows c added) : c.size = (added.map Program.name).toFinset.card := by
  have hnames : (added.map Program.name).toFinset = c.names.toFinset := by
    ext name
    simp [h.names]
  rw [hnames, List.toFinset_card_of_nodup h.nodup]
  simp [Catalog.size, Catalog.names]

end Shows

/-! ## Catalogs in use -/

/-- What happens to a catalog in use: a program is added, the catalog is saved, or saved and then
replaced by what is loaded from there, or anything at all happens to the files. -/
inductive Turn where
  | add (p : Program)
  | save (p : Path)
  | reload (p : Path)
  | elsewhere (s : Site)

namespace Turn

def added? : Turn → Option Program
  | .add p => some p
  | _ => none

def take : Catalog × Site → Turn → Catalog × Site
  | (c, s), .add p => (c.add p, s)
  | (c, s), .save p => (c, ((c.save p).on s).2)
  | (c, s), .reload p =>
    match (c.save p).on s with
    | (.error _, s') => (c, s')
    | (.ok (), s') =>
      match (load p).on s' with
      | (.error _, s'') => (c, s'')
      | (.ok c', s'') => (c', s'')
  | (c, _), .elsewhere s => (c, s)

theorem fst_take (turn : Turn) (c : Catalog) (s : Site) :
    (take (c, s) turn).1 = turn.added?.elim c c.add := by
  cases turn with
  | add p => rfl
  | save p => rfl
  | elsewhere s' => rfl
  | reload p =>
    rw [take]
    rcases hsave : (c.save p).on s with ⟨r, s'⟩
    cases r with
    | error e => rfl
    | ok u => simp only [on_load_of_readText (readText_of_on_save hsave)]; rfl

theorem fst_foldl_take (turns : List Turn) (c : Catalog) (s : Site) :
    (turns.foldl take (c, s)).1 = (turns.filterMap added?).foldl Catalog.add c := by
  induction turns generalizing c s with
  | nil => rfl
  | cons turn turns ih =>
    have hfirst := turn.fst_take c s
    rw [List.foldl_cons, ih (take (c, s) turn).1 (take (c, s) turn).2, hfirst, List.filterMap_cons]
    cases turn.added? <;> rfl

end Turn

/-- However a catalog is used, starting from an empty one: its names are apart and stand in the
order they first came, under each name is what was added last, and its size counts the names that
came. It can be saved wherever any other catalog can, and as long as the text that was saved is
there, loading gives the very same catalog. -/
theorem use_keeps_latest (turns : List Turn) (s : Site) :
    let c := (turns.foldl Turn.take ({}, s)).1
    let added := turns.filterMap Turn.added?
    c.names.Nodup ∧ c.names = (added.map Program.name).eraseDups ∧
      (∀ name, c.get? name = added.reverse.find? (·.name = name)) ∧
      c.size = (added.map Program.name).toFinset.card ∧
      ∀ (p : Path) (site : Site),
        (∀ other : Catalog, ((c.save p).on site).1 = ((other.save p).on site).1) ∧
        ∀ site', (c.save p).on site = (.ok (), site') →
          ∀ later : Site, later.files.readText p = site'.files.readText p →
            (load p).on later = (.ok c, later) := by
  intro c added
  have hshows : Shows c added := by
    have hcatalog : c = added.foldl Catalog.add {} := Turn.fst_foldl_take turns {} s
    rw [hcatalog]
    exact Shows.empty.foldl_add added
  refine ⟨hshows.nodup, hshows.names, hshows.get?, hshows.size, fun p site => ⟨fun other => ?_, ?_⟩⟩
  · exact Job.fst_on_writeText_eq _ _ _ _ _
  · intro site' hsave later hlater
    exact on_load_of_readText (hlater.trans (readText_of_on_save hsave))

/-- A catalog that is written and read between additions, one of them under a known name. -/
theorem use_keeps_latest_reloaded :
    let first : Program := { name := "a", source := ⟨"a.eo"⟩, intermediate := ⟨"a.json"⟩ }
    let newer : Program := { first with scope := .test, optimized := some ⟨"\"o\"\n.json"⟩ }
    let other : Program := { first with name := "b" }
    let s : Site := { files := .fresh ["work"] }
    let file : Path := ⟨"out/c.json"⟩
    let c := ([.add first, .reload file, .add other, .add newer, .reload file].foldl Turn.take
      ({}, s)).1
    c.names = ["a", "b"] ∧ c.get? "a" = some newer ∧ c.get? "c" = none ∧ c.size = 2 ∧
      ∃ s', (c.save file).on s = (.ok (), s') ∧ (load file).on s' = (.ok c, s') := by
  intro first newer other s file c
  obtain ⟨-, hnames, hget, hsize, hfile⟩ := use_keeps_latest
    [.add first, .reload file, .add other, .add newer, .reload file] s
  obtain ⟨hother, hload⟩ := hfile file s
  have hempty : ((save {} file).on s).1 = .ok () := by decide +kernel
  have hsave : (c.save file).on s = (.ok (), ((c.save file).on s).2) :=
    Prod.ext ((hother {}).trans hempty) rfl
  exact ⟨hnames.trans (by decide), (hget "a").trans (by decide), (hget "c").trans (by decide),
    hsize.trans (by decide), _, hsave, hload _ hsave _ rfl⟩

end Catalog

end Trainyard
