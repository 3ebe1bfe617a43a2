import Trainyard.Json.Reader
import Trainyard.Proofs.Json.Lexeme

/-!
# A written value is read back

The printer lays out the tokens of a value with line breaks between them, and the
reader builds the value from the tokens again. Both are followed from one value to
the next inside whatever encloses them: the text before it, the stack above it.
-/

set_option autoImplicit false

namespace Trainyard.Json

open Token (Piece spelled)

namespace Value

def first : Value → Token
  | .null => .null
  | .bool b => .bool b
  | .number literal => .number literal
  | .string text => .string text
  | .array _ => .openBracket
  | .object _ => .openBrace

def newLine (level : Nat) : List Char := '\n' :: List.replicate (2 * level) ' '

mutual

def more (level : Nat) : Value → List Piece
  | .array [] => [([], .closeBracket)]
  | .array (v :: vs) =>
    (newLine (level + 1), v.first) :: (v.more (level + 1) ++ moreItems (level + 1) vs ++
      [(newLine level, .closeBracket)])
  | .object [] => [([], .closeBrace)]
  | .object ((k, v) :: ms) =>
    (newLine (level + 1), .string k) :: ([], .colon) :: ([' '], v.first) ::
      (v.more (level + 1) ++ moreMembers (level + 1) ms ++ [(newLine level, .closeBrace)])
  | _ => []

def moreItems (level : Nat) : List Value → List Piece
  | [] => []
  | v :: vs => ([], .comma) :: (newLine level, v.first) :: (v.more level ++ moreItems level vs)

def moreMembers (level : Nat) : List (Option String × Value) → List Piece
  | [] => []
  | (k, v) :: ms =>
    ([], .comma) :: (newLine level, .string k) :: ([], .colon) :: ([' '], v.first) ::
      (v.more level ++ moreMembers level ms)

end

inductive Plain : Value → Prop
  | null : Plain .null
  | bool (b : Bool) : Plain (.bool b)
  | nat (n : Nat) : Plain (.nat n)
  | text (s : String) : Plain (.text s)
  | array {vs : List Value} (h : ∀ v ∈ vs, Plain v) : Plain (.array vs)
  | object {ms : List (Option String × Value)} (hk : ∀ m ∈ ms, m.1.isSome)
      (h : ∀ m ∈ ms, Plain m.2) : Plain (.object ms)

end Value

/-! ## The printer -/

namespace Printer

open Value (newLine)

theorem toList_blanks (n : Nat) (out : String) :
    (blanks n out).toList = out.toList ++ List.replicate n ' ' := by
  induction n generalizing out with
  | zero => simp [blanks]
  | succ n ih => simp [blanks, ih, List.replicate_succ]

theorem toList_line (level : Nat) (out : String) :
    (line level out).toList = out.toList ++ newLine level := by
  simp [line, toList_blanks, newLine]

mutual

theorem toList_value (level : Nat) (v : Value) (out : String) :
    (value level v out).toList = out.toList ++ v.first.lexeme ++ spelled (v.more level) := by
  match v with
  | .null => simp [value, Value.first, Value.more, Token.lexeme, spelled]
  | .bool true => simp [value, Value.first, Value.more, Token.lexeme, spelled]
  | .bool false => simp [value, Value.first, Value.more, Token.lexeme, spelled]
  | .number literal => simp [value, Value.first, Value.more, Token.lexeme, spelled]
  | .string text =>
    simp [value, Value.first, Value.more, Token.lexeme, spelled, toList_string text out]
  | .array [] => simp [value, Value.first, Value.more, Token.lexeme, spelled]
  | .array (v :: vs) =>
    simp [value, Value.first, Value.more, Token.lexeme, spelled, toList_line,
      toList_items (level + 1) vs, toList_value (level + 1) v]
  | .object [] => simp [value, Value.first, Value.more, Token.lexeme, spelled]
  | .object ((k, v) :: ms) =>
    simp [value, Value.first, Value.more, Token.lexeme, spelled, toList_line,
      toList_members (level + 1) ms, toList_value (level + 1) v, toList_string k (line _ _)]

theorem toList_items (level : Nat) (vs : List Value) (out : String) :
    (items level vs out).toList = out.toList ++ spelled (Value.moreItems level vs) := by
  match vs with
  | [] => simp [items, Value.moreItems, spelled]
  | v :: vs =>
    simp [items, Value.moreItems, Token.lexeme, spelled, toList_line,
      toList_items level vs, toList_value level v]

theorem toList_members (level : Nat) (ms : List (Option String × Value)) (out : String) :
    (members level ms out).toList = out.toList ++ spelled (Value.moreMembers level ms) := by
  match ms with
  | [] => simp [members, Value.moreMembers, spelled]
  | (k, v) :: ms =>
    simp [members, Value.moreMembers, Token.lexeme, spelled, toList_line,
      toList_members level ms, toList_value level v, toList_string k (line _ _)]

end

end Printer

theorem Value.toList_render (v : Value) :
    v.render.toList = spelled (([], v.first) :: v.more 0) := by
  simp [render, Printer.toList_value, spelled]

/-! ## The reader -/

namespace Reader

theorem run_firstItem {t : Token} (h : t ≠ .closeBracket) (stack : List Frame) (r : List Token) :
    run stack .firstItem (t :: r) = run (.array [] :: stack) .value (t :: r) := by
  cases t <;> first | exact absurd rfl h | rfl

theorem first_ne_closeBracket (v : Value) : v.first ≠ .closeBracket := by
  cases v <;> simp [Value.first]

mutual

theorem run_value (level : Nat) (v : Value) (stack : List Frame) (r : List Token) :
    run stack .value (v.first :: ((v.more level).map Prod.snd ++ r)) = run stack (.after v) r := by
  match v with
  | .null => rfl
  | .bool _ => rfl
  | .number _ => rfl
  | .string _ => rfl
  | .array [] => rfl
  | .array (v :: vs) =>
    have hfirst := run_firstItem (first_ne_closeBracket v) stack
      ((v.more (level + 1)).map Prod.snd ++ ((Value.moreItems (level + 1) vs).map Prod.snd ++
        .closeBracket :: r))
    rw [run_value (level + 1) v, run_items (level + 1) vs] at hfirst
    simpa [Value.first, Value.more, run, start] using hfirst
  | .object [] => rfl
  | .object ((k, v) :: ms) =>
    have hv := run_value (level + 1) v (.object [] k :: stack)
      ((Value.moreMembers (level + 1) ms).map Prod.snd ++ .closeBrace :: r)
    rw [run_members (level + 1) ms] at hv
    simpa [Value.first, Value.more, run, start] using hv

theorem run_items (level : Nat) (vs : List Value) (v : Value) (done : List Value)
    (stack : List Frame) (r : List Token) :
    run (.array done :: stack) (.after v)
      ((Value.moreItems level vs).map Prod.snd ++ .closeBracket :: r) =
      run stack (.after (.array (done.reverse ++ v :: vs))) r := by
  match vs with
  | [] => simp [Value.moreItems, run]
  | w :: vs =>
    have hw := run_value level w (.array (v :: done) :: stack)
      ((Value.moreItems level vs).map Prod.snd ++ .closeBracket :: r)
    rw [run_items level vs] at hw
    simpa [Value.moreItems, run] using hw

theorem run_members (level : Nat) (ms : List (Option String × Value)) (k : Option String)
    (v : Value) (done : List (Option String × Value)) (stack : List Frame) (r : List Token) :
    run (.object done k :: stack) (.after v)
      ((Value.moreMembers level ms).map Prod.snd ++ .closeBrace :: r) =
      run stack (.after (.object (done.reverse ++ (k, v) :: ms))) r := by
  match ms with
  | [] => simp [Value.moreMembers, run]
  | (l, w) :: ms =>
    have hw := run_value level w (.object ((k, v) :: done) l :: stack)
      ((Value.moreMembers level ms).map Prod.snd ++ .closeBrace :: r)
    rw [run_members level ms] at hw
    simpa [Value.moreMembers, run] using hw

end

end Reader

/-! ## Plain values -/

namespace Value

def Kept (p : Piece) : Prop := p.Sound ∧ p.Apart

theorem kept_newLine (t : Token) (h : t.Plain) (level : Nat) : Kept (newLine level, t) := by
  refine ⟨⟨?_, h⟩, .inl (by simp [newLine])⟩
  intro c hc
  simp only [newLine, List.mem_cons, List.mem_replicate] at hc
  rcases hc with rfl | ⟨-, rfl⟩ <;> decide

theorem kept_blank (t : Token) (h : t.Plain) : Kept ([' '], t) :=
  ⟨⟨by simp [Token.isBlank], h⟩, .inl (by simp)⟩

theorem kept_mark (t : Token) (h : t.Plain) (hm : t.isMark = true) : Kept ([], t) :=
  ⟨⟨nofun, h⟩, .inr hm⟩

theorem Plain.record {fields : List (String × Value)} (h : ∀ f ∈ fields, f.2.Plain) :
    (Value.record fields).Plain := by
  refine .object ?_ ?_ <;> intro m hm <;> obtain ⟨f, hf, rfl⟩ := List.mem_map.1 hm
  · rfl
  · exact h f hf

theorem Plain.textOrNull (s : Option String) : (Value.textOrNull s).Plain := by
  cases s with
  | none => exact .null
  | some s => exact .text s

theorem Plain.first {v : Value} (h : v.Plain) : v.first.Plain := by
  cases h with
  | nat n => exact ⟨n, rfl⟩
  | text s => rfl
  | _ => trivial

theorem kept_moreItems {vs : List Value} {level : Nat} (h : ∀ v ∈ vs, v.Plain)
    (hmore : ∀ v ∈ vs, ∀ p ∈ v.more level, Kept p) : ∀ p ∈ moreItems level vs, Kept p := by
  induction vs with
  | nil => simp [moreItems]
  | cons v vs ih =>
    have hrest := ih (fun w hw => h w (by simp [hw])) fun w hw => hmore w (by simp [hw])
    simp only [moreItems, List.forall_mem_cons, List.forall_mem_append]
    exact ⟨kept_mark .comma trivial rfl, kept_newLine v.first (h v (by simp)).first level,
      hmore v (by simp), hrest⟩

theorem kept_moreMembers {ms : List (Option String × Value)} {level : Nat}
    (hk : ∀ m ∈ ms, m.1.isSome) (h : ∀ m ∈ ms, m.2.Plain)
    (hmore : ∀ m ∈ ms, ∀ p ∈ m.2.more level, Kept p) : ∀ p ∈ moreMembers level ms, Kept p := by
  induction ms with
  | nil => simp [moreMembers]
  | cons m ms ih =>
    have hrest := ih (fun n hn => hk n (by simp [hn])) (fun n hn => h n (by simp [hn]))
      fun n hn => hmore n (by simp [hn])
    simp only [moreMembers, List.forall_mem_cons, List.forall_mem_append]
    exact ⟨kept_mark .comma trivial rfl, kept_newLine (.string m.1) (hk m (by simp)) level,
      kept_mark .colon trivial rfl, kept_blank m.2.first (h m (by simp)).first,
      hmore m (by simp), hrest⟩

theorem kept_more {v : Value} (h : v.Plain) (level : Nat) : ∀ p ∈ v.more level, Kept p := by
  induction h generalizing level with
  | null => simp [more]
  | bool b => simp [more]
  | nat n => simp [more, nat]
  | text s => simp [more, text]
  | @array vs h ih =>
    cases vs with
    | nil => simpa [more] using kept_mark .closeBracket trivial rfl
    | cons v vs =>
      simp only [more, List.forall_mem_cons, List.forall_mem_append]
      exact ⟨kept_newLine v.first (h v (by simp)).first (level + 1),
        ⟨ih v (by simp) (level + 1), kept_moreItems (fun w hw => h w (by simp [hw]))
          fun w hw => ih w (by simp [hw]) (level + 1)⟩,
        kept_newLine .closeBracket trivial level, nofun⟩
  | @object ms hk h ih =>
    cases ms with
    | nil => simpa [more] using kept_mark .closeBrace trivial rfl
    | cons m ms =>
      simp only [more, List.forall_mem_cons, List.forall_mem_append]
      exact ⟨kept_newLine (.string m.1) (hk m (by simp)) (level + 1),
        kept_mark .colon trivial rfl, kept_blank m.2.first (h m (by simp)).first,
        ⟨ih m (by simp) (level + 1), kept_moreMembers (fun n hn => hk n (by simp [hn]))
          (fun n hn => h n (by simp [hn])) fun n hn => ih n (by simp [hn]) (level + 1)⟩,
        kept_newLine .closeBrace trivial level, nofun⟩

end Value

theorem parse?_render {v : Value} (h : v.Plain) : parse? v.render = some v := by
  have hmore := Value.kept_more h 0
  have hscan := Token.scan_spelled (([], v.first) :: v.more 0)
    (List.forall_mem_cons.2 ⟨⟨nofun, h.first⟩, fun p hp => (hmore p hp).1⟩)
    fun p hp => (hmore p hp).2
  have hrun := Reader.run_value 0 v [] []
  rw [List.append_nil] at hrun
  rw [parse?, Value.toList_render, hscan]
  simpa [Reader.run] using hrun

end Trainyard.Json
