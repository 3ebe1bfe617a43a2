import Mathlib.Order.Basic
import Trainyard.Json.Printer
import Trainyard.Json.Token

/-!
# Tokens and their characters

Each token has the characters it is written with. A text made of tokens, with
blanks wherever two of them could run together, is cut into just these tokens.
-/

set_option autoImplicit false

namespace Trainyard.Json

/-! ## Strings -/

namespace Printer

def escaped (c : Char) : List Char := (escape "" c).toList

theorem escape_eq_append (out : String) (c : Char) : escape out c = out ++ escape "" c := by
  simp only [escape, apply_ite (out ++ ·), String.push_eq_append, String.append_assoc,
    String.empty_append]

theorem toList_escape (out : String) (c : Char) :
    (escape out c).toList = out.toList ++ escaped c := by
  rw [escape_eq_append, String.toList_append, escaped]

theorem toList_foldl_escape (cs : List Char) (out : String) :
    (cs.foldl escape out).toList = out.toList ++ cs.flatMap escaped := by
  induction cs generalizing out with
  | nil => simp
  | cons c cs ih => simp [ih, toList_escape]

theorem toList_string (s : Option String) (out : String) :
    (string s out).toList = out.toList ++ (string s "").toList := by
  cases s with
  | none => simp [string]
  | some s => simp [string, toList_foldl_escape]

end Printer

namespace Token

theorem quoted_shown {c : Char} (h : ' ' ≤ c ∧ c ≠ '"' ∧ c ≠ '\\') (s : Spelling)
    (r : List Char) : quoted s (c :: r) = quoted (s.char c) r := by
  have hc : ¬ (c < ' ' ∨ c = '\\') := by
    rintro (hlt | rfl)
    · exact Char.not_lt.2 h.1 hlt
    · exact h.2.2 rfl
  rw [quoted.eq_def]
  split
  case h_5 =>
    rename_i heq
    cases heq
    rw [if_neg hc]
  all_goals simp_all

theorem quoted_numbered {c : Char} (h : c < ' ') (cs r : List Char) :
    quoted ⟨some cs, none⟩ ('\\' :: 'u' :: '0' :: '0' :: Text.Hex.digit (c.toNat / 16) ::
      Text.Hex.digit (c.toNat % 16) :: r) = quoted ⟨some (c :: cs), none⟩ r := by
  have hn : c.toNat < 32 := h
  have hnumber : Text.Hex.number?
      ['0', '0', Text.Hex.digit (c.toNat / 16), Text.Hex.digit (c.toNat % 16)] =
      some c.toNat := by
    have hz : Text.Hex.value? '0' = some 0 := by decide
    have hdiv := Nat.div_add_mod c.toNat 16
    simp [Text.Hex.number?, hz, Text.Hex.value?_digit _ (show c.toNat / 16 < 16 by omega),
      Text.Hex.value?_digit _ (show c.toNat % 16 < 16 by omega), hdiv]
  have hhigh : isHighSurrogate c.toNat = false := by simp [isHighSurrogate]; omega
  have hlow : isLowSurrogate c.toNat = false := by simp [isLowSurrogate]; omega
  simp [quoted, hnumber, Spelling.unit, hhigh, hlow]

theorem quoted_escaped (c : Char) (cs r : List Char) :
    quoted ⟨some cs, none⟩ (Printer.escaped c ++ r) = quoted ⟨some (c :: cs), none⟩ r := by
  by_cases hshown : ' ' ≤ c ∧ c ≠ '"' ∧ c ≠ '\\'
  · simpa [Printer.escaped, Printer.escape, hshown, Spelling.char] using
      quoted_shown hshown ⟨some cs, none⟩ r
  · rw [Printer.escaped, Printer.escape, if_neg hshown]
    repeat' split
    case isFalse hquote hslash _ _ _ _ _ =>
      have hlt : c < ' ' := by
        by_contra hge
        exact hshown ⟨Char.not_lt.1 hge, hquote, hslash⟩
      simpa using quoted_numbered hlt cs r
    all_goals
      subst c
      simp [quoted, escaped?, Spelling.char]

/-- A written string is read back up to its closing quote. -/
theorem quoted_flatMap_escaped (l cs r : List Char) :
    quoted ⟨some cs, none⟩ (l.flatMap Printer.escaped ++ '"' :: r) =
      some (some (String.ofList (cs.reverse ++ l)), r) := by
  induction l generalizing cs with
  | nil => simp [quoted, Spelling.text?]
  | cons c l ih =>
    rw [List.flatMap_cons, List.append_assoc, quoted_escaped, ih]
    simp

/-! ## Numbers -/

def Ends (cs : List Char) : Prop :=
  ∀ c ∈ cs.head?, isDigit c = false ∧ c ≠ '.' ∧ c ≠ 'e' ∧ c ≠ 'E'

theorem isDigit_of_mem_toDigits {n : Nat} {c : Char} (h : c ∈ Nat.toDigits 10 n) :
    isDigit c = true := by
  have hc := Nat.isDigit_of_mem_toDigits (by decide) (by decide) h
  simpa [Char.isDigit, isDigit, Char.le_def] using hc

theorem toDigits_eq_cons (n : Nat) :
    ∃ d ds, Nat.toDigits 10 n = d :: ds ∧ isDigit d = true := by
  obtain ⟨d, ds, h⟩ := List.exists_cons_of_ne_nil (Nat.toDigits_ne_nil (n := n) (b := 10))
  exact ⟨d, ds, h, isDigit_of_mem_toDigits (n := n) (by simp [h])⟩

theorem length_of_head_toDigits (n : Nat) (h : (Nat.toDigits 10 n).head? = some '0') :
    (Nat.toDigits 10 n).length = 1 := by
  induction n using Nat.strongRecOn with
  | _ n ih =>
    rw [Nat.toDigits_eq_if (by decide)] at h ⊢
    split at h
    next hn => rw [if_pos hn]; rfl
    next hn =>
      obtain ⟨d, ds, hd, -⟩ := toDigits_eq_cons (n / 10)
      replace h : (Nat.toDigits 10 (n / 10)).head? = some '0' := by simpa [hd] using h
      have hlen := ih (n / 10) (by omega) h
      have hsmall : n / 10 < 10 := by
        have := (Nat.length_toDigits_le_iff (by decide) (by decide)).1 (Nat.le_of_eq hlen)
        simpa using this
      rw [Nat.toDigits_of_lt_base hsmall] at h
      have hzero : n / 10 = 0 := by
        have all : ∀ d : Fin 10, [d.val.digitChar].head? = some '0' → d.val = 0 := by decide
        exact all ⟨n / 10, hsmall⟩ h
      omega

theorem digits_toDigits (n : Nat) {rest : List Char} (h : Ends rest) :
    digits (Nat.toDigits 10 n ++ rest) = some (Nat.toDigits 10 n, rest) := by
  have hall : ∀ c ∈ Nat.toDigits 10 n, isDigit c = true := fun c => isDigit_of_mem_toDigits
  have hstop : rest.takeWhile isDigit = [] ∧ rest.dropWhile isDigit = rest := by
    cases rest with
    | nil => simp
    | cons c r => simp [(h c rfl).1]
  rw [digits, List.takeWhile_append_of_pos hall, List.dropWhile_append_of_pos hall,
    hstop.1, hstop.2, List.append_nil]
  cases hn : Nat.toDigits 10 n with
  | nil => exact absurd hn Nat.toDigits_ne_nil
  | cons d ds => rfl

theorem fraction_of_ends {rest : List Char} (h : Ends rest) : fraction rest = some ([], rest) := by
  unfold fraction
  split
  · exact absurd rfl (h '.' rfl).2.1
  · rfl

theorem exponent_of_ends {rest : List Char} (h : Ends rest) : exponent rest = some ([], rest) := by
  cases rest with
  | nil => rfl
  | cons c r =>
    have hc := h c rfl
    simp [exponent, hc.2.2.1, hc.2.2.2]

theorem unsigned_toDigits (n : Nat) {rest : List Char} (h : Ends rest) :
    unsigned (Nat.toDigits 10 n ++ rest) = some (Nat.toDigits 10 n, rest) := by
  have hzero : ¬ ((Nat.toDigits 10 n).head? = some '0' ∧ (Nat.toDigits 10 n).length ≠ 1) :=
    fun hz => hz.2 (length_of_head_toDigits n hz.1)
  rw [unsigned, digits_toDigits n h]
  simp only [Option.bind_eq_bind, Option.bind_some, if_neg hzero, fraction_of_ends h,
    exponent_of_ends h, List.append_nil]

theorem next_toDigits (n : Nat) {rest : List Char} (h : Ends rest) :
    next (Nat.toDigits 10 n ++ rest) = some (.number (String.ofList (Nat.toDigits 10 n)), rest) := by
  have hread := unsigned_toDigits n h
  have hdigit : ∀ c ∈ (Nat.toDigits 10 n ++ rest).head?, isDigit c = true := by
    obtain ⟨d, ds, hd, hdigit⟩ := toDigits_eq_cons n
    simpa [hd] using hdigit
  generalize Nat.toDigits 10 n ++ rest = cs at hread hdigit
  -- every other form of a token starts with a character that is no digit
  unfold next
  split
  case h_12 => simp [hread]
  all_goals exact absurd (hdigit _ rfl) (by decide)

/-! ## Lexemes -/

def lexeme : Token → List Char
  | .openBrace => ['{']
  | .closeBrace => ['}']
  | .openBracket => ['[']
  | .closeBracket => [']']
  | .colon => [':']
  | .comma => [',']
  | .null => ['n', 'u', 'l', 'l']
  | .bool true => ['t', 'r', 'u', 'e']
  | .bool false => ['f', 'a', 'l', 's', 'e']
  | .number literal => literal.toList
  | .string text => (Printer.string text "").toList

def Plain : Token → Prop
  | .number literal => ∃ n, literal = String.ofList (Nat.toDigits 10 n)
  | .string text => text.isSome
  | _ => True

def isMark : Token → Bool
  | .openBrace | .closeBrace | .openBracket | .closeBracket | .colon | .comma => true
  | _ => false

theorem next_lexeme {t : Token} (h : t.Plain) {rest : List Char} (hrest : Ends rest) :
    next (t.lexeme ++ rest) = some (t, rest) := by
  cases t with
  | number literal =>
    obtain ⟨n, rfl⟩ := h
    simpa [lexeme] using next_toDigits n hrest
  | string text =>
    obtain ⟨s, rfl⟩ := Option.isSome_iff_exists.1 h
    have hq := quoted_flatMap_escaped s.toList [] rest
    simp [lexeme, Printer.string, Printer.toList_foldl_escape, next, Spelling.empty, hq]
  | bool b => cases b <;> rfl
  | _ => rfl

theorem lexeme_head {t : Token} (h : t.Plain) : ∃ c r, t.lexeme = c :: r ∧ isBlank c = false := by
  cases t with
  | number literal =>
    obtain ⟨n, rfl⟩ := h
    obtain ⟨c, r, hn, hc⟩ := toDigits_eq_cons n
    refine ⟨c, r, by simp [lexeme, hn], Bool.eq_false_iff.2 fun hblank => ?_⟩
    simp only [isBlank, decide_eq_true_eq] at hblank
    rcases hblank with rfl | rfl | rfl | rfl <;> exact absurd hc (by decide)
  | string text =>
    obtain ⟨s, rfl⟩ := Option.isSome_iff_exists.1 h
    exact ⟨'"', s.toList.flatMap Printer.escaped ++ ['"'],
      by simp [lexeme, Printer.string, Printer.toList_foldl_escape], by decide⟩
  | bool b => cases b <;> exact ⟨_, _, rfl, by decide⟩
  | _ => exact ⟨_, _, rfl, by decide⟩

/-! ## Texts -/

abbrev Piece := List Char × Token

namespace Piece

def Sound (p : Piece) : Prop := (∀ c ∈ p.1, isBlank c = true) ∧ p.2.Plain

def Apart (p : Piece) : Prop := p.1 ≠ [] ∨ p.2.isMark = true

end Piece

def spelled (ps : List Piece) : List Char := ps.flatMap fun p => p.1 ++ p.2.lexeme

theorem ends_spelled {ps : List Piece} (hs : ∀ p ∈ ps, p.Sound) (ha : ∀ p ∈ ps, p.Apart) :
    Ends (spelled ps) := by
  cases ps with
  | nil => simp [Ends, spelled]
  | cons p ps =>
    obtain ⟨gap, t⟩ := p
    intro c hc
    cases gap with
    | nil =>
      have hm : t.isMark = true := (ha ([], t) (by simp)).resolve_left (by simp)
      cases t <;> simp_all [isMark, spelled, lexeme] <;> subst hc <;> decide
    | cons b gap =>
      have hb : isBlank b = true := (hs (b :: gap, t) (by simp)).1 b (by simp)
      have hcb : b = c := by simpa [spelled] using hc
      subst hcb
      simp only [isBlank, decide_eq_true_eq] at hb
      rcases hb with rfl | rfl | rfl | rfl <;> decide

/-- A spelled text is cut into its tokens. Only the first piece may stand without a gap. -/
theorem scanWithin_spelled (ps : List Piece) (hs : ∀ p ∈ ps, p.Sound)
    (ha : ∀ p ∈ ps.tail, p.Apart) (acc : List Token) (n : Nat) (hn : (spelled ps).length ≤ n) :
    scanWithin n acc (spelled ps) = some (acc.reverse ++ ps.map Prod.snd) := by
  induction ps generalizing acc n with
  | nil => cases n <;> simp [spelled, scanWithin]
  | cons p ps ih =>
    obtain ⟨gap, t⟩ := p
    obtain ⟨hgap, ht⟩ : Piece.Sound (gap, t) := hs _ (by simp)
    obtain ⟨c, r, hlex, hc⟩ := lexeme_head ht
    have hsps : ∀ q ∈ ps, q.Sound := fun q hq => hs q (by simp [hq])
    have haps : ∀ q ∈ ps, q.Apart := ha
    have hcut : spelled ((gap, t) :: ps) = gap ++ (t.lexeme ++ spelled ps) := by simp [spelled]
    have hskip : (spelled ((gap, t) :: ps)).dropWhile isBlank = t.lexeme ++ spelled ps := by
      rw [hcut, List.dropWhile_append_of_pos hgap, hlex]
      simp [hc]
    have hread : next (t.lexeme ++ spelled ps) = some (t, spelled ps) :=
      next_lexeme ht (ends_spelled hsps haps)
    have hlong : (spelled ps).length < (spelled ((gap, t) :: ps)).length := by
      rw [hcut, hlex]
      simp
      omega
    obtain ⟨n, rfl⟩ : ∃ k, n = k + 1 := ⟨n - 1, by omega⟩
    rw [hlex, List.cons_append] at hskip hread
    rw [scanWithin, hskip]
    simp [hread, ih hsps (fun q hq => haps q (List.mem_of_mem_tail hq)) (t :: acc) n (by omega)]

theorem scan_spelled (ps : List Piece) (hs : ∀ p ∈ ps, p.Sound) (ha : ∀ p ∈ ps.tail, p.Apart) :
    scan (spelled ps) = some (ps.map Prod.snd) :=
  scanWithin_spelled ps hs ha [] _ (Nat.le_refl _)

end Token

end Trainyard.Json
