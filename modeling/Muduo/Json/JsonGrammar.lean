import Muduo.Json.JsonValue
import Mathlib.Data.List.TakeWhile

/-! # The texts that the parser can read

`Grammar p s t` derives, without any parser, that the text `s` begins with the part `p` of a
document and that `t` follows it: a value, or the members of an object or the items of an array up
to and including the closing bracket. Commas are optional between elements, an item may be missing
before a comma, and the value of a member may be missing before a comma or the closing brace.

`Accepted` are the texts in which, after blanks, either no value begins or one can be derived. -/

namespace Muduo

namespace Json

/-- A string of blanks. -/
def Blank (w : Bytes) : Prop := ∀ c ∈ w, isBlank c = true

/-- Between two elements: blanks, and possibly a comma and blanks. Only a comma that is missing may
not be there. -/
inductive Separated : Bytes → Bytes → Prop
  | blank {w s : Bytes} : Blank w → s.head? ≠ some COMMA → Separated (w ++ s) s
  | comma {w w' s : Bytes} : Blank w → Blank w' → Separated (w ++ COMMA :: (w' ++ s)) s

/-- The parts of a document. -/
inductive Part
  | value
  | members
  | items

/-- `Grammar p s t`: the text `s` consists of a part `p` and `t`. -/
inductive Grammar : Part → Bytes → Bytes → Prop
  | object {w s t : Bytes} : Blank w → Grammar .members s t → Grammar .value (LBRACE :: (w ++ s)) t
  | array {w s t : Bytes} : Blank w → Grammar .items s t → Grammar .value (LBRACKET :: (w ++ s)) t
  | string {str t : Bytes} : QUOTE ∉ str → Grammar .value (QUOTE :: (str ++ QUOTE :: t)) t
  | float {c : UInt8} {d t : Bytes} : isdigit c = true → (∀ b ∈ d, isNumChar b = true) → DOT ∈ d →
      (∀ b ∈ t.head?, isNumChar b = false) → Grammar .value (c :: d ++ t) t
  | int {c : UInt8} {d t : Bytes} : isdigit c = true → (∀ b ∈ d, isdigit b = true) →
      decimal (c :: d) < 2 ^ 63 → (∀ b ∈ t.head?, isNumChar b = false) →
      Grammar .value (c :: d ++ t) t
  | litTrue {t : Bytes} : Grammar .value (ascii "true" ++ t) t
  | litFalse {t : Bytes} : Grammar .value (ascii "false" ++ t) t
  | endMembers {t : Bytes} : Grammar .members (RBRACE :: t) t
  | member {key w w' s s₁ s₂ t : Bytes} : QUOTE ∉ key → Blank w → Blank w' →
      Grammar .value s s₁ → Separated s₁ s₂ → Grammar .members s₂ t →
      Grammar .members (QUOTE :: (key ++ QUOTE :: (w ++ COLON :: (w' ++ s)))) t
  | noValue {key w w' s s₂ t : Bytes} : QUOTE ∉ key → Blank w → Blank w' →
      s.head? = some COMMA ∨ s.head? = some RBRACE → Separated s s₂ → Grammar .members s₂ t →
      Grammar .members (QUOTE :: (key ++ QUOTE :: (w ++ COLON :: (w' ++ s)))) t
  | endItems {t : Bytes} : Grammar .items (RBRACKET :: t) t
  | item {s s₁ s₂ t : Bytes} : Grammar .value s s₁ → Separated s₁ s₂ → Grammar .items s₂ t →
      Grammar .items s t
  | noItem {w s t : Bytes} : Blank w → Grammar .items s t → Grammar .items (COMMA :: (w ++ s)) t

/-- The text begins as a value does. -/
def BeginsValue (s : Bytes) : Prop :=
  (∃ c ∈ s.head?, c = LBRACE ∨ c = LBRACKET ∨ c = QUOTE ∨ isdigit c = true) ∨
    ascii "true" <+: s ∨ ascii "false" <+: s

/-- After blanks, a value can be derived, or none begins. -/
def Accepted (s : Bytes) : Prop :=
  ∃ w u, s = w ++ u ∧ Blank w ∧ (∀ c ∈ u.head?, isBlank c = false) ∧
    (¬BeginsValue u ∨ ∃ t, Grammar .value u t)

/-! ## Blanks -/

/-- The text does not begin with a blank. -/
def NoBlank (s : Bytes) : Prop := ∀ c ∈ s.head?, isBlank c = false

theorem noBlank_cons {c : UInt8} (h : isBlank c = false) (s : Bytes) : NoBlank (c :: s) := by
  intro b hb
  cases hb
  exact h

theorem skipSpace_of_noBlank {s : Bytes} (h : NoBlank s) : skipSpace s = s := by
  cases s with
  | nil => rfl
  | cons c s =>
    have hc : ¬isBlank c = true := by simp [h c rfl]
    exact List.dropWhile_cons_of_neg hc

/-- Blanks in front are skipped. -/
theorem skipSpace_append {w : Bytes} (hw : Blank w) (s : Bytes) :
    skipSpace (w ++ s) = skipSpace s := by
  induction w with
  | nil => rfl
  | cons c w ih =>
    rw [Blank, List.forall_mem_cons] at hw
    rw [List.cons_append, skipSpace, List.dropWhile_cons_of_pos hw.1]
    exact ih hw.2

theorem noBlank_skipSpace (s : Bytes) : NoBlank (skipSpace s) := by
  induction s with
  | nil => simp [NoBlank, skipSpace]
  | cons c s ih =>
    by_cases hc : isBlank c = true
    · rw [skipSpace, List.dropWhile_cons_of_pos hc]
      exact ih
    · rw [skipSpace, List.dropWhile_cons_of_neg hc]
      exact noBlank_cons (by simpa using hc) s

/-- A text is some blanks and what is left when they are skipped. -/
theorem exists_blank (s : Bytes) : ∃ w, Blank w ∧ s = w ++ skipSpace s := by
  refine ⟨s.takeWhile isBlank, fun c hc => List.mem_takeWhile_imp hc, ?_⟩
  exact List.takeWhile_append_dropWhile.symm

@[simp] theorem skipSpace_skipSpace (s : Bytes) : skipSpace (skipSpace s) = skipSpace s :=
  skipSpace_of_noBlank (noBlank_skipSpace s)

/-! ## Heads -/

theorem peek_cons (c : UInt8) (s : Bytes) : peek (c :: s) = c := rfl

/-- A character other than NUL that is read is there. -/
theorem eq_cons_of_peek {s : Bytes} {c : UInt8} (h : peek s = c) (hc : c ≠ 0) :
    s = c :: s.drop 1 := by
  cases s with
  | nil => exact absurd h.symm hc
  | cons b s => exact congrArg (· :: s) h

theorem isBlank_of_isdigit {c : UInt8} (h : isdigit c = true) : isBlank c = false := by
  simp only [isdigit, Bool.and_eq_true, decide_eq_true_eq, UInt8.le_iff_toNat_le] at h
  have h1 : ¬c ≤ 32 := by
    rw [UInt8.le_iff_toNat_le]
    exact not_le.mpr (lt_of_lt_of_le (by decide) h.1)
  have h2 : ¬128 ≤ c := by
    rw [UInt8.le_iff_toNat_le]
    exact not_le.mpr (lt_of_le_of_lt h.2 (by decide))
  simp [isBlank, h1, h2]

/-- No part begins with a blank. -/
theorem Grammar.noBlank {p : Part} {s t : Bytes} (h : Grammar p s t) : NoBlank s := by
  induction h with
  | object => exact noBlank_cons (by decide) _
  | array => exact noBlank_cons (by decide) _
  | string => exact noBlank_cons (by decide) _
  | float hc => exact noBlank_cons (isBlank_of_isdigit hc) _
  | int hc => exact noBlank_cons (isBlank_of_isdigit hc) _
  | litTrue => exact noBlank_cons (by decide) _
  | litFalse => exact noBlank_cons (by decide) _
  | endMembers => exact noBlank_cons (by decide) _
  | member => exact noBlank_cons (by decide) _
  | noValue => exact noBlank_cons (by decide) _
  | endItems => exact noBlank_cons (by decide) _
  | item _ _ _ ih => exact ih
  | noItem => exact noBlank_cons (by decide) _

end Json

end Muduo
