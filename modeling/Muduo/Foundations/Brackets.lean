import Mathlib.Data.List.Infix
import Muduo.Foundations.Runs

/-! # Texts with brackets and quotes

A reader of a text keeps the brackets that are open and whether it is between two quotes, where
brackets do not count. A text is balanced if the reader is at the end as it was at the start, and it
is one piece if it is balanced nowhere before its end.

* **`Brackets.balanced_append`**, `balanced_intercalate`, `balanced_plain`, `balanced_quoted` and
  `balanced_enclosed` say how balanced texts are made;
* **`Brackets.piece_enclosed`**, **`Brackets.piece_quoted_iff`** say which of them are one piece. -/

namespace Muduo

/-- The characters that count. -/
structure Brackets (α : Type*) where
  /-- The quote. -/
  quote : α
  /-- The bracket that closes an opening bracket. -/
  closer : α → Option α
  /-- The closing brackets. -/
  isCloser : α → Bool

namespace Brackets

variable {α : Type*} [DecidableEq α] (B : Brackets α)

/-- What the reader keeps. -/
structure Reader (α : Type*) where
  /-- Whether it is between two quotes. -/
  quoted : Bool
  /-- The closing brackets that are due, the next one first. -/
  due : List α
deriving DecidableEq

/-- One character. -/
def read : Reader α → α → Option (Reader α)
  | ⟨true, due⟩, c => some ⟨c ≠ B.quote, due⟩
  | ⟨false, due⟩, c =>
    if c = B.quote then some ⟨true, due⟩
    else
      match B.closer c with
      | some d => some ⟨false, d :: due⟩
      | none => if B.isCloser c then if due.head? = some c then some ⟨false, due.tail⟩ else none
        else some ⟨false, due⟩

/-- The brackets of the text are balanced, and its quotes come in pairs. -/
def Balanced (text : List α) : Prop := Runs.exec B.read ⟨false, []⟩ text = some ⟨false, []⟩

instance (text : List α) : Decidable (B.Balanced text) :=
  inferInstanceAs (Decidable (_ = _))

/-- The text is one piece: its beginnings are not balanced. -/
structure Piece (text : List α) : Prop where
  ne_nil : text ≠ []
  balanced : B.Balanced text
  cut : ∀ p, p <+: text → p ≠ [] → p ≠ text → ¬ B.Balanced p

/-- A character that does not count. -/
structure Plain (c : α) : Prop where
  ne_quote : c ≠ B.quote
  closer_eq : B.closer c = none
  isCloser_eq : B.isCloser c = false

/-- `o` opens what `c` closes. -/
structure Closes (o c : α) : Prop where
  ne_quote : o ≠ B.quote
  closer_eq : B.closer o = some c
  ne_quote' : c ≠ B.quote
  closer_eq' : B.closer c = none
  isCloser_eq : B.isCloser c = true

variable {B}

/-! ## Balanced texts -/

/-- The reader does not look behind the brackets that it has seen. -/
theorem read_frame {r r' : Reader α} {c : α} (h : B.read r c = some r') (rest : List α) :
    B.read ⟨r.quoted, r.due ++ rest⟩ c = some ⟨r'.quoted, r'.due ++ rest⟩ := by
  obtain ⟨quoted, due⟩ := r
  cases quoted with
  | true =>
    cases h
    rfl
  | false =>
    by_cases hq : c = B.quote
    · rw [read, if_pos hq] at h ⊢
      cases h
      rfl
    · rw [read, if_neg hq] at h ⊢
      cases hc : B.closer c with
      | some d =>
        simp only [hc] at h ⊢
        cases h
        rfl
      | none =>
        simp only [hc] at h ⊢
        by_cases hcloser : B.isCloser c = true
        · rw [if_pos hcloser, Option.ite_none_right_eq_some] at h
          obtain ⟨hhead, heq⟩ := h
          -- the bracket is the first of those that are due
          obtain ⟨tail, rfl⟩ : ∃ tail, due = c :: tail := List.head?_eq_some_iff.mp hhead
          cases heq
          rw [if_pos hcloser]
          exact if_pos rfl
        · rw [if_neg hcloser] at h ⊢
          cases h
          rfl

/-- Reading a text with more brackets due. -/
theorem exec_frame {text : List α} {r r' : Reader α} (h : Runs.exec B.read r text = some r')
    (rest : List α) : Runs.exec B.read ⟨r.quoted, r.due ++ rest⟩ text =
      some ⟨r'.quoted, r'.due ++ rest⟩ := by
  induction text generalizing r with
  | nil =>
    cases h
    rfl
  | cons c text ih =>
    rw [Runs.exec_cons] at h
    obtain ⟨t, ht, h⟩ := Option.bind_eq_some_iff.mp h
    rw [Runs.exec_cons, read_frame ht rest, Option.bind_some]
    exact ih h

/-- A balanced text leaves what is due as it is. -/
theorem Balanced.exec {text : List α} (h : B.Balanced text) (due : List α) :
    Runs.exec B.read ⟨false, due⟩ text = some ⟨false, due⟩ :=
  exec_frame h due

theorem balanced_nil : B.Balanced [] := rfl

/-- **Balanced texts in a row** are balanced. -/
theorem balanced_append {s t : List α} (hs : B.Balanced s) (ht : B.Balanced t) :
    B.Balanced (s ++ t) :=
  Runs.exec_append_eq_some.mpr ⟨_, hs, ht⟩

/-- Balanced texts with a balanced separator are balanced. -/
theorem balanced_intercalate {sep : List α} (hsep : B.Balanced sep) {texts : List (List α)}
    (h : ∀ t ∈ texts, B.Balanced t) : B.Balanced (sep.intercalate texts) := by
  induction texts with
  | nil => exact balanced_nil
  | cons t texts ih =>
    rw [List.forall_mem_cons] at h
    cases texts with
    | nil =>
      have heq : sep.intercalate [t] = t := by simp
      rw [heq]
      exact h.1
    | cons t' texts =>
      have heq : sep.intercalate (t :: t' :: texts) =
          t ++ (sep ++ sep.intercalate (t' :: texts)) := by simp
      rw [heq]
      exact balanced_append h.1 (balanced_append hsep (ih h.2))

/-- Characters that do not count are balanced. -/
theorem balanced_plain {s : List α} (h : ∀ c ∈ s, B.Plain c) : B.Balanced s := by
  induction s with
  | nil => exact balanced_nil
  | cons c s ih =>
    rw [List.forall_mem_cons] at h
    have hc : B.read ⟨false, []⟩ c = some ⟨false, []⟩ := by
      simp [read, h.1.ne_quote, h.1.closer_eq, h.1.isCloser_eq]
    rw [Balanced, Runs.exec_cons, hc, Option.bind_some]
    exact ih h.2

/-- Between quotes nothing counts. -/
theorem exec_quoted {s : List α} (h : B.quote ∉ s) (due : List α) :
    Runs.exec B.read ⟨true, due⟩ s = some ⟨true, due⟩ := by
  induction s with
  | nil => rfl
  | cons c s ih =>
    rw [List.mem_cons, not_or] at h
    have hc : B.read ⟨true, due⟩ c = some ⟨true, due⟩ := by
      simp [read, Ne.symm h.1]
    rw [Runs.exec_cons, hc, Option.bind_some]
    exact ih h.2

theorem read_quote (due : List α) : B.read ⟨false, due⟩ B.quote = some ⟨true, due⟩ := if_pos rfl

theorem read_quote' (due : List α) : B.read ⟨true, due⟩ B.quote = some ⟨false, due⟩ := by
  simp [read]

/-- A text between quotes is balanced. -/
theorem balanced_quoted {s : List α} (h : B.quote ∉ s) :
    B.Balanced (B.quote :: (s ++ [B.quote])) := by
  rw [Balanced, Runs.exec_cons, read_quote, Option.bind_some]
  exact Runs.exec_concat_eq_some.mpr ⟨_, exec_quoted h [], read_quote' []⟩

theorem read_open {o c : α} (h : B.Closes o c) (due : List α) :
    B.read ⟨false, due⟩ o = some ⟨false, c :: due⟩ := by
  simp [read, h.ne_quote, h.closer_eq]

theorem read_close {o c : α} (h : B.Closes o c) (due : List α) :
    B.read ⟨false, c :: due⟩ c = some ⟨false, due⟩ := by
  simp [read, h.ne_quote', h.closer_eq', h.isCloser_eq]

/-- A balanced text between brackets is balanced. -/
theorem balanced_enclosed {o c : α} (h : B.Closes o c) {s : List α} (hs : B.Balanced s) :
    B.Balanced (o :: (s ++ [c])) := by
  rw [Balanced, Runs.exec_cons, read_open h, Option.bind_some]
  exact Runs.exec_concat_eq_some.mpr ⟨_, hs.exec [c], read_close h []⟩

/-! ## Pieces -/

omit [DecidableEq α] in
/-- A proper beginning of a text that is not empty ends before its last character. -/
theorem prefix_of_cons_concat {o c : α} {s p : List α} (hp : p <+: o :: (s ++ [c])) (hne : p ≠ [])
    (hall : p ≠ o :: (s ++ [c])) : ∃ q, p = o :: q ∧ q <+: s := by
  cases p with
  | nil => exact absurd rfl hne
  | cons b q =>
    obtain ⟨rfl, hq⟩ := List.cons_prefix_cons.mp hp
    rcases List.prefix_concat_iff.mp hq with rfl | hq'
    · exact absurd rfl hall
    · exact ⟨q, rfl, hq'⟩

/-- **A balanced text between brackets** is one piece: before its end the last bracket is due. -/
theorem piece_enclosed {o c : α} (h : B.Closes o c) {s : List α} (hs : B.Balanced s) :
    B.Piece (o :: (s ++ [c])) := by
  refine ⟨List.cons_ne_nil _ _, balanced_enclosed h hs, fun p hp hne hall hbal => ?_⟩
  obtain ⟨q, rfl, hq⟩ := prefix_of_cons_concat hp hne hall
  obtain ⟨r, hr⟩ := Runs.exists_exec_of_done hs hq
  rw [Balanced, Runs.exec_cons, read_open h, Option.bind_some] at hbal
  have hdue := congrArg (Option.map Reader.due) (hbal.symm.trans (exec_frame hr [c]))
  simp at hdue

/-- **A text between quotes** is one piece exactly if there is no quote in it. -/
theorem piece_quoted_iff {s : List α} : B.Piece (B.quote :: (s ++ [B.quote])) ↔ B.quote ∉ s := by
  constructor
  · intro h hmem
    -- the text is balanced already behind the first quote inside
    obtain ⟨a, b, rfl, ha⟩ := List.eq_append_cons_of_mem hmem
    have hprefix : B.quote :: (a ++ [B.quote]) <+: B.quote :: (a ++ B.quote :: b ++ [B.quote]) :=
      ⟨b ++ [B.quote], by simp⟩
    refine h.cut _ hprefix (List.cons_ne_nil _ _) (fun heq => ?_) (balanced_quoted ha)
    have hlen := congrArg List.length heq
    simp at hlen
  · intro h
    refine ⟨List.cons_ne_nil _ _, balanced_quoted h, fun p hp hne hall hbal => ?_⟩
    obtain ⟨q, rfl, hq⟩ := prefix_of_cons_concat hp hne hall
    rw [Balanced, Runs.exec_cons, read_quote, Option.bind_some,
      exec_quoted fun hm => h (hq.subset hm)] at hbal
    cases hbal

end Brackets

end Muduo
