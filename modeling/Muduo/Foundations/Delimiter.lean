import Mathlib.Data.List.Basic
import Mathlib.Tactic.Linarith

/-! # The first occurrence of a delimiter

`findPair a b l` is the index at which `a, b` first stand next to each other in `l`. What a reader
of delimited lines needs is how it behaves when more input arrives:

* an occurrence found in `l` is the one found in `l ++ s` (`findPair_append`);
* without an occurrence in a line, the delimiter written after it is the first one
  (`findPair_line`).

`cut a l` splits `l` around the first `a`, the reading of `std::find` that the parsers use, and
`after pat l` is what follows the first occurrence of `pat`; lines can be skipped in search of a
doubled delimiter (`after_double`). -/

namespace Muduo

namespace Delimiter

variable {α : Type*} [DecidableEq α] (a b : α)

/-- The index of the first occurrence of `a` directly followed by `b`. -/
def findPair : List α → Option ℕ
  | [] => none
  | [_] => none
  | x :: y :: l => if x = a ∧ y = b then some 0 else (findPair (y :: l)).map (· + 1)

variable {a b}

/-- The delimiter at the head of the list. -/
@[simp] theorem findPair_self (l : List α) : findPair a b (a :: b :: l) = some 0 := by
  rw [findPair, if_pos ⟨rfl, rfl⟩]

/-- A found delimiter lies inside the list. -/
theorem findPair_lt {l : List α} {i : ℕ} (h : findPair a b l = some i) : i + 2 ≤ l.length := by
  induction l using findPair.induct a b generalizing i with
  | case1 => simp [findPair] at h
  | case2 => simp [findPair] at h
  | case3 x y l hxy =>
    rw [findPair, if_pos hxy] at h
    cases h
    simp
  | case4 x y l hxy ih =>
    rw [findPair, if_neg hxy] at h
    obtain ⟨j, hj, rfl⟩ := Option.map_eq_some_iff.mp h
    have := ih hj
    simp only [List.length_cons] at this ⊢
    omega

theorem exists_of_findPair_zero {l : List α} (h : findPair a b l = some 0) :
    ∃ t, l = a :: b :: t := by
  induction l using findPair.induct a b with
  | case1 => simp [findPair] at h
  | case2 => simp [findPair] at h
  | case3 x y l hxy => exact ⟨l, by rw [hxy.1, hxy.2]⟩
  | case4 x y l hxy => simp [findPair, hxy] at h

/-- **More input does not move the first delimiter.** -/
theorem findPair_append {l : List α} {i : ℕ} (h : findPair a b l = some i) (s : List α) :
    findPair a b (l ++ s) = some i := by
  induction l using findPair.induct a b generalizing i with
  | case1 => simp [findPair] at h
  | case2 => simp [findPair] at h
  | case3 x y l hxy =>
    rw [findPair, if_pos hxy] at h
    cases h
    rw [List.cons_append, List.cons_append, findPair, if_pos hxy]
  | case4 x y l hxy ih =>
    rw [findPair, if_neg hxy] at h
    obtain ⟨j, hj, rfl⟩ := Option.map_eq_some_iff.mp h
    have := ih hj
    rw [List.cons_append] at this
    rw [List.cons_append, List.cons_append, findPair, if_neg hxy, this, Option.map_some]

/-- **A delimiter written after a line without one is the first.** -/
theorem findPair_line (hab : a ≠ b) {l : List α} (h : findPair a b l = none) (s : List α) :
    findPair a b (l ++ a :: b :: s) = some l.length := by
  induction l using findPair.induct a b with
  | case1 => exact findPair_self s
  | case2 x =>
    -- `x` cannot pair with the first half of the delimiter
    rw [List.singleton_append, findPair, if_neg fun hx => hab hx.2, findPair_self, Option.map_some]
    rfl
  | case3 x y l hxy => simp [findPair, hxy] at h
  | case4 x y l hxy ih =>
    rw [findPair, if_neg hxy, Option.map_eq_none_iff] at h
    have := ih h
    rw [List.cons_append] at this
    rw [List.cons_append, List.cons_append, findPair, if_neg hxy, this, Option.map_some]
    simp

/-- No delimiter starts with an element other than its first half. -/
theorem findPair_cons_of_ne {x : α} (hx : x ≠ a) (l : List α) :
    findPair a b (x :: l) = (findPair a b l).map (· + 1) := by
  cases l with
  | nil => rfl
  | cons y l => rw [findPair, if_neg fun h => hx h.1]

/-- A text without the first half of the delimiter has none. -/
theorem findPair_eq_none_of_notMem {l : List α} (h : a ∉ l) : findPair a b l = none := by
  induction l with
  | nil => rfl
  | cons x l ih =>
    rw [List.mem_cons, not_or] at h
    rw [findPair_cons_of_ne (Ne.symm h.1), ih h.2, Option.map_none]

/-- There is no delimiter where the two halves do not stand next to each other. -/
theorem findPair_eq_none_iff {l : List α} : findPair a b l = none ↔ ¬[a, b] <:+: l := by
  induction l using findPair.induct a b with
  | case1 => simp [findPair]
  | case2 => simp [findPair, List.infix_cons_iff]
  | case3 x y l hxy =>
    obtain ⟨rfl, rfl⟩ := hxy
    rw [findPair_self]
    exact iff_of_false nofun (not_not.mpr (List.prefix_append [x, y] l).isInfix)
  | case4 x y l hxy ih =>
    have hprefix : ¬[a, b] <+: x :: y :: l := by
      rw [List.cons_prefix_cons, List.cons_prefix_cons]
      exact fun h => hxy ⟨h.1.symm, h.2.1.symm⟩
    have hinfix : [a, b] <:+: x :: y :: l ↔ [a, b] <:+: y :: l := by
      rw [List.infix_cons_iff, or_iff_right hprefix]
    rw [findPair, if_neg hxy, Option.map_eq_none_iff, ih, hinfix]

/-- A character that belongs to no delimiter makes none. -/
theorem findPair_append_cons {x : α} (ha : x ≠ a) (hb : x ≠ b) {l l' : List α}
    (h : findPair a b l = none) (h' : findPair a b l' = none) :
    findPair a b (l ++ x :: l') = none := by
  have hx : findPair a b (x :: l') = none := by rw [findPair_cons_of_ne ha, h', Option.map_none]
  induction l using findPair.induct a b with
  | case1 => exact hx
  | case2 y => rw [List.singleton_append, findPair, if_neg fun hy => hb hy.2, hx, Option.map_none]
  | case3 y z l hyz => simp [findPair, hyz] at h
  | case4 y z l hyz ih =>
    rw [findPair, if_neg hyz, Option.map_eq_none_iff] at h
    have := ih h
    rw [List.cons_append] at this
    rw [List.cons_append, List.cons_append, findPair, if_neg hyz, this, Option.map_none]

/-! ## Cutting at a single element -/

variable (a) in
/-- What stands before and after the first `a`. -/
def cut : List α → Option (List α × List α)
  | [] => none
  | x :: l => if x = a then some ([], l) else (cut l).map fun p => (x :: p.1, p.2)

/-- **Cutting undoes writing the separator.** -/
theorem cut_append {l : List α} (h : a ∉ l) (s : List α) : cut a (l ++ a :: s) = some (l, s) := by
  induction l with
  | nil => rw [List.nil_append, cut, if_pos rfl]
  | cons x l ih =>
    rw [List.mem_cons, not_or] at h
    rw [List.cons_append, cut, if_neg (Ne.symm h.1), ih h.2, Option.map_some]

/-- Nothing is cut where the separator does not occur. -/
theorem cut_eq_none {l : List α} (h : a ∉ l) : cut a l = none := by
  induction l with
  | nil => rfl
  | cons x l ih =>
    rw [List.mem_cons, not_or] at h
    rw [cut, if_neg (Ne.symm h.1), ih h.2, Option.map_none]

/-- **What a cut is**: the text with the separator taken out, and none before it. -/
theorem cut_eq_some {l p s : List α} : cut a l = some (p, s) ↔ l = p ++ a :: s ∧ a ∉ p := by
  refine ⟨fun h => ?_, fun ⟨hl, hp⟩ => by rw [hl, cut_append hp]⟩
  induction l generalizing p with
  | nil => simp [cut] at h
  | cons x l ih =>
    rw [cut] at h
    by_cases hx : x = a
    · rw [if_pos hx, Option.some_inj, Prod.mk.injEq] at h
      obtain ⟨rfl, rfl⟩ := h
      exact ⟨by rw [hx, List.nil_append], List.not_mem_nil⟩
    · rw [if_neg hx] at h
      obtain ⟨⟨p', s'⟩, h', heq⟩ := Option.map_eq_some_iff.mp h
      obtain ⟨rfl, rfl⟩ := Prod.mk.inj heq
      obtain ⟨hl, hp⟩ := ih h'
      refine ⟨by rw [hl, List.cons_append], ?_⟩
      rw [List.mem_cons, not_or]
      exact ⟨Ne.symm hx, hp⟩

/-- Without a cut there is no separator. -/
theorem notMem_of_cut {l : List α} (h : cut a l = none) : a ∉ l := by
  intro ha
  obtain ⟨p, s, rfl, hp⟩ := List.eq_append_cons_of_mem ha
  rw [cut_append hp] at h
  cases h

/-! ## What follows a pattern -/

/-- What follows the first occurrence of `pat`. -/
def after (pat : List α) : List α → Option (List α)
  | [] => none
  | x :: l => if pat <+: x :: l then some ((x :: l).drop pat.length) else after pat l

theorem length_le_of_after {pat l v : List α} (h : after pat l = some v) :
    pat.length ≤ l.length := by
  induction l with
  | nil => simp [after] at h
  | cons x l ih =>
    rw [after] at h
    by_cases hp : pat <+: x :: l
    · exact hp.length_le
    · rw [if_neg hp] at h
      exact (ih h).trans (Nat.le_succ _)

/-- The pattern at the head of the list. -/
theorem after_self {pat : List α} (hne : pat ≠ []) (l : List α) :
    after pat (pat ++ l) = some l := by
  cases pat with
  | nil => exact absurd rfl hne
  | cons x pat =>
    have hp : x :: pat <+: x :: (pat ++ l) := List.prefix_append (x :: pat) l
    rw [List.cons_append, after, if_pos hp]
    simp

/-- More input only adds to what follows. -/
theorem after_append {pat l v : List α} (h : after pat l = some v) (s : List α) :
    after pat (l ++ s) = some (v ++ s) := by
  induction l with
  | nil => simp [after] at h
  | cons x l ih =>
    have hlen := length_le_of_after h
    rw [after] at h
    rw [List.cons_append, after, ← List.cons_append]
    by_cases hp : pat <+: x :: l
    · rw [if_pos hp, Option.some_inj] at h
      rw [if_pos (hp.trans (List.prefix_append _ _)),
        List.drop_append_of_le_length hp.length_le, h]
    · -- the pattern is too short to start here and end in `s`
      have hp' : ¬pat <+: x :: l ++ s := fun hp' =>
        hp (List.prefix_of_prefix_length_le hp' (List.prefix_append _ _) hlen)
      rw [if_neg hp] at h
      rw [if_neg hp', ih h]

/-- A pattern that does not occur is not found. -/
theorem after_eq_none {pat l : List α} (h : ¬pat <:+: l) : after pat l = none := by
  induction l with
  | nil => rfl
  | cons x l ih =>
    rw [List.infix_cons_iff, not_or] at h
    rw [after, if_neg h.1, ih h.2]

/-- A pattern that occurs is found. -/
theorem exists_after_of_occurs {pat l : List α} (hne : pat ≠ []) (h : pat <:+: l) :
    ∃ v, after pat l = some v := by
  induction l with
  | nil => exact absurd (List.infix_nil.mp h) hne
  | cons x l ih =>
    rw [after]
    by_cases hp : pat <+: x :: l
    · exact ⟨_, if_pos hp⟩
    · rw [if_neg hp]
      exact ih ((List.infix_cons_iff.mp h).resolve_left hp)

/-- A line in front does not hide a doubled delimiter: it may be dropped up to its own delimiter. -/
theorem after_double {l : List α} {i : ℕ} (h : findPair a b l = some i) :
    after [a, b, a, b] l = after [a, b, a, b] (a :: b :: l.drop (2 + i)) := by
  induction l using findPair.induct a b generalizing i with
  | case1 => simp [findPair] at h
  | case2 => simp [findPair] at h
  | case3 x y l hxy =>
    rw [findPair, if_pos hxy] at h
    cases h
    rw [hxy.1, hxy.2]
    rfl
  | case4 x y l hxy ih =>
    rw [findPair, if_neg hxy] at h
    obtain ⟨j, hj, rfl⟩ := Option.map_eq_some_iff.mp h
    have hp : ¬[a, b, a, b] <+: x :: y :: l := by
      intro hp
      rw [List.cons_prefix_cons, List.cons_prefix_cons] at hp
      exact hxy ⟨hp.1.symm, hp.2.1.symm⟩
    rw [after, if_neg hp, ih hj]
    rfl

/-- A delimiter followed by a line that is not empty starts no doubled delimiter. -/
theorem after_double_cons (hab : a ≠ b) {l : List α} {i : ℕ} (h : findPair a b l = some i)
    (hi : i ≠ 0) : after [a, b, a, b] (a :: b :: l) = after [a, b, a, b] l := by
  have hnot : ¬[a, b] <+: l := by
    rintro ⟨t, rfl⟩
    rw [List.cons_append, List.cons_append, findPair_self] at h
    exact hi (Option.some.inj h).symm
  have h1 : ¬[a, b, a, b] <+: a :: b :: l := by
    rw [List.cons_prefix_cons, List.cons_prefix_cons]
    exact fun hp => hnot hp.2.2
  have h2 : ¬[a, b, a, b] <+: b :: l := by
    rw [List.cons_prefix_cons]
    exact fun hp => hab hp.1
  rw [after, if_neg h1, after, if_neg h2]

end Delimiter

end Muduo
