import Mathlib.Algebra.Order.Group.Multiset
import Mathlib.Data.Multiset.Range
import Mathlib.Logic.Equiv.Basic
import Mathlib.Tactic.Linarith

/-! # Heap order on an implicit binary tree

The nodes `0, …, n - 1` of a function `g : ℕ → α` form a binary tree in which the parent of `i` is
`(i - 1) / 2`. This file develops the order theory of sifting one element through that tree, free
of any representation of the array:

* **`Ordered g n`**: no node is below its parent.
* **`UpReady g n i`** / **`DownReady g n i`**: every edge is in order except possibly the one above
  `i` (resp. the ones below `i`), and the neighbours of `i` are in order across `i`.
* An exchange along the wrong edge keeps readiness one level up or down (`UpReady.swap`,
  `DownReady.swap`), and readiness without a wrong edge is order (`UpReady.ordered`,
  `DownReady.ordered`).
* **`contents g n`** is the multiset of the first `n` values; exchanges keep it. -/

namespace Muduo

namespace HeapTree

open Function (update)

/-- The parent of node `i`; the root is its own parent. -/
def parent (i : ℕ) : ℕ := (i - 1) / 2

theorem parent_lt {i : ℕ} (h : 0 < i) : parent i < i := by
  unfold parent; omega

theorem parent_le (i : ℕ) : parent i ≤ i := by
  unfold parent; omega

/-- The children of `i` are `2 * i + 1` and `2 * i + 2`. -/
theorem parent_eq_iff {i j : ℕ} (hj : 0 < j) : parent j = i ↔ j = 2 * i + 1 ∨ j = 2 * i + 2 := by
  unfold parent; omega

variable {α : Type*}

/-! ## The multiset of the first values -/

/-- The multiset of the values at the nodes `0, …, n - 1`. -/
def contents (g : ℕ → α) (n : ℕ) : Multiset α := (Multiset.range n).map g

@[simp] theorem contents_zero (g : ℕ → α) : contents g 0 = 0 := rfl

/-- One more node adds its value. -/
theorem contents_succ (g : ℕ → α) (n : ℕ) : contents g (n + 1) = g n ::ₘ contents g n := by
  simp [contents, Multiset.range_succ]

theorem mem_contents {g : ℕ → α} {n : ℕ} {a : α} : a ∈ contents g n ↔ ∃ i < n, g i = a := by
  simp [contents]

/-- The contents depend on the first values only. -/
theorem contents_congr {g g' : ℕ → α} {n : ℕ} (h : ∀ i < n, g i = g' i) :
    contents g n = contents g' n :=
  Multiset.map_congr rfl fun i hi => h i (Multiset.mem_range.mp hi)

/-- An exchange of two nodes keeps the contents. -/
theorem contents_comp_swap (g : ℕ → α) {n i j : ℕ} (hi : i < n) (hj : j < n) :
    contents (g ∘ Equiv.swap i j) n = contents g n := by
  have hperm : (Multiset.range n).map (Equiv.swap i j) = Multiset.range n := by
    refine (Multiset.Nodup.ext ?_ (Multiset.nodup_range n)).mpr fun k => ?_
    · exact (Multiset.nodup_range n).map (Equiv.swap i j).injective
    · rw [Multiset.mem_map]
      constructor
      · rintro ⟨k, hk, rfl⟩
        rw [Multiset.mem_range] at hk ⊢
        rw [Equiv.swap_apply_def]
        split_ifs <;> omega
      · intro hk
        refine ⟨Equiv.swap i j k, ?_, Equiv.swap_apply_self i j k⟩
        rw [Multiset.mem_range] at hk ⊢
        rw [Equiv.swap_apply_def]
        split_ifs <;> omega
  rw [contents, contents, ← Multiset.map_map, hperm]

/-- Overwriting node `i` trades its old value for the new one. -/
theorem contents_update (g : ℕ → α) {n i : ℕ} (hi : i < n) (x : α) :
    g i ::ₘ contents (update g i x) n = x ::ₘ contents g n := by
  induction n with
  | zero => omega
  | succ n ih =>
    rw [contents_succ, contents_succ]
    by_cases hin : i = n
    · subst hin
      have hrest : contents (update g i x) i = contents g i :=
        contents_congr fun k hk => Function.update_of_ne (by omega) x g
      rw [Function.update_self, hrest, Multiset.cons_swap]
    · rw [Function.update_of_ne (Ne.symm hin), Multiset.cons_swap, ih (by omega),
        Multiset.cons_swap]

/-- Moving the hole from `i` to `j` exchanges the two nodes of the array with the hole filled. -/
theorem update_update_eq_comp_swap (f : ℕ → α) {i j : ℕ} (hij : i ≠ j) (x : α) :
    update (update f i (f j)) j x = update f i x ∘ Equiv.swap i j := by
  funext k
  rw [Function.comp_apply, Equiv.swap_apply_def]
  by_cases hkj : k = j
  · subst hkj
    rw [Function.update_self, if_neg (Ne.symm hij), if_pos rfl, Function.update_self]
  · rw [Function.update_of_ne hkj]
    by_cases hki : k = i
    · subst hki
      rw [Function.update_self, if_pos rfl, Function.update_of_ne (Ne.symm hij)]
    · rw [if_neg hki, if_neg hkj, Function.update_of_ne hki, Function.update_of_ne hki]

/-! ## Order and readiness -/

variable [LinearOrder α]

/-- No node among the first `n` is below its parent. -/
def Ordered (g : ℕ → α) (n : ℕ) : Prop := ∀ j, 0 < j → j < n → g (parent j) ≤ g j

/-- Only the edge above `i` may be out of order. -/
structure UpReady (g : ℕ → α) (n i : ℕ) : Prop where
  /-- The edges that do not end in `i` are in order. -/
  edges : ∀ j, 0 < j → j < n → j ≠ i → g (parent j) ≤ g j
  /-- The children of `i` are not below its parent. -/
  across : ∀ j, 0 < j → j < n → parent j = i → 0 < i → g (parent i) ≤ g j

/-- Only the edges below `i` may be out of order. -/
structure DownReady (g : ℕ → α) (n i : ℕ) : Prop where
  /-- The edges that do not start in `i` are in order. -/
  edges : ∀ j, 0 < j → j < n → parent j ≠ i → g (parent j) ≤ g j
  /-- The children of `i` are not below its parent. -/
  across : ∀ j, 0 < j → j < n → parent j = i → 0 < i → g (parent i) ≤ g j

theorem Ordered.mono {g : ℕ → α} {n m : ℕ} (h : Ordered g n) (hmn : m ≤ n) : Ordered g m :=
  fun j hj hjm => h j hj (by omega)

/-- The root of an ordered tree is a least value. -/
theorem Ordered.root_le {g : ℕ → α} {n : ℕ} (h : Ordered g n) {i : ℕ} (hi : i < n) :
    g 0 ≤ g i := by
  induction i using Nat.strong_induction_on with
  | _ i ih =>
    by_cases h0 : i = 0
    · rw [h0]
    · have hlt := parent_lt (Nat.pos_of_ne_zero h0)
      exact (ih (parent i) hlt (by omega)).trans (h i (by omega) hi)

/-- In an ordered tree a node's grandparent is not above its children. -/
theorem Ordered.across {g : ℕ → α} {n : ℕ} (h : Ordered g n) {i j : ℕ} (hj : 0 < j) (hjn : j < n)
    (hji : parent j = i) (hi : 0 < i) : g (parent i) ≤ g j := by
  have hlt := parent_lt hj
  have hedge := h j hj hjn
  rw [hji] at hlt hedge
  exact (h i hi (by omega)).trans hedge

/-! ## Sifting up -/

/-- An exchange along the wrong edge moves readiness to the parent. -/
theorem UpReady.swap {g : ℕ → α} {n i : ℕ} (h : UpReady g n i) (hi : 0 < i) (hin : i < n)
    (hlt : g i < g (parent i)) : UpReady (g ∘ Equiv.swap i (parent i)) n (parent i) := by
  have hpi := parent_lt hi
  -- the value that moves up is below every value it passes
  have hup : ∀ j, 0 < j → j < n → j ≠ i → parent j = parent i → g i ≤ g j := by
    intro j hj hjn hji hpj
    have hedge := h.edges j hj hjn hji
    rw [hpj] at hedge
    exact hlt.le.trans hedge
  constructor
  · intro j hj hjn hjp
    have hpj := parent_lt hj
    simp only [Function.comp_apply, Equiv.swap_apply_def]
    by_cases hji : j = i
    · subst hji
      rw [if_neg (by omega), if_pos rfl, if_pos rfl]
      exact hlt.le
    · rw [if_neg hji, if_neg hjp]
      by_cases hpji : parent j = i
      · rw [if_pos hpji]
        exact h.across j hj hjn hpji hi
      · rw [if_neg hpji]
        by_cases hpjp : parent j = parent i
        · rw [if_pos hpjp]; exact hup j hj hjn hji hpjp
        · rw [if_neg hpjp]; exact h.edges j hj hjn hji
  · intro j hj hjn hpj hp
    have hpp := parent_lt hp
    have hgrand := h.edges (parent i) hp (by omega) (by omega)
    simp only [Function.comp_apply, Equiv.swap_apply_def]
    rw [if_neg (by omega), if_neg (by omega)]
    by_cases hji : j = i
    · rw [if_pos hji]; exact hgrand
    · have hjp : j ≠ parent i := by have := parent_lt hj; omega
      rw [if_neg hji, if_neg hjp]
      have hedge := h.edges j hj hjn hji
      rw [hpj] at hedge
      exact hgrand.trans hedge

/-- Without a wrong edge above `i` the tree is ordered. -/
theorem UpReady.ordered {g : ℕ → α} {n i : ℕ} (h : UpReady g n i)
    (hi : 0 < i → g (parent i) ≤ g i) : Ordered g n := by
  intro j hj hjn
  by_cases hji : j = i
  · subst hji; exact hi hj
  · exact h.edges j hj hjn hji

/-- A new last node is ready to be sifted up. -/
theorem Ordered.upReady_last {g : ℕ → α} {n : ℕ} (h : Ordered g n) (x : α) :
    UpReady (update g n x) (n + 1) n := by
  constructor
  · intro j hj hjn hjne
    have hp := parent_lt hj
    rw [Function.update_of_ne hjne, Function.update_of_ne (by omega)]
    exact h j hj (by omega)
  · intro j hj hjn hpj _
    have hp := parent_lt hj
    omega

/-- A node overwritten by a value below its parent is ready to be sifted up. -/
theorem Ordered.upReady_update {g : ℕ → α} {n i : ℕ} (h : Ordered g n) (hi : 0 < i) {x : α}
    (hx : x ≤ g (parent i)) : UpReady (update g i x) n i := by
  constructor
  · intro j hj hjn hjne
    rw [Function.update_of_ne hjne]
    by_cases hpj : parent j = i
    · rw [hpj, Function.update_self]
      have hedge := h.across hj hjn hpj hi
      exact hx.trans hedge
    · rw [Function.update_of_ne hpj]; exact h j hj hjn
  · intro j hj hjn hpj _
    have hp := parent_lt hj
    have hpi := parent_lt hi
    rw [Function.update_of_ne (by omega), Function.update_of_ne (by omega)]
    exact h.across hj hjn hpj hi

/-! ## Sifting down -/

/-- An exchange with a least child moves readiness to that child. -/
theorem DownReady.swap {g : ℕ → α} {n i c : ℕ} (h : DownReady g n i) (hc : 0 < c) (hcn : c < n)
    (hpc : parent c = i) (hlt : g c < g i)
    (hmin : ∀ j, 0 < j → j < n → parent j = i → g c ≤ g j) :
    DownReady (g ∘ Equiv.swap i c) n c := by
  have hic : i < c := hpc ▸ parent_lt hc
  constructor
  · intro j hj hjn hpjc
    simp only [Function.comp_apply, Equiv.swap_apply_def]
    rw [if_neg hpjc]
    by_cases hpj : parent j = i
    · rw [if_pos hpj]
      have hji : j ≠ i := by have := parent_lt hj; omega
      rw [if_neg hji]
      by_cases hjc : j = c
      · rw [if_pos hjc]; exact hlt.le
      · rw [if_neg hjc]; exact hmin j hj hjn hpj
    · rw [if_neg hpj]
      by_cases hji : j = i
      · subst hji
        rw [if_pos rfl]
        exact h.across c hc hcn hpc hj
      · have hjc : j ≠ c := fun hjc => hpj (hjc ▸ hpc)
        rw [if_neg hji, if_neg hjc]
        exact h.edges j hj hjn hpj
  · intro j hj hjn hpj _
    have hcj : c < j := hpj ▸ parent_lt hj
    have hedge := h.edges j hj hjn (by omega)
    rw [hpj] at hedge
    simp only [Function.comp_apply, Equiv.swap_apply_def]
    rw [hpc, if_pos rfl, if_neg (by omega), if_neg (by omega)]
    exact hedge

/-- Without a wrong edge below `i` the tree is ordered. -/
theorem DownReady.ordered {g : ℕ → α} {n i : ℕ} (h : DownReady g n i)
    (hi : ∀ j, 0 < j → j < n → parent j = i → g i ≤ g j) : Ordered g n := by
  intro j hj hjn
  by_cases hpj : parent j = i
  · rw [hpj]; exact hi j hj hjn hpj
  · exact h.edges j hj hjn hpj

/-- A node overwritten by a value not below its parent is ready to be sifted down. -/
theorem Ordered.downReady_update {g : ℕ → α} {n i : ℕ} (h : Ordered g n) {x : α}
    (hx : 0 < i → g (parent i) ≤ x) : DownReady (update g i x) n i := by
  constructor
  · intro j hj hjn hpj
    rw [Function.update_of_ne hpj]
    by_cases hji : j = i
    · subst hji; rw [Function.update_self]; exact hx hj
    · rw [Function.update_of_ne hji]; exact h j hj hjn
  · intro j hj hjn hpj hi
    have hp := parent_lt hj
    have hpi := parent_lt hi
    rw [Function.update_of_ne (by omega), Function.update_of_ne (by omega)]
    exact h.across hj hjn hpj hi

end HeapTree

end Muduo
