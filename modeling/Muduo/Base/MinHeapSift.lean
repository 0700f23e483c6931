import Muduo.Base.MinHeap
import Muduo.Foundations.HeapOrder

/-! # The sift loops of `MinHeap`

The vector with a hole at `i` that will receive `x` is read as the function `hole d x i` with the
hole already filled; moving the hole is then an exchange, and each loop is an instance of
`Loop.run_total` over the readiness predicates of `HeapTree`. The results are one lemma for each
loop: within the fuel it ends, inside the vector, at a position where filling the hole gives an
ordered tree with the contents it started from. -/

namespace Muduo

namespace MinHeap

open HeapTree (contents Ordered UpReady DownReady)

open Function (update)

variable {T : Type*}

/-! ## Vectors as functions -/

/-- The vector as a function on indices; `x` stands for the indices outside it. -/
def view (d : Vec T) (x : T) (k : ℕ) : T := d.elems.getD k x

/-- The vector whose hole at `i` is filled with `x`. -/
def hole (d : Vec T) (x : T) (i : ℕ) : ℕ → T := update (view d x) i x

theorem get?_eq_view {d : Vec T} {k : ℕ} (h : k < d.size) (x : T) :
    d.get? k = some (view d x k) := by
  unfold view Vec.get?
  rw [List.getD_eq_getElem?_getD, List.getElem?_eq_getElem h, Option.getD_some]

theorem view_eq_of_get? {d : Vec T} {k : ℕ} {a : T} (h : d.get? k = some a) (x : T) :
    view d x k = a := by
  rw [get?_eq_view (Vec.lt_of_get? h) x] at h
  exact Option.some.inj h

theorem view_set? {d d' : Vec T} {k : ℕ} {y : T} (h : d.set? k y = some d') (hk : k < d.size)
    (x : T) : view d' x = update (view d x) k y := by
  funext j
  unfold view
  rw [Vec.set?_elems h, List.getD_eq_getElem?_getD, List.getElem?_set]
  by_cases hjk : j = k
  · subst hjk
    rw [if_pos rfl, if_pos (show j < d.elems.length from hk), Option.getD_some,
      Function.update_self]
  · rw [if_neg (Ne.symm hjk), Function.update_of_ne hjk, List.getD_eq_getElem?_getD]

/-- Storing `x` in the hole fills it. -/
theorem view_fill {d d' : Vec T} {i : ℕ} {x : T} (h : d.set? i x = some d') (hi : i < d.size) :
    view d' x = hole d x i :=
  view_set? h hi x

/-- Moving the element at `j` into the hole at `i` exchanges the two in the filled vector. -/
theorem hole_move {d d' : Vec T} {i j : ℕ} {x : T} (hij : i ≠ j) (hi : i < d.size)
    (h : d.set? i (view d x j) = some d') : hole d' x j = hole d x i ∘ Equiv.swap i j := by
  rw [hole, view_set? h hi, HeapTree.update_update_eq_comp_swap _ hij, hole]

theorem hole_self (d : Vec T) (x : T) (i : ℕ) : hole d x i i = x := Function.update_self ..

theorem hole_of_ne (d : Vec T) (x : T) {i k : ℕ} (h : k ≠ i) : hole d x i k = view d x k :=
  Function.update_of_ne h ..

/-- The contents of the first `n` slots. -/
theorem contents_view {d : Vec T} {n : ℕ} (hn : n ≤ d.size) (x : T) :
    contents (view d x) n = (d.elems.take n : Multiset T) := by
  induction n with
  | zero => simp
  | succ n ih =>
    have hget : d.elems[n]? = some (view d x n) := get?_eq_view (by omega) x
    rw [HeapTree.contents_succ, ih (by omega), List.take_add_one, hget, Option.toList_some,
      ← Multiset.coe_add, add_comm]
    rfl

/-! ## What a sift carries along -/

/-- The hole lies in the first `n` slots, the vector keeps its size and capacity, and filling the
hole gives the contents `M`. -/
structure SiftState (x : T) (n size capacity : ℕ) (M : Multiset T) (s : Vec T × ℕ) : Prop where
  /-- The vector keeps its size. -/
  size_eq : s.1.size = size
  /-- The vector keeps its capacity. -/
  capacity_eq : s.1.capacity = capacity
  /-- The hole is one of the first `n` slots. -/
  lt : s.2 < n
  /-- The first `n` slots are inside the vector. -/
  le_size : n ≤ size
  /-- The contents with the hole filled. -/
  contents_eq : contents (hole s.1 x s.2) n = M

variable {x : T} {n size capacity : ℕ} {M : Multiset T}

theorem SiftState.lt_size {d : Vec T} {i : ℕ} (h : SiftState x n size capacity M (d, i)) :
    i < d.size :=
  h.lt.trans_le (h.le_size.trans_eq h.size_eq.symm)

/-- Moving the hole keeps what a sift carries along. -/
theorem SiftState.move {d d' : Vec T} {i j : ℕ} (h : SiftState x n size capacity M (d, i))
    (hij : i ≠ j) (hj : j < n) (hset : d.set? i (view d x j) = some d') :
    SiftState x n size capacity M (d', j) where
  size_eq := (Vec.set?_size hset).trans h.size_eq
  capacity_eq := (Vec.set?_capacity hset).trans h.capacity_eq
  lt := hj
  le_size := h.le_size
  contents_eq := by
    show contents (hole d' x j) n = M
    rw [hole_move hij h.lt_size hset, HeapTree.contents_comp_swap _ h.lt hj]
    exact h.contents_eq

/-- The hole can be filled. -/
theorem SiftState.fill {d : Vec T} {i : ℕ} (h : SiftState x n size capacity M (d, i)) :
    ∃ d', d.set? i x = some d' ∧ view d' x = hole d x i ∧ d'.size = size ∧
      d'.capacity = capacity ∧ contents (view d' x) n = M := by
  obtain ⟨d', hset, -, -⟩ := Vec.exists_set? h.lt_size x
  have hview := view_fill hset h.lt_size
  refine ⟨d', hset, hview, (Vec.set?_size hset).trans h.size_eq,
    (Vec.set?_capacity hset).trans h.capacity_eq, ?_⟩
  rw [hview]
  exact h.contents_eq

variable [LinearOrder T]

/-! ## The upward loops -/

/-- A round of an upward loop whose hole is not the root: it stops above a parent that is not
greater, or moves the hole to the parent. -/
theorem upward_round {d : Vec T} {i : ℕ} (h : SiftState x n size capacity M (d, i))
    (hr : UpReady (hole d x i) n i) (hi : 0 < i) :
    ∃ p, d.get? (parent i) = some p ∧
      (¬ x < p → Ordered (hole d x i) n) ∧
      (x < p → ∃ d', d.set? i p = some d' ∧ SiftState x n size capacity M (d', parent i) ∧
        UpReady (hole d' x (parent i)) n (parent i)) := by
  have hpi : parent i < i := HeapTree.parent_lt hi
  have hilt : i < n := h.lt
  have hpd : parent i < d.size := by have := h.lt_size; omega
  have hval : hole d x i (parent i) = view d x (parent i) := hole_of_ne d x (by omega)
  refine ⟨view d x (parent i), get?_eq_view hpd x, fun hle => ?_, fun hlt => ?_⟩
  · refine hr.ordered fun _ => ?_
    rw [hole_self]
    exact hval.trans_le (not_lt.mp hle)
  · obtain ⟨d', hset, -, -⟩ := Vec.exists_set? h.lt_size (view d x (parent i))
    refine ⟨d', hset, h.move (by omega) (by omega) hset, ?_⟩
    rw [hole_move (by omega) h.lt_size hset]
    refine hr.swap hi hilt ?_
    rw [hole_self]
    exact hlt.trans_eq hval.symm

/-- **The loop of `push`** ends and leaves a hole at which `x` gives an ordered tree. -/
theorem run_pushRound {d : Vec T} {i : ℕ} (h : SiftState x n size capacity M (d, i))
    (hr : UpReady (hole d x i) n i) : ∃ s, Loop.run (pushRound x) (i + 1) (d, i) = some s ∧
      SiftState x n size capacity M s ∧ Ordered (hole s.1 x s.2) n := by
  refine Loop.run_total (I := fun s => SiftState x n size capacity M s ∧
    UpReady (hole s.1 x s.2) n s.2) (fun s => s.2) ?_ ⟨h, hr⟩ (Nat.lt_succ_self i)
  rintro ⟨d, i⟩ ⟨h, hr⟩
  by_cases hi : 0 < i
  · obtain ⟨p, hget, hstop, hmove⟩ := upward_round h hr hi
    by_cases hxp : x < p
    · obtain ⟨d', hset, h', hr'⟩ := hmove hxp
      refine Or.inr ⟨(d', parent i), ?_, ⟨h', hr'⟩, HeapTree.parent_lt hi⟩
      rw [pushRound, if_pos hi, hget, Option.bind_some, if_pos hxp, hset, Option.map_some]
    · refine Or.inl ⟨(d, i), ?_, h, hstop hxp⟩
      rw [pushRound, if_pos hi, hget, Option.bind_some, if_neg hxp]
  · refine Or.inl ⟨(d, i), ?_, h, hr.ordered fun h0 => absurd h0 hi⟩
    rw [pushRound, if_neg hi]

/-- **The upward loop of `remove`** ends although its guard never fails: `x` is not below the root,
so the comparison at the root stops it. -/
theorem run_removeUpRound {d : Vec T} {i : ℕ} (h : SiftState x n size capacity M (d, i))
    (hr : UpReady (hole d x i) n i) (hi : 0 < i) (hroot : view d x 0 ≤ x) :
    ∃ s, Loop.run (removeUpRound x) (i + 1) (d, i) = some s ∧
      SiftState x n size capacity M s ∧ Ordered (hole s.1 x s.2) n := by
  refine Loop.run_total (I := fun s => SiftState x n size capacity M s ∧
    UpReady (hole s.1 x s.2) n s.2 ∧ 0 < s.2 ∧ view s.1 x 0 ≤ x) (fun s => s.2) ?_
    ⟨h, hr, hi, hroot⟩ (Nat.lt_succ_self i)
  rintro ⟨d, i⟩ ⟨h, hr, hi, hroot⟩
  obtain ⟨p, hget, hstop, hmove⟩ := upward_round h hr hi
  by_cases hxp : x < p
  · obtain ⟨d', hset, h', hr'⟩ := hmove hxp
    -- the root is not above `x`, so a parent above `x` is not the root
    have hp0 : 0 < parent i := by
      rcases Nat.eq_zero_or_pos (parent i) with h0 | h0
      · rw [h0] at hget
        exact absurd (hxp.trans_le ((view_eq_of_get? hget x).symm.trans_le hroot)) (lt_irrefl x)
      · exact h0
    have hroot' : view d' x 0 ≤ x := by
      rw [view_set? hset h.lt_size, Function.update_of_ne (by omega)]
      exact hroot
    refine Or.inr ⟨(d', parent i), ?_, ⟨h', hr', hp0, hroot'⟩, HeapTree.parent_lt hi⟩
    rw [removeUpRound, if_pos (Nat.zero_le _), hget, Option.bind_some, if_pos hxp, hset,
      Option.map_some]
  · refine Or.inl ⟨(d, i), ?_, h, hstop hxp⟩
    rw [removeUpRound, if_pos (Nat.zero_le _), hget, Option.bind_some, if_neg hxp]

/-! ## The downward loops -/

/-- The children of `i` are `left i` and `right i`, where these are nodes. -/
theorem forall_children {p : ℕ → Prop} {i : ℕ} (hl : left i < n → p (left i))
    (hr : right i < n → p (right i)) : ∀ j, 0 < j → j < n → HeapTree.parent j = i → p j := by
  intro j hj hjn hp
  rcases (HeapTree.parent_eq_iff hj).mp hp with rfl | rfl
  · exact hl hjn
  · exact hr hjn

theorem parent_left (i : ℕ) : HeapTree.parent (left i) = i :=
  (HeapTree.parent_eq_iff (by unfold left; omega)).mpr (Or.inl rfl)

theorem parent_right (i : ℕ) : HeapTree.parent (right i) = i :=
  (HeapTree.parent_eq_iff (by unfold right; omega)).mpr (Or.inr rfl)

/-- `minIdx` finds a least child below `x`, or no child of `i` is below `x`. -/
theorem minIdx_spec {d : Vec T} (hn : n ≤ d.size) (x : T) (i : ℕ) :
    (minIdx n x d i = some none ∧
      ∀ j, 0 < j → j < n → HeapTree.parent j = i → x ≤ view d x j) ∨
    ∃ c, minIdx n x d i = some (some c) ∧ 0 < c ∧ c < n ∧ HeapTree.parent c = i ∧
      view d x c < x ∧
      ∀ j, 0 < j → j < n → HeapTree.parent j = i → view d x c ≤ view d x j := by
  have hlr : left i < right i := by unfold left right; omega
  have hl0 : 0 < left i := by unfold left; omega
  by_cases hl : left i < n
  · have hgl := get?_eq_view (show left i < d.size by omega) x
    by_cases hr : right i < n
    · -- two children: the right one is compared with `x`, and with the left one if that is
      -- below `x`
      have hgr := get?_eq_view (show right i < d.size by omega) x
      by_cases hxl : view d x (left i) < x
      · have hm : minIdxLeft n x d i = some (some (left i)) := by
          rw [minIdxLeft, if_pos hl, hgl, Option.map_some, if_pos hxl]
        by_cases hxr : view d x (right i) < x
        · by_cases hcmp : view d x (left i) < view d x (right i)
          · refine Or.inr ⟨left i, ?_, hl0, hl, parent_left i, hxl,
              forall_children (fun _ => le_rfl) fun _ => hcmp.le⟩
            simp only [minIdx, hm, Option.bind_some, if_pos hr, hgr, if_pos hxr, hgl,
              Option.map_some, if_pos hcmp]
          · refine Or.inr ⟨right i, ?_, by omega, hr, parent_right i, hxr,
              forall_children (fun _ => not_lt.mp hcmp) fun _ => le_rfl⟩
            simp only [minIdx, hm, Option.bind_some, if_pos hr, hgr, if_pos hxr, hgl,
              Option.map_some, if_neg hcmp]
        · refine Or.inr ⟨left i, ?_, hl0, hl, parent_left i, hxl,
            forall_children (fun _ => le_rfl) fun _ => (hxl.trans_le (not_lt.mp hxr)).le⟩
          simp only [minIdx, hm, Option.bind_some, if_pos hr, hgr, if_neg hxr]
      · have hm : minIdxLeft n x d i = some none := by
          rw [minIdxLeft, if_pos hl, hgl, Option.map_some, if_neg hxl]
        by_cases hxr : view d x (right i) < x
        · refine Or.inr ⟨right i, ?_, by omega, hr, parent_right i, hxr,
            forall_children (fun _ => (hxr.trans_le (not_lt.mp hxl)).le) fun _ => le_rfl⟩
          simp only [minIdx, hm, Option.bind_some, if_pos hr, hgr, if_pos hxr]
        · refine Or.inl ⟨?_, forall_children (fun _ => not_lt.mp hxl) fun _ => not_lt.mp hxr⟩
          simp only [minIdx, hm, Option.bind_some, if_pos hr, hgr, if_neg hxr]
    · -- the left child only
      by_cases hxl : view d x (left i) < x
      · refine Or.inr ⟨left i, ?_, hl0, hl, parent_left i, hxl,
          forall_children (fun _ => le_rfl) fun hjn => absurd hjn hr⟩
        simp only [minIdx, minIdxLeft, if_pos hl, hgl, Option.map_some, gt_iff_lt, if_pos hxl,
          Option.bind_some, if_neg hr]
      · refine Or.inl ⟨?_, forall_children (fun _ => not_lt.mp hxl) fun hjn => absurd hjn hr⟩
        simp only [minIdx, minIdxLeft, if_pos hl, hgl, Option.map_some, gt_iff_lt, if_neg hxl,
          Option.bind_some, if_neg hr]
  · -- no child
    have hr : ¬ right i < n := by omega
    refine Or.inl ⟨?_, forall_children (fun hjn => absurd hjn hl) fun hjn => absurd hjn hr⟩
    simp only [minIdx, minIdxLeft, if_neg hl, Option.bind_some, if_neg hr]

/-- **The loop of `pop`**, also the downward loop of `remove`, ends and leaves a hole at which `x`
gives an ordered tree. -/
theorem run_siftDownRound {d : Vec T} {i : ℕ} (h : SiftState x n size capacity M (d, i))
    (hr : DownReady (hole d x i) n i) : ∃ s, Loop.run (siftDownRound n x) (n + 1) (d, i) = some s ∧
      SiftState x n size capacity M s ∧ Ordered (hole s.1 x s.2) n := by
  refine Loop.run_total (I := fun s => SiftState x n size capacity M s ∧
    DownReady (hole s.1 x s.2) n s.2) (fun s => n - s.2) ?_ ⟨h, hr⟩ (by show n - i < n + 1; omega)
  rintro ⟨d, i⟩ ⟨h, hr⟩
  have hn : n ≤ d.size := h.le_size.trans_eq h.size_eq.symm
  -- a child is not the hole, so its value in the filled vector is its stored value
  have hval : ∀ j, 0 < j → HeapTree.parent j = i → hole d x i j = view d x j := by
    intro j hj hp
    have := HeapTree.parent_lt hj
    exact hole_of_ne d x (by omega)
  rcases minIdx_spec hn x i with ⟨hmin, hle⟩ | ⟨c, hmin, hc0, hcn, hpc, hlt, hle⟩
  · refine Or.inl ⟨(d, i), ?_, h, hr.ordered fun j hj hjn hp => ?_⟩
    · rw [siftDownRound, hmin, Option.bind_some]
    · rw [hole_self, hval j hj hp]
      exact hle j hj hjn hp
  · have hic : i < c := hpc ▸ HeapTree.parent_lt hc0
    obtain ⟨d', hset, -, -⟩ := Vec.exists_set? h.lt_size (view d x c)
    refine Or.inr ⟨(d', c), ?_, ⟨h.move (by omega) hcn hset, ?_⟩, by show n - c < n - i; omega⟩
    · rw [siftDownRound, hmin, Option.bind_some]
      show ((d.get? c).bind fun y => (d.set? i y).map fun d' => Sum.inl (d', c)) = _
      rw [get?_eq_view (show c < d.size by omega) x, Option.bind_some, hset, Option.map_some]
    · rw [hole_move (by omega) h.lt_size hset]
      refine hr.swap hc0 hcn hpc ?_ fun j hj hjn hp => ?_
      · rw [hole_self, hval c hc0 hpc]; exact hlt
      · rw [hval c hc0 hpc, hval j hj hp]; exact hle j hj hjn hp

end MinHeap

end Muduo
