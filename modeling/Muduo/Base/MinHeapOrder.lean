import Muduo.Base.MinHeapSift

/-! # `MinHeap` as a priority queue

Each operation, started in a heap-ordered state whose elements lie inside the vector, ends in a
heap-ordered state and changes the multiset of elements as a priority queue does
(`push_spec`, `pop_spec`, `remove_spec`: one lemma for each operation, which also says what it does
to the storage). `Reachable` is every state of a run in which the vector is read as large enough:
between two operations the storage beyond `size_` may be anything. -/

namespace Muduo

namespace MinHeap

open HeapTree (contents Ordered)

open Function (update)

variable {T : Type*}

/-- The elements in use, `data_[0, size_)`. -/
def elems (h : MinHeap T) : List T := h.data.elems.take h.size

/-- The multiset of the elements in use. -/
def toMultiset (h : MinHeap T) : Multiset T := h.elems

/-- The elements in use lie inside the vector. -/
def Stored (h : MinHeap T) : Prop := h.size ≤ h.data.size

theorem Stored.length_elems {h : MinHeap T} (hs : h.Stored) : h.elems.length = h.size := by
  rw [elems, List.length_take]; exact Nat.min_eq_left hs

theorem Stored.elems_getElem? {h : MinHeap T} (hs : h.Stored) {k : ℕ} (hk : k < h.size) (x : T) :
    h.elems[k]? = some (view h.data x k) := by
  rw [elems, List.getElem?_take_of_lt hk]
  exact get?_eq_view (hk.trans_le hs) x

theorem Stored.toMultiset_eq {h : MinHeap T} (hs : h.Stored) (x : T) :
    h.toMultiset = contents (view h.data x) h.size :=
  (contents_view hs x).symm

variable [LinearOrder T]

/-- The heap order of `data_[0, size_)`: no element is above a child. -/
def HeapOrdered (h : MinHeap T) : Prop :=
  ∀ i j a b, (j = left i ∨ j = right i) → h.elems[i]? = some a → h.elems[j]? = some b → a ≤ b

/-- The heap order is the order of the tree of indices. -/
theorem Stored.heapOrdered_iff {h : MinHeap T} (hs : h.Stored) (x : T) :
    h.HeapOrdered ↔ Ordered (view h.data x) h.size := by
  constructor
  · intro ho j hj hjn
    have hpj := HeapTree.parent_lt hj
    exact ho (HeapTree.parent j) j _ _ ((HeapTree.parent_eq_iff hj).mp rfl)
      (hs.elems_getElem? (by omega) x) (hs.elems_getElem? hjn x)
  · -- a child is above the root, and `i` is its parent
    intro ho i j a b hij ha hb
    have hj : 0 < j := by unfold left right at hij; omega
    have hjn : j < h.size := by
      have := (List.getElem?_eq_some_iff.mp hb).1
      rwa [hs.length_elems] at this
    have hp : HeapTree.parent j = i := (HeapTree.parent_eq_iff hj).mpr hij
    have hpj := HeapTree.parent_lt hj
    rw [hs.elems_getElem? (by omega) x] at ha hb
    rw [← Option.some.inj ha, ← Option.some.inj hb, ← hp]
    exact ho j hj hjn

/-- The first element of a heap-ordered state is a least one. -/
theorem HeapOrdered.top_le {h : MinHeap T} (ho : h.HeapOrdered) (hs : h.Stored) {a : T}
    (ha : h.top = some a) : ∀ b ∈ h.toMultiset, a ≤ b := by
  intro b hb
  rw [hs.toMultiset_eq a, HeapTree.mem_contents] at hb
  obtain ⟨i, hi, hib⟩ := hb
  calc a = view h.data a 0 := (view_eq_of_get? ha a).symm
    _ ≤ view h.data a i := ((hs.heapOrdered_iff a).mp ho).root_le hi
    _ = b := hib

omit [LinearOrder T] in
/-- A non-empty state has a first element, which is one of its elements. -/
theorem Stored.exists_top {h : MinHeap T} (hs : h.Stored) (hpos : 0 < h.size) :
    ∃ a, h.top = some a ∧ a ∈ h.toMultiset := by
  obtain ⟨a, ha⟩ := Vec.exists_get? (hpos.trans_le hs)
  refine ⟨a, ha, ?_⟩
  rw [hs.toMultiset_eq a, HeapTree.mem_contents]
  exact ⟨0, hpos, view_eq_of_get? ha a⟩

/-! ## The storage policy keeps the elements -/

section Storage

variable [Inhabited T] (alloc : Allocation)

omit [LinearOrder T] in
@[simp] theorem size_shrink (h : MinHeap T) : (shrink alloc h).size = h.size := by
  unfold shrink; split <;> rfl

omit [LinearOrder T] in
theorem Stored.elems_shrink {h : MinHeap T} (hs : h.Stored) : (shrink alloc h).elems = h.elems := by
  unfold shrink
  split
  · exact Vec.take_elems_resize alloc h.data le_rfl hs
  · rfl

omit [LinearOrder T] in
theorem Stored.elems_expand {h : MinHeap T} (hs : h.Stored) : (expand alloc h).elems = h.elems := by
  unfold expand
  split
  · exact Vec.take_elems_resize alloc h.data (show h.size ≤ 2 * h.size by omega) hs
  · rfl

omit [LinearOrder T] in
theorem Stored.shrink {h : MinHeap T} (hs : h.Stored) : (MinHeap.shrink alloc h).Stored := by
  unfold MinHeap.shrink
  split
  · exact (Vec.size_resize alloc h.data h.size).ge
  · exact hs

omit [LinearOrder T] in
theorem Stored.expand {h : MinHeap T} (hs : h.Stored) : (MinHeap.expand alloc h).Stored := by
  unfold MinHeap.expand
  split
  · show h.size ≤ (h.data.resize alloc (2 * h.size)).size
    rw [Vec.size_resize]; omega
  · exact hs

end Storage

/-- Order and contents depend on the elements in use only. -/
theorem HeapOrdered.congr {h h' : MinHeap T} (ho : h.HeapOrdered) (he : h'.elems = h.elems) :
    h'.HeapOrdered := by
  intro i j a b hij
  rw [he]
  exact ho i j a b hij

/-! ## The operations -/

variable [Inhabited T] (alloc : Allocation)

/-- What an operation leaves before the storage policy acts: a heap-ordered state with `n` elements
`M` in a vector of the same size and capacity. -/
structure Resettled (h : MinHeap T) (n : ℕ) (M : Multiset T) (d : Vec T) : Prop where
  /-- The vector keeps its size. -/
  size_eq : d.size = h.data.size
  /-- The vector keeps its capacity. -/
  capacity_eq : d.capacity = h.data.capacity
  /-- The elements in use are inside the vector. -/
  stored : (⟨d, n, h.capacity⟩ : MinHeap T).Stored
  /-- The elements in use are in heap order. -/
  ordered : (⟨d, n, h.capacity⟩ : MinHeap T).HeapOrdered
  /-- The elements in use. -/
  toMultiset_eq : (⟨d, n, h.capacity⟩ : MinHeap T).toMultiset = M

omit [Inhabited T] in
/-- A sift that ended well can be filled. -/
theorem exists_fill {h : MinHeap T} {x : T} {n : ℕ} {M : Multiset T} {d : Vec T} {j : ℕ}
    (hsift : SiftState x n h.data.size h.data.capacity M (d, j)) (ho : Ordered (hole d x j) n) :
    ∃ d', d.set? j x = some d' ∧ d'.get? j = some x ∧ Resettled h n M d' := by
  obtain ⟨d', hset, hview, hsize, hcap, hM⟩ := hsift.fill
  have hst : (⟨d', n, h.capacity⟩ : MinHeap T).Stored := hsift.le_size.trans_eq hsize.symm
  refine ⟨d', hset, ?_, hsize, hcap, hst, ?_, ?_⟩
  · rw [get?_eq_view ((hsift.lt.trans_le hst)) x, hview, hole_self]
  · rw [hst.heapOrdered_iff x, hview]; exact ho
  · rw [hst.toMultiset_eq x]; exact hM

/-- **`push`** with a free slot ends, adds `x` and answers an index that holds it. -/
theorem push_spec {h : MinHeap T} (ho : h.HeapOrdered) (hroom : h.size < h.data.size) (x : T) :
    ∃ d i, push alloc h x = some (expand alloc ⟨d, h.size + 1, h.capacity⟩, i) ∧
      Resettled h (h.size + 1) (x ::ₘ h.toMultiset) d ∧ i < h.size + 1 ∧ d.get? i = some x := by
  have hs : h.Stored := hroom.le
  -- the hole is the first free slot: filled with `x`, it adds `x` to the elements
  have hstart : SiftState x (h.size + 1) h.data.size h.data.capacity (x ::ₘ h.toMultiset)
      (h.data, h.size) := by
    refine ⟨rfl, rfl, Nat.lt_succ_self _, hroom, ?_⟩
    rw [HeapTree.contents_succ, hole_self, hs.toMultiset_eq x]
    exact congrArg (x ::ₘ ·) (HeapTree.contents_congr fun i hi => hole_of_ne _ _ (Nat.ne_of_lt hi))
  obtain ⟨⟨d, i⟩, hrun, hsift, hord⟩ :=
    run_pushRound hstart (((hs.heapOrdered_iff x).mp ho).upReady_last x)
  obtain ⟨d', hset, hget, hres⟩ := exists_fill hsift hord
  refine ⟨d', i, ?_, hres, hsift.lt, hget⟩
  rw [push, hrun, Option.bind_some]
  show ((d.set? i x).map fun d' => (expand alloc ⟨d', h.size + 1, h.capacity⟩, i)) = _
  rw [hset, Option.map_some]

omit [LinearOrder T] [Inhabited T] in
/-- Filling a hole at `i` with the last element removes the element at `i`. -/
theorem contents_hole_last {h : MinHeap T} (hs : h.Stored) {n i : ℕ} (hn : h.size = n + 1)
    (hi : i < n) {x : T} (hx : view h.data x n = x) :
    view h.data x i ::ₘ contents (hole h.data x i) n = h.toMultiset := by
  rw [hole, HeapTree.contents_update _ hi, hs.toMultiset_eq x, hn, HeapTree.contents_succ, hx]

/-- Sifting the last element down from a hole at `i` removes the element at `i`. -/
theorem siftDown_spec {h : MinHeap T} (ho : h.HeapOrdered) (hs : h.Stored) {n i : ℕ}
    (hn : h.size = n + 1) (hi : i < n) {x a : T} (hx : h.data.get? n = some x)
    (ha : h.data.get? i = some a) (hpar : 0 < i → view h.data x (HeapTree.parent i) ≤ x) :
    ∃ d, siftDown alloc { h with size := n } x i = some (shrink alloc ⟨d, n, h.capacity⟩) ∧
      Resettled h n (h.toMultiset.erase a) d := by
  have hcont := contents_hole_last hs hn hi (view_eq_of_get? hx x)
  rw [view_eq_of_get? ha x] at hcont
  have hstart : SiftState x n h.data.size h.data.capacity (h.toMultiset.erase a) (h.data, i) :=
    ⟨rfl, rfl, hi, by unfold Stored at hs; omega, by rw [← hcont, Multiset.erase_cons_head]⟩
  have hord : Ordered (view h.data x) n := ((hs.heapOrdered_iff x).mp ho).mono (by omega)
  obtain ⟨⟨d, j⟩, hrun, hsift, hord'⟩ := run_siftDownRound hstart (hord.downReady_update hpar)
  obtain ⟨d', hset, -, hres⟩ := exists_fill hsift hord'
  refine ⟨d', ?_, hres⟩
  rw [siftDown, hrun, Option.bind_some]
  show ((d.set? j x).map fun d' => shrink alloc ⟨d', n, h.capacity⟩) = _
  rw [hset, Option.map_some]

/-- Sifting the last element up from a hole at `i` removes the element at `i`. -/
theorem siftUp_spec {h : MinHeap T} (ho : h.HeapOrdered) (hs : h.Stored) {n i : ℕ}
    (hn : h.size = n + 1) (hi0 : 0 < i) (hi : i < n) {x a : T} (hx : h.data.get? n = some x)
    (ha : h.data.get? i = some a) (hpar : x ≤ view h.data x (HeapTree.parent i)) :
    ∃ d, siftUp alloc { h with size := n } x i = some (shrink alloc ⟨d, n, h.capacity⟩) ∧
      Resettled h n (h.toMultiset.erase a) d := by
  have hcont := contents_hole_last hs hn hi (view_eq_of_get? hx x)
  rw [view_eq_of_get? ha x] at hcont
  have hstart : SiftState x n h.data.size h.data.capacity (h.toMultiset.erase a) (h.data, i) :=
    ⟨rfl, rfl, hi, by unfold Stored at hs; omega, by rw [← hcont, Multiset.erase_cons_head]⟩
  have hfull := (hs.heapOrdered_iff x).mp ho
  have hord : Ordered (view h.data x) n := hfull.mono (by omega)
  -- the guard of the loop does not stop it at the root, the order does
  have hroot : view h.data x 0 ≤ x :=
    (hfull.root_le (show n < h.size by omega)).trans_eq (view_eq_of_get? hx x)
  obtain ⟨⟨d, j⟩, hrun, hsift, hord'⟩ :=
    run_removeUpRound hstart (hord.upReady_update hi0 hpar) hi0 hroot
  obtain ⟨d', hset, -, hres⟩ := exists_fill hsift hord'
  refine ⟨d', ?_, hres⟩
  rw [siftUp, Loop.run_mono (by show i + 1 ≤ n + 1; omega) hrun, Option.bind_some]
  show ((d.set? j x).map fun d' => shrink alloc ⟨d', n, h.capacity⟩) = _
  rw [hset, Option.map_some]

/-- The last element taken out of a heap of one: `pop` stores it back and the heap is empty. -/
theorem pop_single {h : MinHeap T} (hs : h.Stored) (h1 : h.size = 1) {a : T}
    (ha : h.top = some a) :
    ∃ d, pop alloc h = some (shrink alloc ⟨d, 0, h.capacity⟩) ∧
      Resettled h 0 (h.toMultiset.erase a) d := by
  have hpos : 0 < h.data.size := by unfold Stored at hs; omega
  obtain ⟨d, hset, -, hcap⟩ := Vec.exists_set? hpos a
  -- no child is below the size, so the first round ends the loop
  have hrun : Loop.run (siftDownRound 0 a) (0 + 1) (h.data, 0) = some (h.data, 0) := by
    refine Loop.run_stop ?_
    rw [siftDownRound, minIdx, minIdxLeft, if_neg (Nat.not_lt_zero _), Option.bind_some,
      if_neg (Nat.not_lt_zero _), Option.bind_some]
  refine ⟨d, ?_, Vec.set?_size hset, hcap, Nat.zero_le _, ?_, ?_⟩
  · rw [pop, if_neg (by omega), h1, show h.data.get? (1 - 1) = some a from ha, Option.bind_some,
      siftDown]
    show ((Loop.run (siftDownRound 0 a) (0 + 1) (h.data, 0)).bind fun p =>
      (p.1.set? p.2 a).map fun d' => shrink alloc ⟨d', 0, h.capacity⟩) = _
    rw [hrun, Option.bind_some]
    show ((h.data.set? 0 a).map fun d' => shrink alloc ⟨d', 0, h.capacity⟩) = _
    rw [hset, Option.map_some]
  · intro i j a b _ ha
    simp [elems] at ha
  · have : h.toMultiset = {a} := by
      rw [hs.toMultiset_eq a, h1, HeapTree.contents_succ, view_eq_of_get? ha a,
        HeapTree.contents_zero]
      rfl
    rw [this, ← Multiset.cons_zero, Multiset.erase_cons_head]
    rfl

/-- **`pop`** on a non-empty heap ends and removes the first element. -/
theorem pop_spec {h : MinHeap T} (ho : h.HeapOrdered) (hs : h.Stored) (hpos : 0 < h.size) {a : T}
    (ha : h.top = some a) :
    ∃ d, pop alloc h = some (shrink alloc ⟨d, h.size - 1, h.capacity⟩) ∧
      Resettled h (h.size - 1) (h.toMultiset.erase a) d := by
  by_cases h1 : h.size = 1
  · rw [h1]; exact pop_single alloc hs h1 ha
  · obtain ⟨x, hx⟩ := Vec.exists_get? (show h.size - 1 < h.data.size by
      unfold Stored at hs; omega)
    obtain ⟨d, hd, hres⟩ := siftDown_spec alloc ho hs (n := h.size - 1) (by omega)
      (i := 0) (by omega) hx ha (fun h0 => absurd h0 (lt_irrefl 0))
    exact ⟨d, by rw [pop, if_neg (by omega), hx, Option.bind_some, hd], hres⟩

/-- **`remove(i)`** for an index in use ends and removes the element at `i`. Taking out the last
element leaves the storage alone. -/
theorem remove_spec {h : MinHeap T} (ho : h.HeapOrdered) (hs : h.Stored) {i : ℕ}
    (hi : i < h.size) {a : T} (ha : h.data.get? i = some a) :
    ∃ d, remove alloc h i = some (if i = h.size - 1 then ⟨d, h.size - 1, h.capacity⟩
        else shrink alloc ⟨d, h.size - 1, h.capacity⟩) ∧
      Resettled h (h.size - 1) (h.toMultiset.erase a) d := by
  by_cases hlast : i = h.size - 1
  · -- the last element is dropped: what is left is a prefix of an ordered heap
    have hst : (⟨h.data, h.size - 1, h.capacity⟩ : MinHeap T).Stored := by
      unfold Stored at hs ⊢; show h.size - 1 ≤ h.data.size; omega
    refine ⟨h.data, ?_, rfl, rfl, hst, ?_, ?_⟩
    · rw [remove, if_neg (by omega), if_pos hlast, if_pos hlast]
    · rw [hst.heapOrdered_iff a]
      exact ((hs.heapOrdered_iff a).mp ho).mono (Nat.sub_le _ _)
    · have hcons : h.toMultiset = a ::ₘ contents (view h.data a) (h.size - 1) := by
        rw [hs.toMultiset_eq a, ← Nat.sub_add_cancel (show 1 ≤ h.size by omega),
          HeapTree.contents_succ, Nat.sub_add_cancel (show 1 ≤ h.size by omega), ← hlast,
          view_eq_of_get? ha a]
      rw [hst.toMultiset_eq a, hcons, Multiset.erase_cons_head]
  · obtain ⟨x, hx⟩ := Vec.exists_get? (show h.size - 1 < h.data.size by
      unfold Stored at hs; omega)
    have hpi := HeapTree.parent_le i
    have hp : h.data.get? (parent i) = some (view h.data x (HeapTree.parent i)) :=
      get?_eq_view (show HeapTree.parent i < h.data.size by unfold Stored at hs; omega) x
    have hroot : view h.data x 0 ≤ x :=
      (((hs.heapOrdered_iff x).mp ho).root_le (show h.size - 1 < h.size by omega)).trans_eq
        (view_eq_of_get? hx x)
    by_cases hxp : x < view h.data x (HeapTree.parent i)
    · -- at the root `x` is not below its own parent, so the hole is further down
      have hi0 : 0 < i := by
        rcases Nat.eq_zero_or_pos i with h0 | h0
        · subst h0; exact absurd (hxp.trans_le hroot) (lt_irrefl x)
        · exact h0
      obtain ⟨d, hd, hres⟩ := siftUp_spec alloc ho hs (n := h.size - 1) (by omega) hi0 (by omega)
        hx ha hxp.le
      refine ⟨d, ?_, hres⟩
      rw [remove, if_neg (by omega), if_neg hlast, if_neg hlast, hx, Option.bind_some, hp,
        Option.bind_some, if_pos ⟨Nat.zero_le _, hxp⟩, hd]
    · -- the parent is not above `x`, so the order above the hole holds
      obtain ⟨d, hd, hres⟩ := siftDown_spec alloc ho hs (n := h.size - 1) (by omega) (by omega)
        hx ha (fun _ => not_lt.mp hxp)
      refine ⟨d, ?_, hres⟩
      rw [remove, if_neg (by omega), if_neg hlast, if_neg hlast, hx, Option.bind_some, hp,
        Option.bind_some, if_neg (fun hc => hxp hc.2), hd]

end MinHeap

end Muduo
