import Muduo.Base.MinHeapOrder

/-! # Runs of `MinHeap` on an ample vector

`Reachable` collects the states of every run of `push`, `pop` and `remove` in which the vector is
read as an array large enough for `size_ + 1` elements: between two operations the slots beyond
`size_`, the vector's size and both capacities may become anything that leaves room. What the
storage policy of the code does with them is a separate question. -/

namespace Muduo

namespace MinHeap

variable {T : Type*} [LinearOrder T] [Inhabited T] (alloc : Allocation)

/-- The states of a run on an ample vector. -/
inductive Reachable : MinHeap T → Prop
  | new (n : ℕ) : Reachable (new alloc n)
  /-- The storage outside `data_[0, size_)` is left open. -/
  | reserve {h h' : MinHeap T} : Reachable h → h'.size = h.size → h'.elems = h.elems → Reachable h'
  | push {h h' : MinHeap T} {x : T} {i : ℕ} : Reachable h → h.size + 1 ≤ h.data.size →
      push alloc h x = some (h', i) → Reachable h'
  | pop {h h' : MinHeap T} : Reachable h → 0 < h.size → pop alloc h = some h' → Reachable h'
  | remove {h h' : MinHeap T} {i : ℕ} : Reachable h → i < h.size → remove alloc h i = some h' →
      Reachable h'

/-! ## One operation -/

/-- `push` with room ends in an ordered state with `x` added, stored at the answered index. -/
theorem HeapOrdered.push {h : MinHeap T} (ho : h.HeapOrdered) (hroom : h.size + 1 ≤ h.data.size)
    (x : T) : ∃ h' i, MinHeap.push alloc h x = some (h', i) ∧ h'.HeapOrdered ∧ h'.Stored ∧
      h'.toMultiset = x ::ₘ h.toMultiset ∧ h'.elems[i]? = some x := by
  obtain ⟨d, i, hpush, hres, hi, hget⟩ := push_spec alloc ho hroom x
  have helems := hres.stored.elems_expand alloc
  refine ⟨_, i, hpush, hres.ordered.congr helems, hres.stored.expand alloc, ?_, ?_⟩
  · rw [toMultiset, helems]; exact hres.toMultiset_eq
  · rw [helems, hres.stored.elems_getElem? hi x, view_eq_of_get? hget x]

/-- `pop` ends in an ordered state without the first element. -/
theorem HeapOrdered.pop {h : MinHeap T} (ho : h.HeapOrdered) (hs : h.Stored) (hpos : 0 < h.size)
    {a : T} (ha : h.top = some a) : ∃ h', MinHeap.pop alloc h = some h' ∧ h'.HeapOrdered ∧
      h'.Stored ∧ h'.size = h.size - 1 ∧ h'.toMultiset = h.toMultiset.erase a := by
  obtain ⟨d, hpop, hres⟩ := pop_spec alloc ho hs hpos ha
  have helems := hres.stored.elems_shrink alloc
  refine ⟨_, hpop, hres.ordered.congr helems, hres.stored.shrink alloc, size_shrink alloc _, ?_⟩
  rw [toMultiset, helems]
  exact hres.toMultiset_eq

/-- `remove(i)` ends in an ordered state without the element at `i`. -/
theorem HeapOrdered.remove {h : MinHeap T} (ho : h.HeapOrdered) (hs : h.Stored) {i : ℕ}
    (hi : i < h.size) {a : T} (ha : h.elems[i]? = some a) :
    ∃ h', MinHeap.remove alloc h i = some h' ∧ h'.HeapOrdered ∧ h'.Stored ∧
      h'.toMultiset = h.toMultiset.erase a := by
  have hget : h.data.get? i = some a := by
    rwa [elems, List.getElem?_take_of_lt hi] at ha
  obtain ⟨d, hrem, hres⟩ := remove_spec alloc ho hs hi hget
  by_cases hlast : i = h.size - 1
  · rw [if_pos hlast] at hrem
    exact ⟨_, hrem, hres.ordered, hres.stored, hres.toMultiset_eq⟩
  · rw [if_neg hlast] at hrem
    have helems := hres.stored.elems_shrink alloc
    refine ⟨_, hrem, hres.ordered.congr helems, hres.stored.shrink alloc, ?_⟩
    rw [toMultiset, helems]
    exact hres.toMultiset_eq

/-! ## Every run -/

variable {alloc}

/-- Every state of a run is in heap order and inside its vector. -/
theorem Reachable.ordered {h : MinHeap T} (hr : Reachable alloc h) : h.HeapOrdered ∧ h.Stored := by
  induction hr with
  | new n =>
    refine ⟨fun i j a b _ ha => ?_, Nat.zero_le _⟩
    simp [elems, MinHeap.new] at ha
  | @reserve h h' _ hsize helems ih =>
    -- the elements are the same, and there are as many as before
    refine ⟨ih.1.congr helems, ?_⟩
    have hlen := ih.2.length_elems
    rw [← helems, elems, List.length_take, ← hsize] at hlen
    exact min_eq_left_iff.mp hlen
  | push _ hroom hpush ih =>
    obtain ⟨h', i, hpush', ho, hs, -⟩ := ih.1.push alloc hroom _
    rw [hpush] at hpush'
    cases hpush'
    exact ⟨ho, hs⟩
  | pop _ hpos hpop ih =>
    obtain ⟨a, ha, -⟩ := ih.2.exists_top hpos
    obtain ⟨h', hpop', ho, hs, -⟩ := ih.1.pop alloc ih.2 hpos ha
    rw [hpop] at hpop'
    cases hpop'
    exact ⟨ho, hs⟩
  | @remove h _ i _ hi hrem ih =>
    obtain ⟨a, ha⟩ : ∃ a, h.elems[i]? = some a :=
      ⟨_, List.getElem?_eq_getElem (hi.trans_eq ih.2.length_elems.symm)⟩
    obtain ⟨h', hrem', ho, hs, -⟩ := ih.1.remove alloc ih.2 hi ha
    rw [hrem] at hrem'
    cases hrem'
    exact ⟨ho, hs⟩

/-- Read and remove the first element `k` times. -/
def popMany (alloc : Allocation) : ℕ → MinHeap T → Option (List T × MinHeap T)
  | 0, h => some ([], h)
  | k + 1, h =>
      h.top.bind fun a => (MinHeap.pop alloc h).bind fun h' =>
        (popMany alloc k h').map fun (l, h'') => (a :: l, h'')

/-- Successive pops give the elements in sorted order, none above what is left. -/
theorem HeapOrdered.popMany {h : MinHeap T} (ho : h.HeapOrdered) (hs : h.Stored) {k : ℕ}
    (hk : k ≤ h.size) : ∃ l h', MinHeap.popMany alloc k h = some (l, h') ∧ l.Pairwise (· ≤ ·) ∧
      l + h'.toMultiset = h.toMultiset := by
  induction k generalizing h with
  | zero => exact ⟨[], h, rfl, List.Pairwise.nil, by simp⟩
  | succ k ih =>
    obtain ⟨a, ha, hmem⟩ := hs.exists_top (show 0 < h.size by omega)
    obtain ⟨h₁, hpop, ho₁, hs₁, hsize, hM⟩ := ho.pop alloc hs (by omega) ha
    obtain ⟨l, h₂, hmany, hsorted, hsum⟩ := ih ho₁ hs₁ (by omega)
    refine ⟨a :: l, h₂, ?_, ?_, ?_⟩
    · rw [MinHeap.popMany, ha, Option.bind_some, hpop, Option.bind_some, hmany, Option.map_some]
    · -- what comes out later was in the heap, above its top
      refine List.pairwise_cons.mpr ⟨fun b hb => ?_, hsorted⟩
      have hb' : b ∈ h₁.toMultiset := hsum ▸ Multiset.mem_add.mpr (Or.inl hb)
      exact ho.top_le hs ha b (Multiset.mem_of_mem_erase (hM ▸ hb'))
    · rw [← Multiset.cons_coe, Multiset.cons_add, hsum, hM, Multiset.cons_erase hmem]

omit [Inhabited T] in
/-- On distinct elements the heap order is strict, so `assertOrder` passes. -/
theorem HeapOrdered.assertOrder {h : MinHeap T} (ho : h.HeapOrdered) (hs : h.Stored)
    (hd : h.elems.Nodup) : h.assertOrder = true := by
  rw [MinHeap.assertOrder, List.all_eq_true]
  intro i hi
  rw [List.mem_range] at hi
  rw [List.all_eq_true]
  intro c hc
  have hc : c = left i ∨ c = right i := by simpa using hc
  by_cases hcn : c < h.size
  · obtain ⟨a, ha⟩ := Vec.exists_get? (hi.trans_le hs)
    obtain ⟨b, hb⟩ := Vec.exists_get? (hcn.trans_le hs)
    have hia : h.elems[i]? = some a := by rw [elems, List.getElem?_take_of_lt hi]; exact ha
    have hcb : h.elems[c]? = some b := by rw [elems, List.getElem?_take_of_lt hcn]; exact hb
    -- equal elements at different indices would be a duplicate
    have hic : i ≠ c := by unfold left right at hc; omega
    have hne : a ≠ b := by
      rintro rfl
      obtain ⟨hil, hia⟩ := List.getElem?_eq_some_iff.mp hia
      obtain ⟨hcl, hcb⟩ := List.getElem?_eq_some_iff.mp hcb
      exact hic ((List.Nodup.getElem_inj_iff hd).mp (hia.trans hcb.symm))
    rw [if_pos hcn, ha, hb]
    exact decide_eq_true (lt_of_le_of_ne (ho i c a b hc hia hcb) hne)
  · rw [if_neg hcn]

/-- **`MinHeap` is a correct priority queue** on a vector large enough for `size_ + 1` elements.
From every heap-ordered state the three operations end, in a heap-ordered state, and change the
multiset of elements as they should; in every run the top is a minimum, successive pops come out
sorted, and on distinct elements `assertOrder` does not fire. -/
theorem minHeap_priorityQueue (alloc : Allocation) :
    (∀ h : MinHeap T, h.HeapOrdered → h.size + 1 ≤ h.data.size → ∀ x, ∃ h' i,
      MinHeap.push alloc h x = some (h', i) ∧ h'.HeapOrdered ∧
        h'.toMultiset = x ::ₘ h.toMultiset ∧ h'.elems[i]? = some x) ∧
    (∀ h : MinHeap T, h.HeapOrdered → h.Stored → 0 < h.size → ∃ h' a,
      MinHeap.pop alloc h = some h' ∧ h'.HeapOrdered ∧ a ∈ h.toMultiset ∧
        (∀ b ∈ h.toMultiset, a ≤ b) ∧ h'.toMultiset = h.toMultiset.erase a) ∧
    (∀ h : MinHeap T, h.HeapOrdered → h.Stored → ∀ i < h.size, ∃ h' a,
      MinHeap.remove alloc h i = some h' ∧ h'.HeapOrdered ∧ h.elems[i]? = some a ∧
        h'.toMultiset = h.toMultiset.erase a) ∧
    (∀ h : MinHeap T, Reachable alloc h →
      h.HeapOrdered ∧
      (0 < h.size → ∃ a, h.top = some a ∧ a ∈ h.toMultiset ∧ ∀ b ∈ h.toMultiset, a ≤ b) ∧
      (∀ k ≤ h.size, ∃ l h', MinHeap.popMany alloc k h = some (l, h') ∧ l.Pairwise (· ≤ ·) ∧
        l + h'.toMultiset = h.toMultiset) ∧
      (h.elems.Nodup → h.assertOrder = true)) := by
  refine ⟨fun h ho hroom x => ?_, fun h ho hs hpos => ?_, fun h ho hs i hi => ?_, fun h hr => ?_⟩
  · obtain ⟨h', i, hpush, ho', -, hM, hget⟩ := ho.push alloc hroom x
    exact ⟨h', i, hpush, ho', hM, hget⟩
  · obtain ⟨a, ha, hmem⟩ := hs.exists_top hpos
    obtain ⟨h', hpop, ho', -, -, hM⟩ := ho.pop alloc hs hpos ha
    exact ⟨h', a, hpop, ho', hmem, ho.top_le hs ha, hM⟩
  · obtain ⟨a, ha⟩ : ∃ a, h.elems[i]? = some a :=
      ⟨_, List.getElem?_eq_getElem (hi.trans_eq hs.length_elems.symm)⟩
    obtain ⟨h', hrem, ho', -, hM⟩ := ho.remove alloc hs hi ha
    exact ⟨h', a, hrem, ho', ha, hM⟩
  · obtain ⟨ho, hs⟩ := hr.ordered
    refine ⟨ho, fun hpos => ?_, fun k hk => ho.popMany hs hk, ho.assertOrder hs⟩
    obtain ⟨a, ha, hmem⟩ := hs.exists_top hpos
    exact ⟨a, ha, hmem, ho.top_le hs ha⟩

/-- A heap of seven elements in eight slots. -/
def seven : MinHeap ℕ := ⟨⟨[1, 10, 2, 11, 12, 3, 4, 0], 8, le_refl 8⟩, 7, 8⟩

/-- The theorem at work on it: `pop()` sifts the last element down to a leaf, and `remove(3)` sifts
it up, past the parent of `11`. -/
theorem minHeap_priorityQueue_seven :
    (∃ h', pop .exact seven = some h' ∧ h'.HeapOrdered ∧ h'.elems = [2, 10, 3, 11, 12, 4]) ∧
    ∃ h', remove .exact seven 3 = some h' ∧ h'.HeapOrdered ∧ h'.elems = [1, 4, 2, 10, 12, 3] := by
  have hstored : seven.Stored := show 7 ≤ 8 by decide
  have hpairs : ∀ i < 7, ∀ c ∈ [left i, right i], ∀ a ∈ seven.elems[i]?, ∀ b ∈ seven.elems[c]?,
      a ≤ b := by
    decide
  have hordered : seven.HeapOrdered := by
    intro i c a b hc ha hb
    have hi : i < 7 := (List.getElem?_eq_some_iff.mp ha).1
    exact hpairs i hi c (by simpa using hc) a ha b hb
  constructor
  · obtain ⟨h', a, hpop, hordered', -⟩ :=
      (minHeap_priorityQueue .exact).2.1 seven hordered hstored (by decide)
    have helems : (pop .exact seven).map elems = some [2, 10, 3, 11, 12, 4] := by decide
    rw [hpop] at helems
    exact ⟨h', hpop, hordered', Option.some.inj helems⟩
  · obtain ⟨h', a, hremove, hordered', -⟩ :=
      (minHeap_priorityQueue .exact).2.2.1 seven hordered hstored 3 (by decide)
    have helems : (remove .exact seven 3).map elems = some [1, 4, 2, 10, 12, 3] := by decide
    rw [hremove] at helems
    exact ⟨h', hremove, hordered', Option.some.inj helems⟩

end MinHeap

end Muduo
