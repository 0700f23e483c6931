import Muduo.Base.MinHeapQueue
import Muduo.Foundations.PriorityQueue

/-! # `MinHeap` as a `PriorityQueue`

On a vector that is made large enough before every `push`, `MinHeap` is a correct priority queue, so
it can be used wherever one is asked for. -/

namespace Muduo

namespace MinHeap

variable {T : Type} [LinearOrder T] [Inhabited T]

/-- Room for one more element. -/
def reserve (h : MinHeap T) : MinHeap T :=
  { h with data := h.data.resize .exact (h.data.size + 1) }

/-- A heap that is in order and inside its vector. -/
abbrev Ample (T : Type) [LinearOrder T] := { h : MinHeap T // h.HeapOrdered ∧ h.Stored }

omit [LinearOrder T] in
theorem elems_reserve {h : MinHeap T} (hs : h.Stored) : h.reserve.elems = h.elems :=
  Vec.take_elems_resize .exact h.data (Nat.le_succ_of_le hs) hs

/-- A push with room made for it. -/
theorem exists_push (h : Ample T) (x : T) :
    ∃ h' i, MinHeap.push .exact h.1.reserve x = some (h', i) ∧
    h'.HeapOrdered ∧ h'.Stored ∧ h'.toMultiset = x ::ₘ h.1.toMultiset := by
  have helems := elems_reserve h.2.2
  have hroom : h.1.reserve.size + 1 ≤ h.1.reserve.data.size := by
    rw [reserve, Vec.size_resize]
    exact Nat.succ_le_succ h.2.2
  obtain ⟨h', i, hpush, ho, hs, hM, -⟩ := (h.2.1.congr helems).push .exact hroom x
  refine ⟨h', i, hpush, ho, hs, ?_⟩
  rw [hM, toMultiset, helems, toMultiset]

/-- `push`, with room made for it. -/
def pushAmple (h : Ample T) (x : T) : Ample T :=
  match hp : MinHeap.push .exact h.1.reserve x with
  | some (h', _) => ⟨h', by
      obtain ⟨h₁, i, hpush, ho, hs, -⟩ := exists_push h x
      rw [hp] at hpush
      cases hpush
      exact ⟨ho, hs⟩⟩
  | none => h

/-- `pop`. -/
def popAmple (h : Ample T) : Option (Ample T) :=
  match hp : MinHeap.pop .exact h.1 with
  | some h' => some ⟨h', by
      have hpos : 0 < h.1.size := by
        by_contra h0
        rw [MinHeap.pop, if_pos (Nat.eq_zero_of_not_pos h0)] at hp
        cases hp
      obtain ⟨a, ha, -⟩ := h.2.2.exists_top hpos
      obtain ⟨h₁, hpop, ho, hs, -⟩ := h.2.1.pop .exact h.2.2 hpos ha
      rw [hp] at hpop
      cases hpop
      exact ⟨ho, hs⟩⟩
  | none => none

omit [Inhabited T] in
theorem size_pos_iff (h : Ample T) : 0 < h.1.size ↔ h.1.toMultiset ≠ 0 := by
  rw [Nat.pos_iff_ne_zero, ne_eq, ne_eq, toMultiset, Multiset.coe_eq_zero,
    ← List.length_eq_zero_iff,
    h.2.2.length_elems]

theorem contents_pushAmple (h : Ample T) (x : T) :
    (pushAmple h x).1.toMultiset = x ::ₘ h.1.toMultiset := by
  obtain ⟨h', i, hpush, -, -, hM⟩ := exists_push h x
  rw [pushAmple]
  split
  · next hp =>
    rw [hpush] at hp
    cases hp
    exact hM
  · next hp =>
    rw [hpush] at hp
    cases hp

/-- **The heap as a priority queue.** -/
def priorityQueue (T : Type) [LinearOrder T] [Inhabited T] : PriorityQueue T where
  Queue := Ample T
  new := ⟨MinHeap.new .exact kInitSize, (Reachable.new kInitSize).ordered⟩
  empty h := h.1.empty
  top h := h.1.top
  push := pushAmple
  pop := popAmple
  contents h := h.1.toMultiset
  contents_new := by simp [toMultiset, elems, MinHeap.new]
  empty_iff h := by
    rw [empty, beq_iff_eq, ← Nat.le_zero, ← not_lt, size_pos_iff, not_not]
  exists_top h hne := by
    obtain ⟨a, ha, hmem⟩ := h.2.2.exists_top ((size_pos_iff h).mpr hne)
    exact ⟨a, ha, hmem, h.2.1.top_le h.2.2 ha⟩
  contents_push := contents_pushAmple
  exists_pop h a hne ha := by
    obtain ⟨h', hpop, ho, hs, -, hM⟩ := h.2.1.pop .exact h.2.2 ((size_pos_iff h).mpr hne) ha
    refine ⟨⟨h', ho, hs⟩, ?_, hM⟩
    rw [popAmple]
    split
    · next hp =>
      rw [hpop] at hp
      cases hp
      rfl
    · next hp =>
      rw [hpop] at hp
      cases hp

end MinHeap

end Muduo
