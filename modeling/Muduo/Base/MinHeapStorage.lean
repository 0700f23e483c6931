import Muduo.Base.MinHeapOrder

/-! # The storage policy of `MinHeap`

`shrink` cuts the vector down to `size_`, `expand` enlarges it only when `size_` meets the vector's
capacity, and `push` writes `data_[size_]` before `expand` runs. Whether a run stays inside the
vector is therefore decided by four counters alone, which this file splits off:

* **`Counters`** and `Counters.step` are the counters and what each operation does to them;
  `counters_push`, `counters_pop`, `counters_remove` connect them to the heap.
* **`Counters.Roomy`** says that every push of a run finds a slot beyond `size_` in the vector.
* **`Sound`** says that every operation of a run stays inside the vector and that the elements in
  use are at all times those pushed, minus those popped and removed.
* **`sound_iff_roomy`**: a run is sound exactly when it is roomy. A default heap is not, after one
  push and one pop. -/

namespace Muduo

namespace MinHeap

variable {T : Type*}

/-! ## Operations of a run -/

/-- One operation of a run. -/
inductive Op (T : Type*)
  | push (x : T)
  | pop
  | remove (i : ℕ)

/-- The calls the heap allows: `pop` on a non-empty heap, `remove` at an index in use. -/
def Op.Allowed (size : ℕ) : Op T → Prop
  | .push _ => True
  | .pop => 0 < size
  | .remove i => i < size

/-- `size_` after the operation. -/
def Op.sizeAfter (size : ℕ) : Op T → ℕ
  | .push _ => size + 1
  | .pop => size - 1
  | .remove _ => size - 1

/-- The operation finds the slot it needs: a push finds `size_` below `data_.size()`. -/
def Op.HasRoom (size length : ℕ) : Op T → Prop
  | .push _ => size < length
  | .pop => True
  | .remove _ => True

instance (size : ℕ) : (op : Op T) → Decidable (op.Allowed size)
  | .push _ => inferInstanceAs (Decidable True)
  | .pop => inferInstanceAs (Decidable (0 < size))
  | .remove i => inferInstanceAs (Decidable (i < size))

instance (size length : ℕ) : (op : Op T) → Decidable (op.HasRoom size length)
  | .push _ => inferInstanceAs (Decidable (size < length))
  | .pop => inferInstanceAs (Decidable True)
  | .remove _ => inferInstanceAs (Decidable True)

/-- A sequence of allowed calls, starting with `size` elements. -/
def AllAllowed : ℕ → List (Op T) → Prop
  | _, [] => True
  | size, op :: ops => op.Allowed size ∧ AllAllowed (op.sizeAfter size) ops

instance decidableAllAllowed : (size : ℕ) → (ops : List (Op T)) → Decidable (AllAllowed size ops)
  | _, [] => inferInstanceAs (Decidable True)
  | size, op :: ops =>
      have := decidableAllAllowed (op.sizeAfter size) ops
      inferInstanceAs (Decidable (op.Allowed size ∧ AllAllowed (op.sizeAfter size) ops))

/-! ## The counters -/

/-- The three counters of the code and the vector's capacity. -/
@[ext] structure Counters where
  /-- `size_`. -/
  size : ℕ
  /-- `capacity_`. -/
  capacity : ℕ
  /-- `data_.size()`. -/
  length : ℕ
  /-- `data_.capacity()`. -/
  room : ℕ

/-- The counters of a heap. -/
def counters (h : MinHeap T) : Counters := ⟨h.size, h.capacity, h.data.size, h.data.capacity⟩

namespace Counters

/-- The counters of `MinHeap(n)`. -/
def new (alloc : Allocation) (n : ℕ) : Counters := ⟨0, n, n, alloc.newCapacity 0 n⟩

/-- What `shrink` does to the counters. -/
def shrink (c : Counters) : Counters :=
  if c.size ≤ c.capacity / 2 then ⟨c.size, c.size, c.size, c.room⟩ else c

theorem shrink_of_le {c : Counters} (h : c.size ≤ c.capacity / 2) :
    c.shrink = ⟨c.size, c.size, c.size, c.room⟩ := if_pos h

theorem shrink_of_not_le {c : Counters} (h : ¬ c.size ≤ c.capacity / 2) : c.shrink = c := if_neg h

/-- What `expand` does to the counters. -/
def expand (alloc : Allocation) (c : Counters) : Counters :=
  if c.size = c.room then
    ⟨c.size, c.capacity, 2 * c.size,
      if 2 * c.size ≤ c.room then c.room else alloc.newCapacity c.room (2 * c.size)⟩
  else c

/-- What an operation does to the counters. -/
def step (alloc : Allocation) (c : Counters) : Op T → Counters
  | .push _ => expand alloc ⟨c.size + 1, c.capacity, c.length, c.room⟩
  | .pop => shrink ⟨c.size - 1, c.capacity, c.length, c.room⟩
  | .remove i =>
      if i = c.size - 1 then ⟨c.size - 1, c.capacity, c.length, c.room⟩
      else shrink ⟨c.size - 1, c.capacity, c.length, c.room⟩

/-- Every push of the run finds `size_` below `data_.size()`. -/
def Roomy (alloc : Allocation) : Counters → List (Op T) → Prop
  | _, [] => True
  | c, op :: ops => op.HasRoom c.size c.length ∧ Roomy alloc (step alloc c op) ops

instance decidableRoomy (alloc : Allocation) :
    (c : Counters) → (ops : List (Op T)) → Decidable (Roomy alloc c ops)
  | _, [] => inferInstanceAs (Decidable True)
  | c, op :: ops =>
      have := decidableRoomy alloc (step alloc c op) ops
      inferInstanceAs (Decidable (op.HasRoom c.size c.length ∧ Roomy alloc (step alloc c op) ops))

@[simp] theorem size_step (alloc : Allocation) (c : Counters) (op : Op T) :
    (step alloc c op).size = op.sizeAfter c.size := by
  cases op with
  | push x => rw [step, expand]; split <;> rfl
  | pop => rw [step, shrink]; split <;> rfl
  | remove i =>
    rw [step]
    split
    · rfl
    · rw [shrink]; split <;> rfl

/-! ### When there is room

A cut leaves no slot beyond `size_`; without cuts, exact reallocation always leaves one. -/

/-- The operation runs `shrink` and `shrink` cuts the vector. -/
def Cuts (c : Counters) : Op T → Prop
  | .push _ => False
  | .pop => c.size - 1 ≤ c.capacity / 2
  | .remove i => i ≠ c.size - 1 ∧ c.size - 1 ≤ c.capacity / 2

/-- No operation of the run cuts the vector. -/
def NeverCuts (alloc : Allocation) : Counters → List (Op T) → Prop
  | _, [] => True
  | c, op :: ops => ¬ c.Cuts op ∧ NeverCuts alloc (step alloc c op) ops

/-- Right after a cut a push has no room. -/
theorem not_hasRoom_of_cuts (alloc : Allocation) {c : Counters} {op : Op T} (hcut : c.Cuts op)
    (x : T) : ¬ (Op.push x).HasRoom (step alloc c op).size (step alloc c op).length := by
  cases op with
  | push y => exact absurd hcut id
  | pop =>
    rw [step, shrink_of_le (c := ⟨c.size - 1, c.capacity, c.length, c.room⟩) hcut]
    exact lt_irrefl _
  | remove i =>
    rw [step, if_neg hcut.1, shrink_of_le hcut.2]
    exact lt_irrefl _

/-- With exact reallocation, a run that never cuts the vector is roomy. -/
theorem roomy_of_neverCuts {c : Counters} (hlt : c.size < c.length) (hroom : c.length = c.room)
    {ops : List (Op T)} (hops : NeverCuts .exact c ops) : c.Roomy .exact ops := by
  induction ops generalizing c with
  | nil => trivial
  | cons op ops ih =>
    obtain ⟨hop, hops⟩ := hops
    have hstep : (step .exact c op).size < (step .exact c op).length ∧
        (step .exact c op).length = (step .exact c op).room := by
      cases op with
      | push x =>
        rw [step, expand]
        by_cases hfull : c.size + 1 = c.room
        · -- the vector is doubled, and exact reallocation leaves no slack
          rw [if_pos hfull]
          show c.size + 1 < 2 * (c.size + 1) ∧ 2 * (c.size + 1) =
            if 2 * (c.size + 1) ≤ c.room then c.room else 2 * (c.size + 1)
          rw [if_neg (by omega)]
          exact ⟨by omega, rfl⟩
        · rw [if_neg hfull]
          exact ⟨show c.size + 1 < c.length by omega, hroom⟩
      | pop =>
        rw [step, shrink_of_not_le (c := ⟨c.size - 1, c.capacity, c.length, c.room⟩) hop]
        exact ⟨show c.size - 1 < c.length by omega, hroom⟩
      | remove i =>
        rw [step]
        by_cases hlast : i = c.size - 1
        · rw [if_pos hlast]
          exact ⟨show c.size - 1 < c.length by omega, hroom⟩
        · rw [if_neg hlast, shrink_of_not_le fun hcut => hop ⟨hlast, hcut⟩]
          exact ⟨show c.size - 1 < c.length by omega, hroom⟩
    refine ⟨?_, ih hstep.1 hstep.2 hops⟩
    cases op with
    | push x => exact hlt
    | pop => trivial
    | remove i => trivial

end Counters

theorem counters_shrink [Inhabited T] (alloc : Allocation) (h : MinHeap T) (hs : h.Stored) :
    (shrink alloc h).counters = h.counters.shrink := by
  have hcap : h.size ≤ h.data.capacity := hs.trans h.data.length_le
  unfold shrink Counters.shrink
  by_cases hcut : h.size ≤ h.capacity / 2
  · rw [if_pos hcut, if_pos (show h.counters.size ≤ h.counters.capacity / 2 from hcut)]
    refine Counters.ext rfl rfl (Vec.size_resize alloc h.data h.size) ?_
    show (h.data.resize alloc h.size).capacity = h.data.capacity
    rw [Vec.capacity_resize, if_pos hcap]
  · rw [if_neg hcut, if_neg (show ¬ h.counters.size ≤ h.counters.capacity / 2 from hcut)]

theorem counters_expand [Inhabited T] (alloc : Allocation) (h : MinHeap T) :
    (expand alloc h).counters = h.counters.expand alloc := by
  unfold expand Counters.expand
  by_cases hfull : h.size = h.data.capacity
  · rw [if_pos hfull, if_pos (show h.counters.size = h.counters.room from hfull)]
    exact Counters.ext rfl rfl (Vec.size_resize alloc h.data (2 * h.size))
      (Vec.capacity_resize alloc h.data (2 * h.size))
  · rw [if_neg hfull, if_neg (show ¬ h.counters.size = h.counters.room from hfull)]

variable [LinearOrder T] [Inhabited T] (alloc : Allocation)

/-! ## Soundness of a run -/

/-- One operation on the heap. -/
def Op.apply (h : MinHeap T) : Op T → Option (MinHeap T)
  | .push x => (MinHeap.push alloc h x).map Prod.fst
  | .pop => MinHeap.pop alloc h
  | .remove i => MinHeap.remove alloc h i

/-- The elements there should be after the operation, when there were `M` before: one more, or
without the one that the operation takes out. -/
def Op.settle (h : MinHeap T) (M : Multiset T) : Op T → Multiset T
  | .push x => x ::ₘ M
  | .pop => M - (h.top.elim 0 fun a => {a})
  | .remove i => M - ((h.data.get? i).elim 0 fun a => {a})

/-- Every operation of the run stays inside the vector, and after each the elements in use are those
of the ledger `M`. -/
def Sound : MinHeap T → Multiset T → List (Op T) → Prop
  | _, _, [] => True
  | h, M, op :: ops => ∃ h', op.apply alloc h = some h' ∧ h'.toMultiset = op.settle h M ∧
      Sound h' (op.settle h M) ops

/-! ## One operation -/

/-- `push` onto a vector without a slot beyond `size_` writes outside the vector. -/
theorem push_eq_none {h : MinHeap T} (hfull : h.data.size = h.size) (x : T) :
    push alloc h x = none := by
  have hset : ∀ y, h.data.set? h.size y = none := fun y => Vec.set?_eq_none hfull.le y
  -- if the loop ends at once, the write of `x` is the one outside
  have hstop : pushRound x (h.data, h.size) = some (Sum.inr (h.data, h.size)) →
      push alloc h x = none := by
    intro hb
    rw [push, Loop.run_stop hb, Option.bind_some]
    show ((h.data.set? h.size x).map _) = none
    rw [hset x, Option.map_none]
  by_cases hpos : 0 < h.size
  · have hp : parent h.size < h.data.size := hfull.symm ▸ HeapTree.parent_lt hpos
    obtain ⟨p, hget⟩ := Vec.exists_get? hp
    by_cases hxp : x < p
    · -- otherwise the first round moves the parent there
      rw [push, Loop.run_fault, Option.bind_none]
      rw [pushRound, if_pos hpos, hget, Option.bind_some, if_pos hxp, hset p, Option.map_none]
    · refine hstop ?_
      rw [pushRound, if_pos hpos, hget, Option.bind_some, if_neg hxp]
  · exact hstop (by rw [pushRound, if_neg hpos])

/-- An allowed operation that has room when it pushes: it stays inside the vector, keeps the heap
order, settles the elements and moves the counters. -/
theorem apply_spec {h : MinHeap T} (ho : h.HeapOrdered) (hs : h.Stored) {op : Op T}
    (hop : op.Allowed h.size)
    (hroom : op.HasRoom h.size h.data.size) :
    ∃ h', op.apply alloc h = some h' ∧ h'.HeapOrdered ∧ h'.Stored ∧
      h'.toMultiset = op.settle h h.toMultiset ∧
      h'.counters = h.counters.step alloc op := by
  cases op with
  | push x =>
    -- `expand` comes last, and changes no element in use
    obtain ⟨d, i, hpush, hres, -, -⟩ := push_spec alloc ho hroom x
    have helems := hres.stored.elems_expand alloc
    refine ⟨_, by rw [Op.apply, hpush, Option.map_some], hres.ordered.congr helems,
      hres.stored.expand alloc, ?_, ?_⟩
    · rw [toMultiset, helems]; exact hres.toMultiset_eq
    · rw [counters_expand, Counters.step]
      exact congrArg _ (Counters.ext rfl rfl hres.size_eq hres.capacity_eq)
  | pop =>
    obtain ⟨a, ha, -⟩ := hs.exists_top hop
    obtain ⟨d, hpop, hres⟩ := pop_spec alloc ho hs hop ha
    have helems := hres.stored.elems_shrink alloc
    refine ⟨_, hpop, hres.ordered.congr helems, hres.stored.shrink alloc, ?_, ?_⟩
    · rw [toMultiset, helems, Op.settle, ha]
      exact hres.toMultiset_eq.trans (Multiset.sub_singleton a _).symm
    · rw [counters_shrink alloc _ hres.stored, Counters.step]
      exact congrArg _ (Counters.ext rfl rfl hres.size_eq hres.capacity_eq)
  | remove i =>
    obtain ⟨a, ha⟩ := Vec.exists_get? (show i < h.data.size from lt_of_lt_of_le hop hs)
    obtain ⟨d, hrem, hres⟩ := remove_spec alloc ho hs hop ha
    by_cases hlast : i = h.size - 1
    · -- the source returns before `shrink`
      rw [if_pos hlast] at hrem
      refine ⟨_, hrem, hres.ordered, hres.stored, ?_, ?_⟩
      · rw [Op.settle, ha]
        exact hres.toMultiset_eq.trans (Multiset.sub_singleton a _).symm
      · rw [Counters.step, if_pos (show i = h.counters.size - 1 from hlast)]
        exact Counters.ext rfl rfl hres.size_eq hres.capacity_eq
    · rw [if_neg hlast] at hrem
      have helems := hres.stored.elems_shrink alloc
      refine ⟨_, hrem, hres.ordered.congr helems, hres.stored.shrink alloc, ?_, ?_⟩
      · rw [toMultiset, helems, Op.settle, ha]
        exact hres.toMultiset_eq.trans (Multiset.sub_singleton a _).symm
      · rw [counters_shrink alloc _ hres.stored, Counters.step,
          if_neg (show ¬ i = h.counters.size - 1 from hlast)]
        exact congrArg _ (Counters.ext rfl rfl hres.size_eq hres.capacity_eq)

/-! ## Every run -/

/-- A run of allowed calls from an ordered state is sound exactly when its counters are roomy. -/
theorem sound_iff_roomy_from {h : MinHeap T} (ho : h.HeapOrdered) (hs : h.Stored)
    {ops : List (Op T)} (hops : AllAllowed h.size ops) :
    Sound alloc h h.toMultiset ops ↔ h.counters.Roomy alloc ops := by
  induction ops generalizing h with
  | nil => exact Iff.rfl
  | cons op ops ih =>
    obtain ⟨hop, hops⟩ := hops
    rw [Sound, Counters.Roomy]
    by_cases hroom : op.HasRoom h.size h.data.size
    · obtain ⟨h', happ, ho', hs', hM, hc⟩ := apply_spec alloc ho hs hop hroom
      have hsize : h'.size = op.sizeAfter h.size := by
        have := congrArg Counters.size hc
        rwa [Counters.size_step] at this
      have hih := ih ho' hs' (hsize.symm ▸ hops)
      rw [hM, hc] at hih
      constructor
      · rintro ⟨h'', happ', -, hrest⟩
        rw [happ] at happ'
        cases happ'
        exact ⟨hroom, hih.mp hrest⟩
      · rintro ⟨-, hrest⟩
        exact ⟨h', happ, hM, hih.mpr hrest⟩
    · -- only a push can lack room, and then it faults
      cases op with
      | push x =>
        have hfull : h.data.size = h.size := le_antisymm (not_lt.mp hroom) hs
        constructor
        · rintro ⟨h', happ, -⟩
          rw [Op.apply, push_eq_none alloc hfull, Option.map_none] at happ
          cases happ
        · rintro ⟨hlt, -⟩
          exact absurd hlt hroom
      | pop => exact absurd trivial hroom
      | remove i => exact absurd trivial hroom

theorem heapOrdered_new (n : ℕ) : (new alloc n : MinHeap T).HeapOrdered := by
  intro i j a b _ ha
  simp [elems, new] at ha

omit [LinearOrder T] in
@[simp] theorem counters_new (n : ℕ) :
    (new alloc n : MinHeap T).counters = Counters.new alloc n :=
  Counters.ext rfl rfl (Vec.size_ofSize alloc n) rfl

/-- **`MinHeap(n)` stays inside its storage exactly on roomy runs.** For every initial size and
every sequence of allowed calls, every index is inside the vector and no element is lost if and only
if every push finds `size_ < data_.size()`. -/
theorem minHeap_sound_iff_roomy (n : ℕ) (ops : List (Op T)) (hops : AllAllowed 0 ops) :
    Sound alloc (new alloc n) 0 ops ↔ (Counters.new alloc n).Roomy alloc ops := by
  rw [← counters_new (T := T)]
  exact sound_iff_roomy_from alloc (heapOrdered_new alloc n) (Nat.zero_le _) hops

/-- Filling a heap of four slots, popping once and pushing again is sound: three elements are too
many for a cut. -/
theorem minHeap_sound_iff_roomy_six : Sound .exact (new .exact 4 : MinHeap ℕ) 0
    [.push 3, .push 1, .push 2, .push 4, .pop, .push 5] :=
  (minHeap_sound_iff_roomy .exact 4 [.push 3, .push 1, .push 2, .push 4, .pop, .push 5]
    (by decide)).mpr (by decide)

/-- **A default heap leaves its storage after one push and one pop.** `pop` cuts the vector to zero
elements and the next `push` writes `data_[0]`. -/
theorem minHeap_not_sound_push_pop_push :
    AllAllowed 0 [Op.push 5, Op.pop, Op.push 7] ∧
      ¬ Sound .exact (new .exact kInitSize : MinHeap ℕ) 0 [.push 5, .pop, .push 7] := by
  refine ⟨by decide, fun hsound => ?_⟩
  have hroomy := (sound_iff_roomy_from .exact (heapOrdered_new .exact kInitSize) (Nat.zero_le _)
    (by decide)).mp hsound
  exact absurd hroomy (by decide)

end MinHeap

end Muduo
