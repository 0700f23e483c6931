import Mathlib.Data.List.Basic
import Mathlib.Tactic.Linarith

/-! # `std::vector` as the heap uses it

A vector is its elements `[0, size())` together with its `capacity()`. Indexing outside
`[0, size())` is a fault (`none`), whatever the capacity. `resize` within the capacity keeps the
storage; beyond it, the vector reallocates, carries over its elements and takes the capacity that
the allocation policy gives: the standard only promises that it is large enough. -/

namespace Muduo

/-- The capacity a reallocation chooses: `newCapacity c n` when a vector of capacity `c` must hold
`n` elements. -/
structure Allocation where
  /-- The capacity after the reallocation. -/
  newCapacity : ℕ → ℕ → ℕ
  /-- A reallocation makes enough room. -/
  le_newCapacity : ∀ c n, n ≤ newCapacity c n

/-- The policy that allocates exactly what is asked for. -/
def Allocation.exact : Allocation := ⟨fun _ n => n, fun _ n => le_refl n⟩

/-- A `std::vector`: the elements in `[0, size())` and the capacity. -/
structure Vec (T : Type*) where
  /-- The elements in `[0, size())`. -/
  elems : List T
  /-- `capacity()`. -/
  capacity : ℕ
  /-- The elements fit in the storage. -/
  length_le : elems.length ≤ capacity

namespace Vec

variable {T : Type*}

/-- `size()`. -/
def size (v : Vec T) : ℕ := v.elems.length

/-- Read `v[k]`; outside `[0, size())` this is a fault. -/
def get? (v : Vec T) (k : ℕ) : Option T := v.elems[k]?

/-- Write `v[k] = x`; outside `[0, size())` this is a fault. -/
def set? (v : Vec T) (k : ℕ) (x : T) : Option (Vec T) :=
  if k < v.elems.length then
    some ⟨v.elems.set k x, v.capacity, by rw [List.length_set]; exact v.length_le⟩
  else none

/-- `vector(n)`: `n` value-initialised elements in a fresh allocation. -/
def ofSize [Inhabited T] (alloc : Allocation) (n : ℕ) : Vec T :=
  ⟨List.replicate n default, alloc.newCapacity 0 n, by
    rw [List.length_replicate]; exact alloc.le_newCapacity 0 n⟩

/-- `resize(n)`. -/
def resize [Inhabited T] (alloc : Allocation) (v : Vec T) (n : ℕ) : Vec T :=
  if n ≤ v.elems.length then
    ⟨v.elems.take n, v.capacity, by
      rw [List.length_take]; exact (Nat.min_le_right _ _).trans v.length_le⟩
  else if h : n ≤ v.capacity then
    ⟨v.elems ++ List.replicate (n - v.elems.length) default, v.capacity, by
      have := v.length_le
      rw [List.length_append, List.length_replicate]; omega⟩
  else
    ⟨v.elems ++ List.replicate (n - v.elems.length) default, alloc.newCapacity v.capacity n, by
      have := alloc.le_newCapacity v.capacity n
      have := v.length_le
      rw [List.length_append, List.length_replicate]; omega⟩

/-- A read inside the vector succeeds. -/
theorem exists_get? {v : Vec T} {k : ℕ} (h : k < v.size) : ∃ a, v.get? k = some a :=
  ⟨v.elems.get ⟨k, h⟩, List.getElem?_eq_getElem h⟩

/-- A read that succeeds is inside the vector. -/
theorem lt_of_get? {v : Vec T} {k : ℕ} {a : T} (h : v.get? k = some a) : k < v.size :=
  (List.getElem?_eq_some_iff.mp h).1

/-- A write inside the vector replaces one element. -/
theorem exists_set? {v : Vec T} {k : ℕ} (h : k < v.size) (x : T) :
    ∃ w, v.set? k x = some w ∧ w.elems = v.elems.set k x ∧ w.capacity = v.capacity := by
  unfold set?
  rw [if_pos (show k < v.elems.length from h)]
  exact ⟨_, rfl, rfl, rfl⟩

theorem set?_eq_none {v : Vec T} {k : ℕ} (h : v.size ≤ k) (x : T) : v.set? k x = none := by
  unfold set?
  rw [if_neg (show ¬ k < v.elems.length from by unfold size at h; omega)]

theorem set?_elems {v w : Vec T} {k : ℕ} {x : T} (h : v.set? k x = some w) :
    w.elems = v.elems.set k x := by
  unfold set? at h
  split at h
  · cases h; rfl
  · cases h

theorem set?_size {v w : Vec T} {k : ℕ} {x : T} (h : v.set? k x = some w) : w.size = v.size := by
  rw [size, size, set?_elems h, List.length_set]

theorem set?_capacity {v w : Vec T} {k : ℕ} {x : T} (h : v.set? k x = some w) :
    w.capacity = v.capacity := by
  unfold set? at h
  split at h
  · cases h; rfl
  · cases h

variable [Inhabited T] (alloc : Allocation)

@[simp] theorem size_ofSize (n : ℕ) : (ofSize alloc n : Vec T).size = n := by
  simp [ofSize, size]

@[simp] theorem size_resize (v : Vec T) (n : ℕ) : (v.resize alloc n).size = n := by
  unfold resize size
  split
  · rw [List.length_take]; omega
  · split <;> · rw [List.length_append, List.length_replicate]; omega

/-- The capacity changes only when the requested size exceeds it. -/
theorem capacity_resize (v : Vec T) (n : ℕ) : (v.resize alloc n).capacity =
    if n ≤ v.capacity then v.capacity else alloc.newCapacity v.capacity n := by
  have := v.length_le
  unfold resize
  by_cases h₁ : n ≤ v.elems.length
  · rw [if_pos h₁, if_pos (by omega)]
  · rw [if_neg h₁]
    by_cases h₂ : n ≤ v.capacity
    · rw [dif_pos h₂, if_pos h₂]
    · rw [dif_neg h₂, if_neg h₂]

/-- `resize` carries over the elements below both sizes. -/
theorem take_elems_resize (v : Vec T) {n k : ℕ} (hkn : k ≤ n) (hk : k ≤ v.size) :
    (v.resize alloc n).elems.take k = v.elems.take k := by
  unfold size at hk
  unfold resize
  by_cases h₁ : n ≤ v.elems.length
  · rw [if_pos h₁, List.take_take, Nat.min_eq_left hkn]
  · rw [if_neg h₁]
    split <;> exact List.take_append_of_le_length hk

end Vec

end Muduo
