import Mathlib.Order.Defs.LinearOrder
import Muduo.Base.Vector
import Muduo.Foundations.Loop

/-! # `MinHeap`

The binary heap of `muduo/base/MinHeap.h`: a vector `data_`, the number `size_` of elements in use
and a cached `capacity_`. The three sift loops move a hole instead of exchanging elements and are
bodies for `Loop.run`; every `data_[k]` goes through `Vec.get?` / `Vec.set?`, so an operation
answers `none` when it indexes outside the vector. `expand` and `shrink` are the storage policy.

The element type carries a linear order: `x > y` is `y < x`, as for the entries of a `TimerQueue`.
A moved-from slot is modelled as an unchanged one: each is overwritten before it is read. -/

namespace Muduo

/-- `MinHeap<T>`: `data_`, `size_` and `capacity_`. -/
structure MinHeap (T : Type*) where
  /-- `data_`. -/
  data : Vec T
  /-- `size_`: the elements in use are `data_[0, size_)`. -/
  size : ℕ
  /-- `capacity_`: set by the constructor and by `shrink`, and not the vector's capacity. -/
  capacity : ℕ

namespace MinHeap

variable {T : Type*}

/-- `parent(i)`, `(i - 1) / 2` in signed arithmetic, which truncates: `parent(0)` is `0`. -/
def parent (i : ℕ) : ℕ := (i - 1) / 2

/-- `left(i)`. -/
def left (i : ℕ) : ℕ := 2 * i + 1

/-- `right(i)`. -/
def right (i : ℕ) : ℕ := 2 * i + 2

/-- `kInitSize`. -/
def kInitSize : ℕ := 16

/-- `MinHeap(initSize)`. -/
def new [Inhabited T] (alloc : Allocation) (initSize : ℕ) : MinHeap T :=
  ⟨Vec.ofSize alloc initSize, 0, initSize⟩

/-- `shrink()`. -/
def shrink [Inhabited T] (alloc : Allocation) (h : MinHeap T) : MinHeap T :=
  if h.size ≤ h.capacity / 2 then
    { h with data := h.data.resize alloc h.size, capacity := h.size }
  else h

/-- `expand()`. -/
def expand [Inhabited T] (alloc : Allocation) (h : MinHeap T) : MinHeap T :=
  if h.size = h.data.capacity then { h with data := h.data.resize alloc (2 * h.size) } else h

/-- `top()`: `data_[0]`. -/
def top (h : MinHeap T) : Option T := h.data.get? 0

/-- `empty()`. -/
def empty (h : MinHeap T) : Bool := h.size == 0

variable [LinearOrder T]

/-! ## The sift loops

The loop state is the vector and the index `i` of the hole. -/

/-- One round of the loop of `push`: `while (i>0 && x<data_[parent(i)])`. -/
def pushRound (x : T) : Vec T × ℕ → Option (Vec T × ℕ ⊕ Vec T × ℕ)
  | (d, i) =>
      if 0 < i then
        (d.get? (parent i)).bind fun p =>
          if x < p then (d.set? i p).map fun d' => Sum.inl (d', parent i)
          else some (Sum.inr (d, i))
      else some (Sum.inr (d, i))

/-- One round of the upward loop of `remove`: `while (parent(i)>=0 && x<data_[parent(i)])`. The
guard always holds, so at the root the loop compares `x` with `data_[0]`. -/
def removeUpRound (x : T) : Vec T × ℕ → Option (Vec T × ℕ ⊕ Vec T × ℕ)
  | (d, i) =>
      if 0 ≤ parent i then
        (d.get? (parent i)).bind fun p =>
          if x < p then (d.set? i p).map fun d' => Sum.inl (d', parent i)
          else some (Sum.inr (d, i))
      else some (Sum.inr (d, i))

/-- The first test of the downward loops: `minIdx` is `left(i)` or still `-1`. -/
def minIdxLeft (size : ℕ) (x : T) (d : Vec T) (i : ℕ) : Option (Option ℕ) :=
  if left i < size then
    (d.get? (left i)).map fun l => if x > l then some (left i) else none
  else some none

/-- `minIdx` after both tests of a downward loop; `none` inside stands for `-1`. -/
def minIdx (size : ℕ) (x : T) (d : Vec T) (i : ℕ) : Option (Option ℕ) :=
  (minIdxLeft size x d i).bind fun m =>
    if right i < size then
      (d.get? (right i)).bind fun r =>
        if x > r then
          match m with
          | none => some (some (right i))
          -- both children are smaller than `x`: on a tie the right one goes up
          | some _ => (d.get? (left i)).map fun l => if l < r then m else some (right i)
        else some m
    else some m

/-- One round of the downward loop of `pop` and of `remove`. The two loops of the source differ in
the spelling of one test only (`data_[left(i)]<data_[right(i)]`,
`data_[right(i)]>data_[left(i)]`). -/
def siftDownRound (size : ℕ) (x : T) : Vec T × ℕ → Option (Vec T × ℕ ⊕ Vec T × ℕ)
  | (d, i) =>
      (minIdx size x d i).bind fun
        | none => some (Sum.inr (d, i))
        -- the hole moves down to `minIdx`
        | some c => (d.get? c).bind fun y => (d.set? i y).map fun d' => Sum.inl (d', c)

/-! ## The operations

The fuel `size_ + 1` covers every path between the root and a leaf; running out of it stands for a
loop that does not end. -/

variable [Inhabited T]

/-- `push(x)`: the heap afterwards and the index at which `x` is stored. -/
def push (alloc : Allocation) (h : MinHeap T) (x : T) : Option (MinHeap T × ℕ) :=
  (Loop.run (pushRound x) (h.size + 1) (h.data, h.size)).bind fun (d, i) =>
    (d.set? i x).map fun d' => (expand alloc { h with data := d', size := h.size + 1 }, i)

/-- The common end of `pop` and of the second branch of `remove`: sift `x` down from `i`, store it
and shrink. -/
def siftDown (alloc : Allocation) (h : MinHeap T) (x : T) (i : ℕ) : Option (MinHeap T) :=
  (Loop.run (siftDownRound h.size x) (h.size + 1) (h.data, i)).bind fun (d, j) =>
    (d.set? j x).map fun d' => shrink alloc { h with data := d' }

/-- `pop()`. On an empty heap it would read `data_[-1]`. -/
def pop (alloc : Allocation) (h : MinHeap T) : Option (MinHeap T) :=
  if h.size = 0 then none
  else (h.data.get? (h.size - 1)).bind fun x =>
    siftDown alloc { h with size := h.size - 1 } x 0

/-- The first branch of `remove` after the last element was taken out: move the hole up. -/
def siftUp (alloc : Allocation) (h : MinHeap T) (x : T) (i : ℕ) : Option (MinHeap T) :=
  (Loop.run (removeUpRound x) (h.size + 1) (h.data, i)).bind fun (d, j) =>
    (d.set? j x).map fun d' => shrink alloc { h with data := d' }

/-- `remove(i)`. On an empty heap it would read `data_[-1]`. -/
def remove (alloc : Allocation) (h : MinHeap T) (i : ℕ) : Option (MinHeap T) :=
  if h.size = 0 then none
  else if i = h.size - 1 then some { h with size := h.size - 1 }
  else
    (h.data.get? (h.size - 1)).bind fun x =>
      (h.data.get? (parent i)).bind fun p =>
        -- an element smaller than the parent goes up, any other goes down
        if 0 ≤ parent i ∧ x < p then siftUp alloc { h with size := h.size - 1 } x i
        else siftDown alloc { h with size := h.size - 1 } x i

/-- `assertOrder()`: every assertion it makes holds. -/
def assertOrder (h : MinHeap T) : Bool :=
  (List.range h.size).all fun i =>
    [left i, right i].all fun c =>
      if c < h.size then
        match h.data.get? i, h.data.get? c with
        | some a, some b => decide (a < b)
        | _, _ => false
      else true

end MinHeap

end Muduo
