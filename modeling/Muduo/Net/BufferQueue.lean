import Muduo.Foundations.Runs
import Muduo.Net.Buffer

/-! # `Buffer` is a byte queue

`ByteQueue` is what a `Buffer` is for: bytes enter at the end and leave at the front. A `Buffer` is
driven by any sequence of its operations; `readFd` is given what `readv` answers.

`differences` are the exact values of the unsigned differences that an operation computes.
**`Buffer.refines_byteQueue`** says that none of them is ever negative, that the indices stay in
order, and that the readable bytes and the strings returned are those of the queue. -/

namespace Muduo

/-- A queue of bytes, with the strings that were taken out of it. -/
structure ByteQueue where
  /-- The bytes in the queue. -/
  bytes : Bytes
  /-- What `retrieveAsString` has returned so far. -/
  returned : List Bytes

/-- An operation of a `Buffer`. -/
inductive BufferOp
  | append (data : Bytes)
  /-- `readv` delivers some bytes, or answers `-1`. -/
  | readFd (delivered : Option Bytes)
  | retrieve (len : ℕ)
  | retrieveAll
  | retrieveAsString (len : ℕ)
deriving DecidableEq

/-- What an operation does to a queue of bytes. -/
def ByteQueue.step (q : ByteQueue) : BufferOp → ByteQueue
  | .append data => { q with bytes := q.bytes ++ data }
  | .readFd (some data) => { q with bytes := q.bytes ++ data }
  | .readFd none => q
  | .retrieve len => { q with bytes := q.bytes.drop (min len q.bytes.length) }
  | .retrieveAll => { q with bytes := [] }
  | .retrieveAsString len =>
    { bytes := q.bytes.drop len, returned := q.returned ++ [q.bytes.take len] }

namespace Buffer

/-- `readFd`, when `readv` delivers some bytes or answers `-1`. -/
def readFdResult (b : Buffer) : Option Bytes → Buffer
  | some data => b.readFd data
  | none => b

/-- A buffer, with what `retrieveAsString` has returned so far. -/
structure Used where
  /-- The buffer. -/
  buffer : Buffer
  /-- What `retrieveAsString` has returned. -/
  returned : List Bytes

/-- One operation. `retrieveAsString` asserts that there are enough bytes. -/
def step (s : Used) : BufferOp → Option Used
  | .append data => some { s with buffer := s.buffer.append data }
  | .readFd delivered => some { s with buffer := s.buffer.readFdResult delivered }
  | .retrieve len => some { s with buffer := s.buffer.retrieve len }
  | .retrieveAll => some { s with buffer := s.buffer.retrieveAll }
  | .retrieveAsString len => (s.buffer.retrieveAsString len).map fun (result, b) =>
    { buffer := b, returned := s.returned ++ [result] }

/-- `readv` delivers no more than it is offered, and no more is retrieved as a string than is
there. -/
def Allowed (s : Used) : BufferOp → Prop
  | .readFd (some data) => data.length ≤ s.buffer.offered
  | .retrieveAsString len => len ≤ s.buffer.readableBytes
  | _ => True

instance (s : Used) : ∀ op : BufferOp, Decidable (Allowed s op)
  | .append _ => isTrue trivial
  | .readFd (some data) => inferInstanceAs (Decidable (data.length ≤ s.buffer.offered))
  | .readFd none => isTrue trivial
  | .retrieve _ => isTrue trivial
  | .retrieveAll => isTrue trivial
  | .retrieveAsString len => inferInstanceAs (Decidable (len ≤ s.buffer.readableBytes))

/-! ## The differences -/

/-- `writeIndex_-readIndex_`. -/
def readableDifference (b : Buffer) : ℤ := b.writeIndex - b.readIndex

/-- `buffer_.size()-writeIndex_`. -/
def writableDifference (b : Buffer) : ℤ := b.buffer.length - b.writeIndex

/-- What `makeSpace(len)` computes. -/
def makeSpaceDifferences (b : Buffer) (len : ℕ) : List ℤ :=
  let space := b.writableDifference + b.prependableBytes - kCheapPrepend
  [b.writableDifference, space] ++ if sizeT space < len then [] else [b.readableDifference]

/-- What `append(data, len)` computes. -/
def appendDifferences (b : Buffer) (data : Bytes) : List ℤ :=
  b.writableDifference ::
    if b.writableBytes < data.length then b.makeSpaceDifferences data.length else []

/-- What `readFd` computes. -/
def readFdDifferences (b : Buffer) : Option Bytes → List ℤ
  | some data =>
    b.writableDifference ::
      if data.length < b.writableBytes then []
      else (data.length - b.writableDifference) ::
        (b.write (data.take b.writableBytes)).appendDifferences (data.drop b.writableBytes)
  | none => [b.writableDifference]

/-- The exact values of the unsigned differences that an operation computes. -/
def differences (b : Buffer) : BufferOp → List ℤ
  | .append data => b.appendDifferences data
  | .readFd delivered => b.readFdDifferences delivered
  | .retrieve _ => [b.readableDifference]
  | .retrieveAll => [b.readableDifference]
  | .retrieveAsString _ => [b.readableDifference]

variable {b : Buffer}

theorem Wf.readableDifference_nonneg (h : b.Wf) : 0 ≤ b.readableDifference := by
  have := h.read_le_write
  rw [readableDifference]
  omega

theorem Wf.writableDifference_nonneg (h : b.Wf) : 0 ≤ b.writableDifference := by
  have := h.write_le
  rw [writableDifference]
  omega

theorem Wf.makeSpaceDifferences_nonneg (h : b.Wf) (len : ℕ) :
    ∀ z ∈ b.makeSpaceDifferences len, 0 ≤ z := by
  have hw := h.writableDifference_nonneg
  have hp := h.prepend_le
  -- the cheap prepend area makes up for what is subtracted
  have hspace : 0 ≤ b.writableDifference + b.prependableBytes - kCheapPrepend := by
    rw [prependableBytes]
    omega
  have hrest : ∀ z ∈ (if sizeT (b.writableDifference + b.prependableBytes - kCheapPrepend) < len
      then [] else [b.readableDifference]), 0 ≤ z := by
    split_ifs
    · exact List.forall_mem_nil _
    · exact List.forall_mem_singleton.mpr h.readableDifference_nonneg
  exact List.forall_mem_cons.mpr ⟨hw, List.forall_mem_cons.mpr ⟨hspace, hrest⟩⟩

theorem Wf.appendDifferences_nonneg (h : b.Wf) (data : Bytes) :
    ∀ z ∈ b.appendDifferences data, 0 ≤ z := by
  refine List.forall_mem_cons.mpr ⟨h.writableDifference_nonneg, ?_⟩
  split_ifs
  · exact h.makeSpaceDifferences_nonneg data.length
  · exact List.forall_mem_nil _

theorem Wf.readFdDifferences_nonneg (h : b.Wf) (delivered : Option Bytes) :
    ∀ z ∈ b.readFdDifferences delivered, 0 ≤ z := by
  have hw := h.writableDifference_nonneg
  cases delivered with
  | none => exact List.forall_mem_singleton.mpr hw
  | some data =>
    refine List.forall_mem_cons.mpr ⟨hw, ?_⟩
    split_ifs with hfit
    · exact List.forall_mem_nil _
    · -- `readv` has filled the vector, and the rest is appended to the full one
      have heq := h.writableBytes_eq
      have hle := h.write_le
      have hroom : b.writeIndex + (data.take b.writableBytes).length ≤ b.buffer.length := by
        rw [List.length_take]
        omega
      refine List.forall_mem_cons.mpr ⟨?_, (h.write hroom).1.appendDifferences_nonneg _⟩
      rw [writableDifference]
      omega

/-- **No difference of an operation is negative.** -/
theorem Wf.differences_nonneg (h : b.Wf) (op : BufferOp) : ∀ z ∈ b.differences op, 0 ≤ z := by
  cases op with
  | append data => exact h.appendDifferences_nonneg data
  | readFd delivered => exact h.readFdDifferences_nonneg delivered
  | retrieve len => exact List.forall_mem_singleton.mpr h.readableDifference_nonneg
  | retrieveAll => exact List.forall_mem_singleton.mpr h.readableDifference_nonneg
  | retrieveAsString len => exact List.forall_mem_singleton.mpr h.readableDifference_nonneg

/-! ## The refinement -/

/-- The buffer stands for the queue. -/
structure Refines (s : Used) (q : ByteQueue) : Prop where
  wf : s.buffer.Wf
  bytes : s.buffer.readable = q.bytes
  returned : s.returned = q.returned

theorem Wf.readFdResult (h : b.Wf) (delivered : Option Bytes) :
    (b.readFdResult delivered).Wf ∧
      (b.readFdResult delivered).readable = b.readable ++ delivered.getD [] := by
  cases delivered with
  | none => exact ⟨h, (List.append_nil _).symm⟩
  | some data => exact h.readFd data

/-- **One operation** on the buffer does what it does to the queue. -/
theorem Refines.step {s : Used} {q : ByteQueue} (h : Refines s q) {op : BufferOp}
    (hop : Allowed s op) : ∃ s', Buffer.step s op = some s' ∧ Refines s' (q.step op) := by
  obtain ⟨hwf, hbytes, hreturned⟩ := h
  cases op with
  | append data =>
    obtain ⟨hwf', hread⟩ := hwf.append data
    exact ⟨_, rfl, hwf', by rw [hread, hbytes]; rfl, hreturned⟩
  | readFd delivered =>
    obtain ⟨hwf', hread⟩ := hwf.readFdResult delivered
    refine ⟨_, rfl, hwf', ?_, ?_⟩
    · show (s.buffer.readFdResult delivered).readable = _
      rw [hread, hbytes]
      cases delivered with
      | none => exact List.append_nil _
      | some data => rfl
    · cases delivered <;> exact hreturned
  | retrieve len =>
    refine ⟨_, rfl, hwf.retrieve len, ?_, hreturned⟩
    show (s.buffer.retrieve len).readable = q.bytes.drop (min len q.bytes.length)
    rw [hwf.readable_retrieve, hbytes]
    -- dropping more than everything leaves nothing
    rcases le_total len q.bytes.length with hle | hle
    · rw [min_eq_left hle]
    · rw [min_eq_right hle, List.drop_length, List.drop_of_length_le hle]
  | retrieveAll =>
    refine ⟨_, rfl, ?_, ?_, hreturned⟩
    · show s.buffer.retrieveAll.Wf
      rw [hwf.retrieveAll_eq]
      exact hwf.retrieve _
    · show s.buffer.retrieveAll.readable = []
      rw [hwf.retrieveAll_eq, hwf.readable_retrieve, List.drop_length]
  | retrieveAsString len =>
    have hlen : len ≤ s.buffer.readableBytes := hop
    refine ⟨⟨s.buffer.retrieve len, s.returned ++ [s.buffer.readable.take len]⟩, ?_,
      hwf.retrieve len, ?_, ?_⟩
    · rw [Buffer.step, retrieveAsString, if_pos hlen, Option.map_some]
    · show (s.buffer.retrieve len).readable = q.bytes.drop len
      rw [hwf.readable_retrieve, hbytes]
    · show s.returned ++ [s.buffer.readable.take len] = q.returned ++ [q.bytes.take len]
      rw [hreturned, hbytes]

/-- **A `Buffer` is a queue of bytes.** For every initial size with room for the cheap prepend area
and every sequence of operations: all of them can be performed, the indices stay in order, the
readable bytes and the strings returned are those of the queue, and no operation that may come next
computes a negative difference. -/
theorem refines_byteQueue {n : ℕ} (hn : kCheapPrepend ≤ n) {ops : List BufferOp}
    (hops : Runs.Guarded step Allowed ⟨.new n, []⟩ ops) :
    ∃ s, Runs.exec step ⟨.new n, []⟩ ops = some s ∧
      (kCheapPrepend ≤ s.buffer.readIndex ∧ s.buffer.readIndex ≤ s.buffer.writeIndex ∧
        s.buffer.writeIndex ≤ s.buffer.buffer.length) ∧
      (⟨s.buffer.readable, s.returned⟩ : ByteQueue) = ops.foldl ByteQueue.step ⟨[], []⟩ ∧
      ∀ op, ∀ z ∈ s.buffer.differences op, 0 ≤ z := by
  have hnew : Refines ⟨.new n, []⟩ ⟨[], []⟩ := ⟨wf_new hn, readable_new n, rfl⟩
  have hstep : ∀ s q op, Refines s q → Allowed s op →
      ∃ s', step s op = some s' ∧ Refines s' (q.step op) := fun _ _ _ h hop => h.step hop
  obtain ⟨s, hs, hwf, hbytes, hreturned⟩ := Runs.exec_simulates hnew hstep hops
  refine ⟨s, hs, ⟨hwf.prepend_le, hwf.read_le_write, hwf.write_le⟩, ?_, hwf.differences_nonneg⟩
  rw [hbytes, hreturned]

/-- Five operations on a buffer of 12 bytes: the second makes it grow, and the fourth slides what is
left to the front. -/
def fiveOps : List BufferOp :=
  [.append [1, 2, 3], .readFd (some [4, 5, 6]), .retrieveAsString 4, .append [7], .readFd none]

/-- The theorem at work. -/
theorem refines_byteQueue_five : ∃ s, Runs.exec step ⟨.new 12, []⟩ fiveOps = some s ∧
    (kCheapPrepend ≤ s.buffer.readIndex ∧ s.buffer.readIndex ≤ s.buffer.writeIndex ∧
      s.buffer.writeIndex ≤ s.buffer.buffer.length) ∧
    (⟨s.buffer.readable, s.returned⟩ : ByteQueue) = fiveOps.foldl ByteQueue.step ⟨[], []⟩ ∧
    ∀ op, ∀ z ∈ s.buffer.differences op, 0 ≤ z :=
  refines_byteQueue (by decide) (by decide)

end Buffer

end Muduo
