import Muduo.Net.BufferQueue

/-! # Where a `Buffer` reads and writes

A `Buffer` computes the ranges of its copies, and of the iovec it gives to `readv`, from unsigned
differences of its indices. `accesses` are the ranges of the vector that an operation touches, each
with the size that the vector has then.

`Sound` is what a state has to keep and `Inside` what an access has to keep. The constructor takes
every size but starts both indices at `kCheapPrepend`, so **`Buffer.staysInside_iff`**: all is well
along a run exactly if the initial size has room for the cheap prepend area. -/

namespace Muduo

namespace Buffer

/-! ## The ranges -/

/-- The range from `first` to `last` of a vector of `size` bytes. -/
structure Access where
  /-- Offset of the first byte from `begin()`. -/
  first : ℕ
  /-- Offset behind the last byte. -/
  last : ℕ
  /-- `buffer_.size()` at the time. -/
  size : ℕ

/-- The range lies in the vector. -/
def Access.Inside (a : Access) : Prop := a.first ≤ a.last ∧ a.last ≤ a.size

instance (a : Access) : Decidable a.Inside :=
  inferInstanceAs (Decidable (a.first ≤ a.last ∧ a.last ≤ a.size))

/-- The range of `len` bytes from `first` on. -/
def access (b : Buffer) (first len : ℕ) : Access := ⟨first, first + len, b.buffer.length⟩

/-- The ranges of the copy in `makeSpace(len)`: from the readable bytes to behind the cheap prepend
area. -/
def makeSpaceAccesses (b : Buffer) (len : ℕ) : List Access :=
  if sizeT (b.writableDifference + b.prependableBytes - kCheapPrepend) < len then []
  else [⟨b.readIndex, b.writeIndex, b.buffer.length⟩, b.access kCheapPrepend b.readableBytes]

/-- The ranges that `append(data, len)` touches. -/
def appendAccesses (b : Buffer) (len : ℕ) : List Access :=
  (if b.writableBytes < len then b.makeSpaceAccesses len else []) ++
    [(b.ensureWritableBytes len).access (b.ensureWritableBytes len).writeIndex len]

/-- The ranges that `readFd` touches: `vec[0]`, and what `append` does with the rest. -/
def readFdAccesses (b : Buffer) (delivered : Option Bytes) : List Access :=
  b.access b.writeIndex b.writableBytes ::
    match delivered with
    | some data =>
      if data.length < b.writableBytes then []
      else (b.write (data.take b.writableBytes)).appendAccesses (data.length - b.writableBytes)
    | none => []

/-- The ranges of the vector that an operation touches. -/
def accesses (b : Buffer) : BufferOp → List Access
  | .append data => b.appendAccesses data.length
  | .readFd delivered => b.readFdAccesses delivered
  | .retrieve _ => []
  | .retrieveAll => []
  | .retrieveAsString len => [b.access b.readIndex len]

/-- The indices are in order, and none of the three sizes that the operations compute wraps. -/
structure Sound (b : Buffer) : Prop where
  read_le_write : b.readIndex ≤ b.writeIndex
  write_le : b.writeIndex ≤ b.buffer.length
  readable : 0 ≤ b.readableDifference
  writable : 0 ≤ b.writableDifference
  space : 0 ≤ b.writableDifference + b.prependableBytes - kCheapPrepend
  /-- The sum is the size of a part of the vector, so it does not wrap either. -/
  sum_le : b.writableDifference + b.prependableBytes ≤ b.buffer.length

/-- Along a run on `Buffer(initSize)` every operation can be performed, every state is sound, every
operation touches ranges inside the vector only, and computes no difference below zero. -/
def StaysInside (initSize : ℕ) (ops : List BufferOp) : Prop :=
  ∀ done, done <+: ops → ∃ s, Runs.exec step ⟨.new initSize, []⟩ done = some s ∧ s.buffer.Sound ∧
    ∀ op, done ++ [op] <+: ops →
      (∀ a ∈ s.buffer.accesses op, a.Inside) ∧ ∀ z ∈ s.buffer.differences op, 0 ≤ z

/-! ## Under the invariant -/

variable {b : Buffer}

theorem Wf.sound (h : b.Wf) : b.Sound := by
  have hp := h.prepend_le
  have hr := h.read_le_write
  have hw := h.writableDifference_nonneg
  refine ⟨hr, h.write_le, h.readableDifference_nonneg, hw, ?_, ?_⟩
  · rw [prependableBytes]
    omega
  · rw [prependableBytes, writableDifference]
    omega

theorem Wf.makeSpaceAccesses_inside (h : b.Wf) (len : ℕ) :
    ∀ a ∈ b.makeSpaceAccesses len, a.Inside := by
  have hp := h.prepend_le
  have hr := h.read_le_write
  have hw := h.write_le
  rw [makeSpaceAccesses]
  split_ifs
  · exact List.forall_mem_nil _
  · -- the readable bytes slide to the front
    have hdest : (b.access kCheapPrepend b.readableBytes).Inside := by
      refine ⟨Nat.le_add_right _ _, ?_⟩
      show kCheapPrepend + b.readableBytes ≤ b.buffer.length
      rw [h.readableBytes_eq]
      omega
    exact List.forall_mem_cons.mpr ⟨⟨hr, hw⟩, List.forall_mem_singleton.mpr hdest⟩

/-- After `ensureWritableBytes` there is room. -/
theorem Wf.ensureWritableBytes_room (h : b.Wf) (len : ℕ) :
    (b.ensureWritableBytes len).writeIndex + len ≤ (b.ensureWritableBytes len).buffer.length := by
  rw [ensureWritableBytes]
  split_ifs with hfit
  · exact (h.makeSpace len).2.2
  · have := h.writableBytes_eq
    have := h.write_le
    omega

theorem Wf.appendAccesses_inside (h : b.Wf) (len : ℕ) :
    ∀ a ∈ b.appendAccesses len, a.Inside := by
  have hlast : ((b.ensureWritableBytes len).access
      (b.ensureWritableBytes len).writeIndex len).Inside :=
    ⟨Nat.le_add_right _ _, h.ensureWritableBytes_room len⟩
  refine List.forall_mem_append.mpr ⟨?_, List.forall_mem_singleton.mpr hlast⟩
  split_ifs
  · exact h.makeSpaceAccesses_inside len
  · exact List.forall_mem_nil _

/-- `readv` fills the vector up before `readFd` appends the rest. -/
theorem Wf.write_take (h : b.Wf) (data : Bytes) : (b.write (data.take b.writableBytes)).Wf := by
  have heq := h.writableBytes_eq
  have hle := h.write_le
  refine (h.write ?_).1
  rw [List.length_take]
  omega

theorem Wf.readFdAccesses_inside (h : b.Wf) (delivered : Option Bytes) :
    ∀ a ∈ b.readFdAccesses delivered, a.Inside := by
  have hvec : (b.access b.writeIndex b.writableBytes).Inside := by
    refine ⟨Nat.le_add_right _ _, ?_⟩
    have hle := h.write_le
    show b.writeIndex + b.writableBytes ≤ b.buffer.length
    rw [h.writableBytes_eq]
    omega
  refine List.forall_mem_cons.mpr ⟨hvec, ?_⟩
  cases delivered with
  | none => exact List.forall_mem_nil _
  | some data =>
    show ∀ a ∈ (if data.length < b.writableBytes then [] else _), Access.Inside a
    split_ifs
    · exact List.forall_mem_nil _
    · exact (h.write_take data).appendAccesses_inside _

/-- **No operation leaves the vector.** -/
theorem Wf.accesses_inside (h : b.Wf) {s : Used} (hs : s.buffer = b) {op : BufferOp}
    (hop : Allowed s op) : ∀ a ∈ b.accesses op, a.Inside := by
  cases op with
  | append data => exact h.appendAccesses_inside data.length
  | readFd delivered => exact h.readFdAccesses_inside delivered
  | retrieve len => exact List.forall_mem_nil _
  | retrieveAll => exact List.forall_mem_nil _
  | retrieveAsString len =>
    have hlen : len ≤ s.buffer.readableBytes := hop
    have hr := h.read_le_write
    have hw := h.write_le
    refine List.forall_mem_singleton.mpr ⟨Nat.le_add_right _ _, ?_⟩
    show b.readIndex + len ≤ b.buffer.length
    rw [hs, h.readableBytes_eq] at hlen
    omega

/-! ## Every argument of the constructor -/

/-- A size below the cheap prepend area leaves the write index behind the end of the vector. -/
theorem sound_new_iff {n : ℕ} : (new n).Sound ↔ kCheapPrepend ≤ n := by
  refine ⟨fun h => ?_, fun hn => (wf_new hn).sound⟩
  have hle := h.write_le
  rwa [new, List.length_replicate] at hle

/-- There `writableBytes()` wraps around. -/
theorem writableBytes_new {n : ℕ} (hn : n < kCheapPrepend) :
    (new n).writableBytes = 2 ^ 64 - kCheapPrepend + n := by
  have h8 : kCheapPrepend = 8 := rfl
  have hlen : (new n).buffer.length = n := List.length_replicate
  have hwrite : (new n).writeIndex = kCheapPrepend := rfl
  rw [writableBytes, sizeT, hlen, hwrite, if_neg (by omega)]
  omega

/-- **The sizes for which the index arithmetic is safe.** Along every sequence of operations, in
which `readv` delivers no more than it is offered, the states are sound and the operations stay
inside the vector if and only if the initial size is at least `kCheapPrepend`. -/
theorem staysInside_iff {n : ℕ} {ops : List BufferOp}
    (hops : Runs.Guarded step Allowed ⟨.new n, []⟩ ops) :
    StaysInside n ops ↔ kCheapPrepend ≤ n := by
  constructor
  · intro h
    -- the state that the constructor leaves is not sound otherwise
    obtain ⟨s, hs, hsound, -⟩ := h [] (List.nil_prefix)
    obtain rfl : (⟨.new n, []⟩ : Used) = s := Option.some.inj hs
    exact sound_new_iff.mp hsound
  · intro hn done hdone
    obtain ⟨s, hs, hwf⟩ := Runs.exec_safe (I := fun s : Used => s.buffer.Wf) (wf_new hn)
      (fun s op hwf hop => by
        have href : Refines s ⟨s.buffer.readable, s.returned⟩ := ⟨hwf, rfl, rfl⟩
        obtain ⟨s', hs', hR⟩ := href.step hop
        exact ⟨s', hs', hR.wf⟩) (hops.of_done hdone)
    refine ⟨s, hs, hwf.sound, fun op hop => ?_⟩
    exact ⟨hwf.accesses_inside rfl (hops done op hop s hs), hwf.differences_nonneg op⟩

/-- The theorem at work, on a buffer of 12 bytes that grows, and on one of 4 bytes. -/
theorem staysInside_iff_fiveOps :
    StaysInside 12 fiveOps ∧ ¬ StaysInside 4 [.append [1]] :=
  ⟨(staysInside_iff (by decide)).mpr (by decide),
    fun h => absurd ((staysInside_iff (by decide)).mp h) (by decide)⟩

/-- `Buffer(4)`: the write index is behind the end, and the first `append` writes outside of the
vector. -/
theorem not_staysInside_four : Runs.Guarded step Allowed ⟨.new 4, []⟩ [.append [1]] ∧
    (new 4).writableBytes = 2 ^ 64 - 4 ∧
    ((new 4).accesses (.append [1])).map Access.last = [9] ∧ ¬ StaysInside 4 [.append [1]] := by
  refine ⟨by decide, writableBytes_new (by decide), by decide, fun h => ?_⟩
  obtain ⟨s, hs, hsound, -⟩ := h [] (List.nil_prefix)
  obtain rfl : (⟨.new 4, []⟩ : Used) = s := Option.some.inj hs
  exact absurd (sound_new_iff.mp hsound) (by decide)

end Buffer

end Muduo
