import Muduo.Base.Bytes
import Muduo.Base.SizeT
import Muduo.Foundations.Delimiter

/-! # `Buffer`

The input and output buffer of `muduo/net/Buffer.h`: a vector of bytes with a read and a write
index. The model keeps the indices and the wrap-around of `size_t`; `Buffer.Wf` is the invariant
under which nothing wraps, and under it the readable bytes are a byte queue:

* `Wf.retrieve`, `Wf.readable_retrieve`: bytes leave at the front;
* `Wf.append`, `Wf.readFd`: bytes enter at the end.

`ByteBuffer` carries the invariant, so that its users see a byte queue. -/

namespace Muduo

/-- Overwrite the bytes from index `k` on. -/
def overwrite (l : Bytes) (k : ℕ) (s : Bytes) : Bytes := l.take k ++ s ++ l.drop (k + s.length)

/-- `Buffer`: `buffer_`, `readIndex_` and `writeIndex_`. -/
structure Buffer where
  /-- `buffer_`. -/
  buffer : Bytes
  /-- `readIndex_`. -/
  readIndex : ℕ
  /-- `writeIndex_`. -/
  writeIndex : ℕ
deriving DecidableEq

namespace Buffer

/-- `kCheapPrepend`. -/
def kCheapPrepend : ℕ := 8

/-- `kInitSize`. -/
def kInitSize : ℕ := 1024

/-- `Buffer(initSize)`. -/
def new (initSize : ℕ) : Buffer :=
  ⟨List.replicate initSize 0, kCheapPrepend, kCheapPrepend⟩

/-- `readableBytes()`. -/
def readableBytes (b : Buffer) : ℕ := sizeT ((b.writeIndex : ℤ) - b.readIndex)

/-- `writableBytes()`. -/
def writableBytes (b : Buffer) : ℕ := sizeT ((b.buffer.length : ℤ) - b.writeIndex)

/-- `prependableBytes()`. -/
def prependableBytes (b : Buffer) : ℕ := b.readIndex

/-- The bytes at `peek()`. -/
def readable (b : Buffer) : Bytes := (b.buffer.drop b.readIndex).take b.readableBytes

/-- `retrieve(len)`. -/
def retrieve (b : Buffer) (len : ℕ) : Buffer :=
  if b.readableBytes ≥ len then { b with readIndex := b.readIndex + len }
  else { b with readIndex := b.readIndex + b.readableBytes }

/-- `retrieveAll()`. -/
def retrieveAll (b : Buffer) : Buffer := { b with readIndex := b.readIndex + b.readableBytes }

/-- `retrieveAsString(len)`; it asserts `len <= readableBytes()`. -/
def retrieveAsString (b : Buffer) (len : ℕ) : Option (Bytes × Buffer) :=
  if len ≤ b.readableBytes then some (b.readable.take len, b.retrieve len) else none

/-- `makeSpace(len)`. The comparison `writableBytes()+prependableBytes()-kCheapPrepend<len` is
computed exactly and wrapped once, as arithmetic modulo `2 ^ 64` allows. -/
def makeSpace (b : Buffer) (len : ℕ) : Buffer :=
  if sizeT ((b.buffer.length : ℤ) - b.writeIndex + b.prependableBytes - kCheapPrepend) < len then
    { b with buffer :=
        b.buffer.take (b.writeIndex + len) ++
          List.replicate (b.writeIndex + len - b.buffer.length) 0 }
  else
    { buffer := overwrite b.buffer kCheapPrepend b.readable
      readIndex := kCheapPrepend
      writeIndex := kCheapPrepend + b.readableBytes }

/-- `ensureWritableBytes(len)`. -/
def ensureWritableBytes (b : Buffer) (len : ℕ) : Buffer :=
  if b.writableBytes < len then b.makeSpace len else b

/-- Copy `data` to `begin()+writeIndex_` and advance `writeIndex_`. -/
def write (b : Buffer) (data : Bytes) : Buffer :=
  { b with buffer := overwrite b.buffer b.writeIndex data
           writeIndex := b.writeIndex + data.length }

/-- `append(data, len)`. -/
def append (b : Buffer) (data : Bytes) : Buffer := (b.ensureWritableBytes data.length).write data

/-- `sizeof buf` of the stack buffer of `readFd`. -/
def extraSize : ℕ := 65536

/-- The bytes that `readFd` offers to `readv`. -/
def offered (b : Buffer) : ℕ :=
  if b.writableBytes < extraSize then b.writableBytes + extraSize else b.writableBytes

/-- `readFd` when `readv` delivered `data` (at most `offered`): the vector is filled first, the rest
comes from the stack buffer. -/
def readFd (b : Buffer) (data : Bytes) : Buffer :=
  if data.length < b.writableBytes then b.write data
  else (b.write (data.take b.writableBytes)).append (data.drop b.writableBytes)

/-- `findCRLF()`, as an offset from `peek()`. -/
def findCRLF (b : Buffer) : Option ℕ := Delimiter.findPair CR LF b.readable

/-! ## The invariant -/

/-- The indices are in order and inside the vector. -/
structure Wf (b : Buffer) : Prop where
  /-- The cheap prepend area stays free. -/
  prepend_le : kCheapPrepend ≤ b.readIndex
  /-- The read index does not pass the write index. -/
  read_le_write : b.readIndex ≤ b.writeIndex
  /-- The write index is inside the vector. -/
  write_le : b.writeIndex ≤ b.buffer.length

variable {b : Buffer}

theorem Wf.readableBytes_eq (h : b.Wf) : b.readableBytes = b.writeIndex - b.readIndex :=
  sizeT_sub h.read_le_write

theorem Wf.writableBytes_eq (h : b.Wf) : b.writableBytes = b.buffer.length - b.writeIndex :=
  sizeT_sub h.write_le

theorem Wf.readable_eq (h : b.Wf) :
    b.readable = (b.buffer.drop b.readIndex).take (b.writeIndex - b.readIndex) := by
  rw [readable, h.readableBytes_eq]

/-- `readableBytes()` counts the readable bytes. -/
theorem Wf.length_readable (h : b.Wf) : b.readable.length = b.readableBytes := by
  have := h.read_le_write
  have := h.write_le
  rw [h.readable_eq, h.readableBytes_eq, List.length_take, List.length_drop]
  omega

theorem wf_new {n : ℕ} (hn : kCheapPrepend ≤ n) : (new n).Wf :=
  ⟨le_rfl, le_rfl, by simpa [new] using hn⟩

@[simp] theorem readable_new (n : ℕ) : (new n).readable = [] := by
  simp [new, readable, readableBytes, sizeT]

/-! ## Bytes leave at the front -/

/-- The read index may advance over readable bytes; these bytes are dropped. -/
theorem Wf.advance (h : b.Wf) {k : ℕ} (hk : k ≤ b.readable.length) :
    Wf { b with readIndex := b.readIndex + k } ∧
      readable { b with readIndex := b.readIndex + k } = b.readable.drop k := by
  have hr := h.length_readable
  rw [h.readableBytes_eq] at hr
  have hle := h.read_le_write
  have hwf : Wf { b with readIndex := b.readIndex + k } :=
    ⟨h.prepend_le.trans (Nat.le_add_right _ _), by simp only; omega, h.write_le⟩
  refine ⟨hwf, ?_⟩
  rw [hwf.readable_eq, h.readable_eq, List.drop_take, List.drop_drop, Nat.sub_add_eq]

theorem Wf.retrieve_eq (h : b.Wf) (n : ℕ) :
    b.retrieve n = { b with readIndex := b.readIndex + min n b.readable.length } := by
  rw [Buffer.retrieve, h.length_readable]
  by_cases hn : b.readableBytes ≥ n
  · rw [if_pos hn, Nat.min_eq_left hn]
  · rw [if_neg hn, Nat.min_eq_right (by omega)]

theorem Wf.retrieve (h : b.Wf) (n : ℕ) : (b.retrieve n).Wf := by
  rw [h.retrieve_eq n]
  exact (h.advance (Nat.min_le_right _ _)).1

/-- **`retrieve` drops bytes from the front.** -/
theorem Wf.readable_retrieve (h : b.Wf) (n : ℕ) : (b.retrieve n).readable = b.readable.drop n := by
  rw [h.retrieve_eq n, (h.advance (Nat.min_le_right _ _)).2]
  by_cases hn : n ≤ b.readable.length
  · rw [Nat.min_eq_left hn]
  · -- more than everything is everything
    rw [Nat.min_eq_right (by omega), List.drop_length, List.drop_of_length_le (by omega)]

/-- `retrieveAll` empties the buffer. -/
theorem Wf.retrieveAll_eq (h : b.Wf) : b.retrieveAll = b.retrieve b.readable.length := by
  rw [h.retrieve_eq, Nat.min_self, retrieveAll, h.length_readable]

/-! ## Bytes enter at the end -/

/-- With room for `data` the copy stays inside the vector and extends the readable bytes. -/
theorem Wf.write (h : b.Wf) {data : Bytes} (hroom : b.writeIndex + data.length ≤ b.buffer.length) :
    (b.write data).Wf ∧ (b.write data).readable = b.readable ++ data := by
  have hr := h.read_le_write
  have hw := h.write_le
  have hwf : (b.write data).Wf := by
    refine ⟨h.prepend_le, hr.trans (Nat.le_add_right _ _), ?_⟩
    show b.writeIndex + data.length ≤ (overwrite b.buffer b.writeIndex data).length
    simp only [overwrite, List.length_append, List.length_take, List.length_drop]
    omega
  refine ⟨hwf, ?_⟩
  have htake : (b.buffer.take b.writeIndex).length = b.writeIndex := by
    rw [List.length_take]; omega
  rw [hwf.readable_eq, h.readable_eq]
  show List.take (b.writeIndex + data.length - b.readIndex)
    (List.drop b.readIndex (overwrite b.buffer b.writeIndex data)) = _
  rw [overwrite, List.append_assoc, List.drop_append_of_le_length (by omega), List.drop_take,
    ← List.append_assoc, List.take_append_of_le_length, List.take_of_length_le]
  · rw [List.length_append, List.length_take, List.length_drop]; omega
  · rw [List.length_append, List.length_take, List.length_drop]; omega

/-- `makeSpace` keeps the readable bytes and makes room. -/
theorem Wf.makeSpace (h : b.Wf) (len : ℕ) : (b.makeSpace len).Wf ∧
    (b.makeSpace len).readable = b.readable ∧
    (b.makeSpace len).writeIndex + len ≤ (b.makeSpace len).buffer.length := by
  have hp := h.prepend_le
  have hr := h.read_le_write
  have hw := h.write_le
  have hlen := h.length_readable
  rw [h.readableBytes_eq] at hlen
  have hspace : sizeT ((b.buffer.length : ℤ) - b.writeIndex + b.prependableBytes - kCheapPrepend) =
      b.buffer.length - b.writeIndex + (b.readIndex - kCheapPrepend) := by
    rw [sizeT, prependableBytes, if_pos (by omega)]; omega
  rw [Buffer.makeSpace, hspace]
  by_cases hc : b.buffer.length - b.writeIndex + (b.readIndex - kCheapPrepend) < len
  · rw [if_pos hc]
    have hge : b.buffer.length ≤ b.writeIndex + len := by omega
    have hwf : Wf ⟨b.buffer.take (b.writeIndex + len) ++
        List.replicate (b.writeIndex + len - b.buffer.length) 0, b.readIndex, b.writeIndex⟩ := by
      refine ⟨hp, hr, ?_⟩
      simp only [List.length_append, List.length_take, List.length_replicate]; omega
    refine ⟨hwf, ?_, ?_⟩
    · rw [hwf.readable_eq, h.readable_eq]
      show List.take (b.writeIndex - b.readIndex) (List.drop b.readIndex (_ ++ _)) = _
      rw [List.take_of_length_le hge, List.drop_append_of_le_length (by omega),
        List.take_append_of_le_length (by rw [List.length_drop]; omega)]
    · simp only [List.length_append, List.length_take, List.length_replicate]; omega
  · rw [if_neg hc]
    have hwf : Wf ⟨overwrite b.buffer kCheapPrepend b.readable, kCheapPrepend,
        kCheapPrepend + b.readableBytes⟩ := by
      refine ⟨le_rfl, Nat.le_add_right _ _, ?_⟩
      rw [h.readableBytes_eq]
      simp only [overwrite, List.length_append, List.length_take, List.length_drop]; omega
    refine ⟨hwf, ?_, ?_⟩
    · have htake : (b.buffer.take kCheapPrepend).length = kCheapPrepend := by
        rw [List.length_take]; omega
      rw [hwf.readable_eq]
      show List.take (kCheapPrepend + b.readableBytes - kCheapPrepend)
        (List.drop kCheapPrepend (overwrite b.buffer kCheapPrepend b.readable)) = _
      rw [overwrite, List.append_assoc, List.drop_append_of_le_length (by omega),
        List.drop_of_length_le (by omega), List.nil_append, Nat.add_sub_cancel_left,
        ← h.length_readable, List.take_left]
    · show kCheapPrepend + b.readableBytes + len ≤
        (overwrite b.buffer kCheapPrepend b.readable).length
      rw [h.readableBytes_eq]
      simp only [overwrite, List.length_append, List.length_take, List.length_drop]; omega

/-- **`append` adds bytes at the end.** -/
theorem Wf.append (h : b.Wf) (data : Bytes) :
    (b.append data).Wf ∧ (b.append data).readable = b.readable ++ data := by
  rw [Buffer.append, ensureWritableBytes]
  by_cases hfit : b.writableBytes < data.length
  · rw [if_pos hfit]
    obtain ⟨hwf, hread, hroom⟩ := h.makeSpace data.length
    obtain ⟨hwf', hread'⟩ := hwf.write hroom
    exact ⟨hwf', hread'.trans (congrArg (· ++ data) hread)⟩
  · rw [if_neg hfit]
    have := h.writableBytes_eq
    have := h.write_le
    exact h.write (by omega)

/-- **`readFd` adds what was read at the end.** -/
theorem Wf.readFd (h : b.Wf) (data : Bytes) :
    (b.readFd data).Wf ∧ (b.readFd data).readable = b.readable ++ data := by
  have hw := h.writableBytes_eq
  have hle := h.write_le
  rw [Buffer.readFd]
  by_cases hfit : data.length < b.writableBytes
  · rw [if_pos hfit]
    exact h.write (by omega)
  · rw [if_neg hfit]
    have hroom : b.writeIndex + (data.take b.writableBytes).length ≤ b.buffer.length := by
      rw [List.length_take]; omega
    obtain ⟨hwf, hread⟩ := h.write hroom
    obtain ⟨hwf', hread'⟩ := hwf.append (data.drop b.writableBytes)
    refine ⟨hwf', ?_⟩
    rw [hread', hread, List.append_assoc, List.take_append_drop]

/-- `findCRLF` answers an offset inside the readable bytes. -/
theorem findCRLF_lt {i : ℕ} (h : b.findCRLF = some i) : i + 2 ≤ b.readable.length :=
  Delimiter.findPair_lt h

end Buffer

/-! ## Buffers with the invariant -/

/-- A buffer whose indices are in order. -/
abbrev ByteBuffer := { b : Buffer // b.Wf }

namespace ByteBuffer

/-- The readable bytes, from `peek()` to `beginWrite()`. -/
def bytes (b : ByteBuffer) : Bytes := b.1.readable

/-- `Buffer()`. -/
def new : ByteBuffer := ⟨.new Buffer.kInitSize, Buffer.wf_new (by decide)⟩

/-- `retrieve(len)`. -/
def retrieve (b : ByteBuffer) (len : ℕ) : ByteBuffer := ⟨b.1.retrieve len, b.2.retrieve len⟩

/-- `retrieveAll()`. -/
def retrieveAll (b : ByteBuffer) : ByteBuffer :=
  ⟨b.1.retrieveAll, b.2.retrieveAll_eq ▸ b.2.retrieve _⟩

/-- `append(data, len)`. -/
def append (b : ByteBuffer) (data : Bytes) : ByteBuffer := ⟨b.1.append data, (b.2.append data).1⟩

/-- `readFd` when `readv` delivered `data`. -/
def readFd (b : ByteBuffer) (data : Bytes) : ByteBuffer := ⟨b.1.readFd data, (b.2.readFd data).1⟩

/-- `readableBytes()`. -/
def readableBytes (b : ByteBuffer) : ℕ := b.1.readableBytes

/-- `findCRLF()`, as an offset from `peek()`. -/
def findCRLF (b : ByteBuffer) : Option ℕ := b.1.findCRLF

variable (b : ByteBuffer)

@[simp] theorem bytes_new : new.bytes = [] := Buffer.readable_new _

@[simp] theorem bytes_retrieve (n : ℕ) : (b.retrieve n).bytes = b.bytes.drop n :=
  b.2.readable_retrieve n

@[simp] theorem bytes_retrieveAll : b.retrieveAll.bytes = [] := by
  rw [bytes, retrieveAll]
  simp only [b.2.retrieveAll_eq, b.2.readable_retrieve, List.drop_length]

@[simp] theorem bytes_append (s : Bytes) : (b.append s).bytes = b.bytes ++ s :=
  (b.2.append s).2

@[simp] theorem bytes_readFd (s : Bytes) : (b.readFd s).bytes = b.bytes ++ s :=
  (b.2.readFd s).2

theorem readableBytes_eq : b.readableBytes = b.bytes.length := b.2.length_readable.symm

theorem findCRLF_eq : b.findCRLF = Delimiter.findPair CR LF b.bytes := rfl

end ByteBuffer

end Muduo
