import Muduo.Net.TcpConnection

/-! # Sending keeps the byte stream

`Sender.Intact` is the invariant: the accepted bytes followed by the buffered ones are the messages
sent. Every action keeps it unless `sendInLoop` writes to the socket itself and the write fails:
then `nwrote` is `-1` as a `size_t`, `nwrote >= 0` holds, and `len - nwrote` bytes from
`buf + nwrote` on are buffered, that is the byte in front of the message and the message
(`sendInLoop_failed`).

`streamIntact_iff` states that a run is right exactly if this does not happen in it. -/

namespace Muduo

namespace Net

namespace Sender

open Runs

/-! ## The kernel takes bytes -/

theorem accept_eq_some {s t : Sender} {bytes : Bytes} {r : Written} :
    s.accept bytes r = some t ↔ r.taken ≤ bytes.length ∧
      t = { s with accepted := s.accepted ++ bytes.take r.taken } := by
  rw [accept]
  split_ifs with h
  · rw [Option.some_inj]
    exact ⟨fun ht => ⟨h, ht.symm⟩, fun ht => ht.2.symm⟩
  · exact ⟨fun ht => (nomatch ht), fun ht => absurd ht.1 h⟩

@[simp] theorem length_bytes (m : Message) : m.bytes.length = m.len :=
  Memory.length_read _ _ _

/-! ## The size arithmetic of `sendInLoop` -/

/-- What is left after a count, in `size_t`. -/
theorem remain_count {m : Message} {n : ℕ} (hn : n ≤ m.len) :
    (BitVec.ofNat 64 m.len - BitVec.ofNat 64 n).toNat = m.len - n := by
  have := m.len_lt
  rw [BitVec.toNat_sub, BitVec.toNat_ofNat, BitVec.toNat_ofNat]
  omega

/-- What is "left" after a failure, in `size_t`: one byte more than there was. -/
theorem remain_failed (m : Message) :
    (BitVec.ofNat 64 m.len - (-1 : BitVec 64)).toNat = m.len + 1 := by
  have := m.len_lt
  rw [BitVec.toNat_sub, BitVec.toNat_ofNat]
  simp
  omega

theorem remain_pos_iff (b : BitVec 64) : 0 < b ↔ 0 < b.toNat := by
  rw [BitVec.lt_def]
  simp

/-- **A `size_t` is not negative**, so the branch of `sendInLoop` for a failed `write` is never
taken. -/
theorem send_direct {s : Sender} (hs : s.DirectWrite) (m : Message) (r : Written) :
    s.send m r = ({ s with sent := s.sent ++ m.bytes }.accept m.bytes r).map fun s : Sender =>
      if BitVec.ofNat 64 m.len - r.toSize = 0 ∧ s.conn.writeCompleteCallback = true then
        s.callback (.sendInLoop m r.toSize (BitVec.ofNat 64 m.len - r.toSize) false)
      else s.bufferRest m r.toSize (BitVec.ofNat 64 m.len - r.toSize) false := by
  -- `nwrote >= 0`
  have hnonneg : r.toSize ≥ 0 := by
    rw [ge_iff_le, BitVec.le_def]
    exact Nat.zero_le _
  rw [send, if_pos hs.1, sendInLoop, if_pos hs.2]
  simp only [if_pos hnonneg]

/-- Behind pending output, or while write interest is on, a message is buffered. -/
theorem send_buffered {s : Sender} (hstate : s.conn.state = .kConnected) (hs : ¬s.DirectWrite)
    (m : Message) (r : Written) :
    s.send m r = some ({ s with sent := s.sent ++ m.bytes }.bufferRest m 0
      (BitVec.ofNat 64 m.len) false) := by
  have hdirect : ¬(s.conn.writing = false ∧ s.conn.outputBuffer.readableBytes = 0) :=
    fun h => hs ⟨hstate, h⟩
  rw [send, if_pos hstate, sendInLoop, if_neg hdirect]

/-- `handleWrite` on buffered bytes moves some from the front of the buffer to the kernel. -/
theorem handleWriteBuffer_spec {s t : Sender} {r : Written} (h : s.handleWriteBuffer r = some t) :
    t.accepted = s.accepted ++ s.conn.outputBuffer.bytes.take r.taken ∧
      t.conn.outputBuffer.bytes = s.conn.outputBuffer.bytes.drop r.taken ∧
      t.sent = s.sent ∧ t.conn.file = s.conn.file ∧
      (t.frames = s.frames ∨ t.frames = .handleWrite :: s.frames) := by
  rw [handleWriteBuffer] at h
  obtain ⟨u, hu, rfl⟩ := Option.map_eq_some_iff.mp h
  obtain ⟨-, rfl⟩ := accept_eq_some.mp hu
  dsimp only
  by_cases hpos : r.taken > 0
  · rw [if_pos hpos]
    have hout := ByteBuffer.bytes_retrieve s.conn.outputBuffer r.taken
    split_ifs
    · exact ⟨rfl, hout, rfl, rfl, .inr rfl⟩
    · exact ⟨rfl, hout, rfl, rfl, .inl rfl⟩
    · exact ⟨rfl, hout, rfl, rfl, .inl rfl⟩
  · -- nothing was taken, and the buffer is left alone
    have hzero : r.taken = 0 := by omega
    rw [if_neg hpos]
    exact ⟨rfl, by rw [hzero, List.drop_zero], rfl, rfl, .inl rfl⟩

/-- The part of a message that was not written. -/
theorem read_rest {m : Message} {n : ℕ} (hn : n ≤ m.len) :
    m.mem.read (m.buf + BitVec.ofNat 64 n) (m.len - n) = m.bytes.drop n :=
  (m.mem.drop_read m.buf hn).symm

/-! ## What the ends of the calls do -/

/-- Nothing is left: the call just ends. -/
theorem bufferRest_zero (s : Sender) (m : Message) (nwrote : BitVec 64) {remain : BitVec 64}
    (h : remain = 0) (faultError : Bool) : s.bufferRest m nwrote remain faultError = s := by
  rw [bufferRest, if_neg]
  rintro ⟨hpos, -⟩
  rw [h] at hpos
  exact absurd hpos (by decide)

/-- Something is left: it is buffered, and nothing but the buffer and the write interest changes. -/
theorem bufferRest_pos (s : Sender) (m : Message) (nwrote : BitVec 64) {remain : BitVec 64}
    (h : 0 < remain.toNat) :
    (s.bufferRest m nwrote remain false).conn.outputBuffer.bytes =
        s.conn.outputBuffer.bytes ++ m.mem.read (m.buf + nwrote) remain.toNat ∧
      (s.bufferRest m nwrote remain false).accepted = s.accepted ∧
      (s.bufferRest m nwrote remain false).sent = s.sent ∧
      (s.bufferRest m nwrote remain false).frames = s.frames ∧
      (s.bufferRest m nwrote remain false).conn.file = s.conn.file := by
  rw [bufferRest, if_pos ⟨(remain_pos_iff _).mpr h, rfl⟩]
  exact ⟨ByteBuffer.bytes_append _ _, rfl, rfl, rfl, rfl⟩

/-! ## The invariant -/

/-- A call that waits for its callback has nothing left to buffer. -/
def Settled : Frame → Prop
  | .sendInLoop _ _ remain _ => remain = 0
  | .sendFileInLoop .. => False
  | .handleWrite => True

/-- **The byte stream is intact.** -/
structure Intact (s : Sender) : Prop where
  /-- The accepted bytes and the buffered ones are what was sent. -/
  stream : s.accepted ++ s.conn.outputBuffer.bytes = s.sent
  /-- The calls that wait will add nothing. -/
  settled : ∀ f ∈ s.frames, Settled f
  /-- No file is being sent. -/
  noFile : s.conn.file = none

theorem intact_established (callback : Bool) : (established callback).Intact :=
  ⟨ByteBuffer.bytes_new, by simp [established], rfl⟩

/-- A callback is entered from a call that has nothing left. -/
theorem Intact.callback {s : Sender} (h : s.Intact) {f : Frame} (hf : Settled f) :
    (s.callback f).Intact :=
  ⟨h.stream, fun g hg => (List.mem_cons.mp hg).elim (fun e => e ▸ hf) (h.settled g), h.noFile⟩

/-- A direct write that took `n` bytes, and the end of the call. -/
theorem Intact.bufferRest {s t : Sender} (hs : s.Intact) {m : Message} {n : ℕ} (hn : n ≤ m.len)
    (hempty : s.conn.outputBuffer.bytes = [])
    (ht : t = { s with accepted := s.accepted ++ m.bytes.take n, sent := s.sent ++ m.bytes }) :
    (t.bufferRest m (BitVec.ofNat 64 n) (BitVec.ofNat 64 m.len - BitVec.ofNat 64 n) false).Intact := by
  have hsent : s.accepted = s.sent := by
    have := hs.stream
    rwa [hempty, List.append_nil] at this
  rcases Nat.eq_zero_or_pos (m.len - n) with hzero | hpos
  · -- everything was taken
    have hrem : BitVec.ofNat 64 m.len - BitVec.ofNat 64 n = 0 :=
      BitVec.eq_of_toNat_eq (by rw [remain_count hn, hzero]; rfl)
    have htake : m.bytes.take n = m.bytes :=
      List.take_of_length_le (by rw [length_bytes]; omega)
    rw [bufferRest_zero _ _ _ hrem]
    subst ht
    refine ⟨?_, hs.settled, hs.noFile⟩
    simp only [htake, hempty, List.append_nil, hsent]
  · have hpos' : 0 < (BitVec.ofNat 64 m.len - BitVec.ofNat 64 n).toNat := by
      rwa [remain_count hn]
    obtain ⟨hout, hacc, hsnt, hfr, hfile⟩ := t.bufferRest_pos m (BitVec.ofNat 64 n) hpos'
    -- what was taken and what is buffered make up the message
    refine ⟨?_, ?_, ?_⟩
    · rw [hout, hacc, hsnt, remain_count hn, read_rest hn]
      subst ht
      simp only [hempty, List.nil_append, List.append_assoc, List.take_append_drop, hsent]
    · rw [hfr]
      subst ht
      exact hs.settled
    · rw [hfile]
      subst ht
      exact hs.noFile

/-- A message that is not written at all is buffered behind what is waiting. -/
theorem Intact.bufferAll {s t : Sender} (hs : s.Intact) {m : Message}
    (ht : t = { s with sent := s.sent ++ m.bytes }) :
    (t.bufferRest m 0 (BitVec.ofNat 64 m.len) false).Intact := by
  have hlen : (BitVec.ofNat 64 m.len).toNat = m.len := by
    have := m.len_lt
    rw [BitVec.toNat_ofNat]
    omega
  rcases Nat.eq_zero_or_pos m.len with hzero | hpos
  · have hbytes : m.bytes = [] := by rw [Message.bytes, hzero, Memory.read_zero]
    -- an empty message leaves the buffer and the write interest as they are
    rw [bufferRest_zero _ _ _ (BitVec.eq_of_toNat_eq (by rw [hlen, hzero]; rfl))]
    subst ht
    exact ⟨by simpa [hbytes] using hs.stream, hs.settled, hs.noFile⟩
  · obtain ⟨hout, hacc, hsnt, hfr, hfile⟩ := t.bufferRest_pos m 0 (hlen.symm ▸ hpos)
    refine ⟨?_, ?_, ?_⟩
    · have hbuf : m.buf + 0 = m.buf := by simp
      rw [hout, hacc, hsnt, hlen, hbuf]
      subst ht
      rw [← List.append_assoc, hs.stream]
      rfl
    · rw [hfr]
      subst ht
      exact hs.settled
    · rw [hfile]
      subst ht
      exact hs.noFile

/-- A direct write needs an empty buffer. -/
theorem DirectWrite.bytes_eq {s : Sender} (h : s.DirectWrite) : s.conn.outputBuffer.bytes = [] := by
  rw [← List.length_eq_zero_iff, ← ByteBuffer.readableBytes_eq]
  exact h.2.2

/-- `send` keeps the stream intact, unless it writes to the socket itself and the write fails. -/
theorem Intact.send {s t : Sender} (hs : s.Intact) {m : Message} {r : Written}
    (hr : s.DirectWrite → ∃ n, r = .count n) (h : s.send m r = some t) : t.Intact := by
  by_cases hstate : s.conn.state = .kConnected
  · by_cases hdirect : s.DirectWrite
    · -- the message is written to the socket
      obtain ⟨n, rfl⟩ := hr hdirect
      rw [send_direct hdirect] at h
      obtain ⟨u, hu, rfl⟩ := Option.map_eq_some_iff.mp h
      obtain ⟨hn, hu⟩ := accept_eq_some.mp hu
      rw [length_bytes] at hn
      have hrest := hs.bufferRest hn hdirect.bytes_eq hu
      -- before the callback the call has nothing left, so it is as if it had ended
      by_cases hcb : BitVec.ofNat 64 m.len - BitVec.ofNat 64 n = 0 ∧
          u.conn.writeCompleteCallback = true
      · rw [Written.toSize, if_pos hcb]
        rw [Written.taken, bufferRest_zero _ _ _ hcb.1] at hrest
        exact hrest.callback hcb.1
      · rw [Written.toSize, if_neg hcb]
        exact hrest
    · -- the message goes behind what is pending
      rw [send_buffered hstate hdirect, Option.some_inj] at h
      exact h ▸ hs.bufferAll rfl
  · rw [Sender.send, if_neg hstate, Option.some_inj] at h
    exact h ▸ hs

/-- `handleWrite` keeps the stream intact. -/
theorem Intact.handleWrite {s t : Sender} (hs : s.Intact) {r : Written}
    (h : s.handleWrite r = some t) : t.Intact := by
  rw [Sender.handleWrite, hs.noFile] at h
  split_ifs at h
  obtain ⟨hacc, hout, hsnt, hfile, hframes⟩ := handleWriteBuffer_spec h
  refine ⟨?_, ?_, hfile.trans hs.noFile⟩
  · rw [hacc, hout, hsnt, List.append_assoc, List.take_append_drop, hs.stream]
  · rcases hframes with hfr | hfr <;> rw [hfr]
    · exact hs.settled
    · exact List.forall_mem_cons.mpr ⟨trivial, hs.settled⟩

/-- The actions under which the stream stays intact. -/
def Allowed (s : Sender) : Action → Prop
  | .send _ r => s.DirectWrite → ∃ n, r = .count n
  | .sendFile .. => False
  | _ => True

/-- **One action.** -/
theorem Intact.step {s t : Sender} (hs : s.Intact) {a : Action} (ha : s.Allowed a)
    (h : s.step a = some t) : t.Intact := by
  cases a with
  | send m r => exact hs.send ha h
  | sendFile => exact absurd ha id
  | setWriteCompleteCallback on =>
    cases h
    exact ⟨hs.stream, hs.settled, hs.noFile⟩
  | handleWrite r =>
    rw [Sender.step] at h
    split_ifs at h with hf
    exact hs.handleWrite h
  | callbackReturns =>
    rw [Sender.step] at h
    cases hfr : s.frames with
    | nil =>
      rw [hfr] at h
      cases h
    | cons f frames =>
      rw [hfr] at h
      cases h
      -- the innermost call goes on, and has nothing left to do
      have hset := hs.settled
      rw [hfr] at hset
      have hf := hset f List.mem_cons_self
      have hrest : Intact { s with frames := frames } :=
        ⟨hs.stream, fun g hg => hset g (List.mem_cons_of_mem _ hg), hs.noFile⟩
      cases f with
      | sendInLoop m nwrote remain faultError =>
        rw [resume, bufferRest_zero _ _ _ hf]
        exact hrest
      | sendFileInLoop => exact absurd hf id
      | handleWrite => exact hrest

/-- **A whole run.** -/
theorem intact_exec {callback : Bool} {as : List Action} {s : Sender}
    (hg : Guarded step Allowed (established callback) as)
    (h : exec step (established callback) as = some s) : s.Intact :=
  exec_invariant (intact_established callback) (fun _ _ _ hs ha hstep => hs.step ha hstep) hg h

/-! ## A direct write that fails -/

/-- **A failed direct write invents a byte.** The message is buffered with the byte in front of it,
whatever the error. -/
theorem send_failed {s : Sender} (hs : s.DirectWrite) (m : Message) (e : Errno) :
    ∃ t, s.send m (.failed e) = some t ∧ t.accepted = s.accepted ∧ t.sent = s.sent ++ m.bytes ∧
      t.conn.outputBuffer.bytes = m.mem.read (m.buf + -1) (m.len + 1) := by
  -- `remain` is `len + 1`, so the end of the call buffers, and no callback runs
  have hpos : 0 < (BitVec.ofNat 64 m.len - (-1 : BitVec 64)).toNat := by
    rw [remain_failed]
    exact Nat.succ_pos _
  have hne : ¬BitVec.ofNat 64 m.len - (-1 : BitVec 64) = 0 := by
    intro hzero
    rw [hzero] at hpos
    exact absurd hpos (by decide)
  obtain ⟨hout, hacc, hsnt, -, -⟩ :=
    ({ s with sent := s.sent ++ m.bytes } : Sender).bufferRest_pos m (-1) hpos
  refine ⟨_, ?_, hacc, hsnt, ?_⟩
  · rw [send_direct hs, accept, if_pos (by exact Nat.zero_le _), Option.map_some]
    simp only [Written.toSize, Written.taken, List.take_zero, List.append_nil, hne, false_and,
      if_false]
  · rw [hout, hs.bytes_eq, List.nil_append, remain_failed]

/-! ## Runs -/

/-- A `send` that writes to the socket itself gets `EPIPE` or `ECONNRESET`. -/
def SendFaults (s : Sender) : Action → Prop
  | .send _ r => s.DirectWrite ∧ r.isFault = true
  | _ => False

/-- The action calls `write`, which fails with `EPIPE` or `ECONNRESET`. -/
def WriteFaults (s : Sender) : Action → Prop
  | .send _ r => s.DirectWrite ∧ r.isFault = true
  | .handleWrite r => r.isFault = true
  | _ => False

/-- The `write` of a `send` fails. -/
def SendFails (s : Sender) : Action → Prop
  | .send _ r => s.DirectWrite ∧ ∃ e, r = .failed e
  | _ => False

/-- What sending promises of a run: the accepted bytes followed by the buffered ones are the
messages sent, as long as no `send` was cut off by `EPIPE` or `ECONNRESET`; and an action whose
`write` fails with one of these buffers nothing. `done` are the actions so far. -/
def StreamIntact (s₀ : Sender) (as : List Action) : Prop :=
  (∀ done, done <+: as → ∀ s, exec step s₀ done = some s →
    Guarded step (fun s a => ¬s.SendFaults a) s₀ done →
      s.accepted ++ s.conn.outputBuffer.bytes = s.sent) ∧
  ∀ done a, done ++ [a] <+: as → ∀ s t, exec step s₀ done = some s → s.step a = some t →
    s.WriteFaults a → t.conn.outputBuffer.bytes = s.conn.outputBuffer.bytes

/-- Runs without `sendFile` in which no direct write fails take allowed actions only. -/
theorem allowed_of_not_sendFails {s : Sender} {a : Action} (hfile : ∀ f r, a ≠ .sendFile f r)
    (h : ¬s.SendFails a) : s.Allowed a := by
  cases a with
  | send m r =>
    intro hdirect
    cases r with
    | count n => exact ⟨n, rfl⟩
    | failed e => exact absurd ⟨hdirect, e, rfl⟩ h
  | sendFile f r => exact absurd rfl (hfile f r)
  | setWriteCompleteCallback => trivial
  | handleWrite => trivial
  | callbackReturns => trivial

theorem guarded_allowed {s₀ : Sender} {as : List Action} (hfile : ∀ f r, .sendFile f r ∉ as)
    (h : Guarded step (fun s a => ¬s.SendFails a) s₀ as) : Guarded step Allowed s₀ as := by
  intro done a hd t ht
  refine allowed_of_not_sendFails ?_ (h done a hd t ht)
  rintro f r rfl
  exact hfile f r (hd.subset (List.mem_append_right _ List.mem_cons_self))

/-- A write that fails in `handleWrite` leaves the buffer alone. -/
theorem Intact.writeFaults {s t : Sender} (hs : s.Intact) {a : Action} (ha : ¬s.SendFails a)
    (h : s.step a = some t) (hf : s.WriteFaults a) :
    t.conn.outputBuffer.bytes = s.conn.outputBuffer.bytes := by
  cases a with
  | send m r =>
    cases r with
    | count n => exact absurd hf.2 (by simp [Written.isFault])
    | failed e => exact absurd ⟨hf.1, e, rfl⟩ ha
  | sendFile => exact absurd hf id
  | setWriteCompleteCallback => exact absurd hf id
  | callbackReturns => exact absurd hf id
  | handleWrite r =>
    rw [Sender.step, Sender.handleWrite, hs.noFile] at h
    split_ifs at h
    obtain ⟨-, hout, -, -, -⟩ := handleWriteBuffer_spec h
    cases r with
    | count n => exact absurd hf (by simp [WriteFaults, Written.isFault])
    | failed e => exact hout.trans List.drop_zero

/-- A run that keeps its promises has no failing direct write: it would be the first. -/
theorem not_sendFails_of_intact {callback : Bool} {as : List Action} {u : Sender}
    (hfile : ∀ f r, .sendFile f r ∉ as) (h : exec step (established callback) as = some u)
    (hP : StreamIntact (established callback) as) :
    Guarded step (fun s a => ¬s.SendFails a) (established callback) as := by
  induction as using List.reverseRecOn generalizing u with
  | nil => exact guarded_nil
  | append_singleton as a ih =>
    have hpre : as <+: as ++ [a] := List.prefix_append _ _
    obtain ⟨s, hs, hstep⟩ := exec_concat_eq_some.mp h
    have hg := ih (fun f r hm => hfile f r (List.mem_append_left _ hm)) hs
      ⟨fun done hd => hP.1 done (hd.trans hpre), fun done b hd => hP.2 done b (hd.trans hpre)⟩
    have hintact := intact_exec
      (guarded_allowed (fun f r hm => hfile f r (List.mem_append_left _ hm)) hg) hs
    refine hg.concat fun s' hs' hfail => ?_
    obtain rfl := Option.some.inj (hs.symm.trans hs')
    cases a with
    | send m r =>
      obtain ⟨hdirect, e, rfl⟩ := hfail
      obtain ⟨t, ht, hacc, hsnt, hout⟩ := send_failed hdirect m e
      obtain rfl := Option.some.inj (ht.symm.trans hstep)
      by_cases hfault : (Written.failed e).isFault = true
      · -- the fault should buffer nothing, and buffers the message
        have := hP.2 as _ List.prefix_rfl s t hs hstep ⟨hdirect, hfault⟩
        rw [hout, hdirect.bytes_eq] at this
        exact absurd (congrArg List.length this) (by simp)
      · -- the stream has one byte too many
        have hguard : Guarded step (fun s a => ¬s.SendFaults a) (established callback)
            (as ++ [.send m (.failed e)]) := by
          refine Guarded.concat (fun d b hd v hv hf => ?_) fun v _ hf => hfault hf.2
          cases b with
          | send m' r' =>
            cases r' with
            | count n => exact absurd hf.2 (by simp [Written.isFault])
            | failed e' => exact hg d _ hd v hv ⟨hf.1, e', rfl⟩
          | sendFile => exact hf
          | setWriteCompleteCallback => exact hf
          | handleWrite => exact hf
          | callbackReturns => exact hf
        have := hP.1 _ List.prefix_rfl t h hguard
        rw [hacc, hsnt, hout, ← hintact.stream, hdirect.bytes_eq, List.append_nil] at this
        have hlen := congrArg List.length (List.append_cancel_left this)
        rw [Memory.length_read, length_bytes] at hlen
        omega
    | sendFile => exact hfail
    | setWriteCompleteCallback => exact hfail
    | handleWrite => exact hfail
    | callbackReturns => exact hfail

/-- **When sending keeps the byte stream.** In every run of sends (also from inside the callback),
write events and callback changes on an established connection, without `sendFile`: the stream is
intact after every action, and faults buffer nothing, if and only if no `write` that `sendInLoop`
makes itself fails. -/
theorem streamIntact_iff {callback : Bool} {as : List Action} {u : Sender}
    (hfile : ∀ f r, .sendFile f r ∉ as) (h : exec step (established callback) as = some u) :
    StreamIntact (established callback) as ↔
      Guarded step (fun s a => ¬s.SendFails a) (established callback) as := by
  refine ⟨not_sendFails_of_intact hfile h, fun hg => ?_⟩
  have hall := guarded_allowed hfile hg
  refine ⟨fun done hd s hs _ => (intact_exec (hall.of_done hd) hs).stream, ?_⟩
  intro done a hd s t hs hstep hf
  have hd' := (List.prefix_append done [a]).trans hd
  exact (intact_exec (hall.of_done hd') hs).writeFaults (hg done a hd s hs) hstep hf

/-- The five bytes `abcde`, in a memory where each address holds its low byte. -/
def abcde : Message := ⟨fun p => UInt8.ofNat p.toNat, 97, 5, by decide⟩

/-- A short write, the rest of the message in a write event, and the callback. -/
theorem streamIntact_abcde : StreamIntact (established true)
    [.send abcde (.count 2), .handleWrite (.count 3), .callbackReturns] := by
  have hsome : (exec step (established true)
      [.send abcde (.count 2), .handleWrite (.count 3), .callbackReturns]).isSome = true := by
    decide +kernel
  obtain ⟨u, hu⟩ := Option.isSome_iff_exists.mp hsome
  refine (streamIntact_iff (by simp) hu).mpr fun done a hd t _ => ?_
  have ha := hd.subset (List.mem_append_right _ List.mem_cons_self)
  simp only [List.mem_cons, List.not_mem_nil, or_false] at ha
  rcases ha with rfl | rfl | rfl <;> simp [SendFails]

/-- **`EAGAIN` on the first `write` of a message**: six bytes are buffered for five. -/
theorem not_streamIntact_eagain :
    ¬∀ (callback : Bool) (as : List Action) (u : Sender), (∀ f r, .sendFile f r ∉ as) →
      exec step (established callback) as = some u → StreamIntact (established callback) as := by
  intro hall
  have hdirect : (established false).DirectWrite := by decide +kernel
  obtain ⟨t, ht, hacc, hsnt, hout⟩ := send_failed hdirect abcde .EAGAIN
  have hrun : exec step (established false) [.send abcde (.failed .EAGAIN)] = some t := by
    rw [exec_cons, show step (established false) (.send abcde (.failed .EAGAIN)) = some t from ht]
    rfl
  have hP := hall false _ t (by simp) hrun
  have hstream := hP.1 _ List.prefix_rfl t hrun fun done a hd s _ hf => by
    have ha := hd.subset (List.mem_append_right _ List.mem_cons_self)
    rw [List.mem_singleton] at ha
    subst ha
    exact absurd hf.2 (by decide)
  rw [hacc, hsnt, hout] at hstream
  exact absurd (congrArg List.length hstream) (by simp [abcde, established])

end Sender

end Net

end Muduo
