import Muduo.Net.TcpSend

/-! # Pending output is watched

Output is pending in two places: `outputBuffer_` and `file_`. `Sender.Watched` says that the channel
has write interest exactly while something is pending. `sendInLoop` and `sendFileInLoop` keep this,
and so does `handleWrite` on buffered bytes. `handleWrite` on a file turns write interest off once
the file is written and does not look at the buffer: what was buffered before or behind the file is
then left there.

`Sends`, `SendsFile` and `Writes` say once what `send`, `sendFile` and `handleWrite` can do.
`watched_iff` states that a file that is finished in front of buffered bytes is the only way in
which pending output is not watched. -/

namespace Muduo

namespace Net

/-- What a call that waits for its callback still has to buffer or to keep. -/
def Frame.remain : Frame → BitVec 64
  | .sendInLoop _ _ remain _ => remain
  | .sendFileInLoop _ remain _ => remain
  | .handleWrite => 0

namespace Sender

variable {s t : Sender}

/-- The output of a connection: what is accepted, and what is buffered. -/
def stream (s : Sender) : Bytes := s.accepted ++ s.conn.outputBuffer.bytes

/-! ## What the calls can do -/

/-- Call `writeCompleteCallback_`, if it is set. -/
def complete (s : Sender) (f : Frame) : Sender :=
  if s.conn.writeCompleteCallback = true then s.callback f else s

/-- Append to `outputBuffer_` and turn write interest on. -/
def buffer (s : Sender) (data : Bytes) : Sender :=
  enableWriting { s with conn := { s.conn with outputBuffer := s.conn.outputBuffer.append data } }

/-- Set `file_` and turn write interest on. -/
def keep (s : Sender) (file : File) : Sender :=
  enableWriting { s with conn := { s.conn with file := some file } }

@[simp] theorem complete_conn (s : Sender) (f : Frame) : (s.complete f).conn = s.conn := by
  rw [complete]
  split_ifs <;> rfl

@[simp] theorem complete_accepted (s : Sender) (f : Frame) :
    (s.complete f).accepted = s.accepted := by
  rw [complete]
  split_ifs <;> rfl

@[simp] theorem complete_stream (s : Sender) (f : Frame) : (s.complete f).stream = s.stream := by
  rw [stream, complete_accepted, complete_conn, stream]

/-- The callback is called once, if it is set. -/
theorem length_frames_complete (s : Sender) (f : Frame) : (s.complete f).frames.length =
    s.frames.length + if s.conn.writeCompleteCallback = true then 1 else 0 := by
  rw [complete]
  split_ifs <;> rfl

@[simp] theorem buffer_bytes (s : Sender) (data : Bytes) :
    (s.buffer data).conn.outputBuffer.bytes = s.conn.outputBuffer.bytes ++ data :=
  ByteBuffer.bytes_append _ _

@[simp] theorem buffer_accepted (s : Sender) (data : Bytes) :
    (s.buffer data).accepted = s.accepted := rfl

@[simp] theorem keep_conn (s : Sender) (file : File) :
    (s.keep file).conn = { s.conn with file := some file, writing := true } := rfl

@[simp] theorem keep_frames (s : Sender) (file : File) : (s.keep file).frames = s.frames := rfl

/-- What is left of a message is buffered. -/
theorem bufferRest_of_pos (s : Sender) (m : Message) (nwrote : BitVec 64) {remain : BitVec 64}
    (h : 0 < remain.toNat) :
    s.bufferRest m nwrote remain false = s.buffer (m.mem.read (m.buf + nwrote) remain.toNat) := by
  rw [bufferRest, if_pos ⟨(remain_pos_iff _).mpr h, rfl⟩]
  rfl

/-- Nothing is left of a file: the call just ends. -/
theorem keepFile_zero (s : Sender) (file : File) {remain : BitVec 64} (h : remain = 0)
    (faultError : Bool) : s.keepFile file remain faultError = s := by
  rw [keepFile, if_neg]
  rintro ⟨hpos, -⟩
  rw [h] at hpos
  exact absurd hpos (by decide)

theorem pos_of_ne_zero {b : BitVec 64} (h : b ≠ 0) : 0 < b.toNat := by
  rw [Nat.pos_iff_ne_zero]
  exact fun h0 => h (BitVec.eq_of_toNat_eq h0)

/-- What is left of a file is kept. -/
theorem keepFile_of_ne (s : Sender) (file : File) {remain : BitVec 64} (h : remain ≠ 0) :
    s.keepFile file remain false = s.keep file := by
  rw [keepFile, if_pos ⟨(remain_pos_iff _).mpr (pos_of_ne_zero h), rfl⟩]
  rfl

/-- **What `send` can do.** -/
inductive Sends (s : Sender) (m : Message) : Written → Sender → Prop
  /-- Not in state `kConnected`. -/
  | dropped (r : Written) : s.conn.state ≠ .kConnected → Sends s m r s
  /-- All of the message is written. -/
  | whole (f : Frame) : s.DirectWrite → f.remain = 0 → Sends s m (.count m.len)
      ({ s with sent := s.sent ++ m.bytes, accepted := s.accepted ++ m.bytes }.complete f)
  /-- A part of the message is written, the rest is buffered. -/
  | part (n : ℕ) : s.DirectWrite → n < m.len → Sends s m (.count n)
      ({ s with sent := s.sent ++ m.bytes, accepted := s.accepted ++ m.bytes.take n }.buffer
        (m.bytes.drop n))
  /-- The write fails, and one byte too many is buffered. -/
  | failed (e : Errno) : s.DirectWrite → Sends s m (.failed e)
      ({ s with sent := s.sent ++ m.bytes }.buffer (m.mem.read (m.buf + -1) (m.len + 1)))
  /-- The message is buffered behind pending output. -/
  | behind (r : Written) : s.conn.state = .kConnected → ¬ s.DirectWrite → 0 < m.len →
      Sends s m r ({ s with sent := s.sent ++ m.bytes }.buffer m.bytes)
  /-- Behind pending output, an empty message leaves everything as it is. -/
  | empty (r : Written) : s.conn.state = .kConnected → ¬ s.DirectWrite → m.len = 0 →
      Sends s m r { s with sent := s.sent ++ m.bytes }

theorem length_toNat (m : Message) : (BitVec.ofNat 64 m.len).toNat = m.len := by
  have := m.len_lt
  rw [BitVec.toNat_ofNat]
  omega

theorem sends_direct {m : Message} {r : Written} (hs : s.DirectWrite) (h : s.send m r = some t) :
    Sends s m r t := by
  rw [send_direct hs] at h
  obtain ⟨u, hu, rfl⟩ := Option.map_eq_some_iff.mp h
  obtain ⟨hle, rfl⟩ := accept_eq_some.mp hu
  cases r with
  | failed e =>
    have hne : ¬BitVec.ofNat 64 m.len - (-1 : BitVec 64) = 0 := fun h0 =>
      absurd ((remain_failed m).symm.trans (congrArg BitVec.toNat h0)) (Nat.succ_ne_zero _)
    have hpos := pos_of_ne_zero hne
    rw [Written.toSize, if_neg (fun h0 => hne h0.1), bufferRest_of_pos _ _ _ hpos, remain_failed]
    simpa only [Written.taken, List.take_zero, List.append_nil] using Sends.failed e hs
  | count n =>
    rw [Written.taken, length_bytes] at hle
    rcases hle.eq_or_lt with rfl | hlt
    · -- everything was taken
      have hrem : BitVec.ofNat 64 m.len - BitVec.ofNat 64 m.len = 0 := BitVec.sub_self _
      have hall : m.bytes.take m.len = m.bytes :=
        List.take_of_length_le (length_bytes m).le
      simp only [Written.toSize, Written.taken, hrem, true_and, hall]
      rw [bufferRest_zero _ _ _ rfl]
      exact Sends.whole (.sendInLoop m (BitVec.ofNat 64 m.len) 0 false) hs rfl
    · have hrem := remain_count hlt.le
      have hne : ¬BitVec.ofNat 64 m.len - BitVec.ofNat 64 n = 0 := fun h0 => by
        rw [h0] at hrem
        exact absurd hrem (by simp; omega)
      rw [Written.toSize, if_neg (fun h0 => hne h0.1), bufferRest_of_pos _ _ _ (pos_of_ne_zero hne),
        hrem, read_rest hlt.le]
      exact Sends.part n hs hlt

/-- `send` does nothing else. -/
theorem sends {m : Message} {r : Written} (h : s.send m r = some t) : Sends s m r t := by
  by_cases hstate : s.conn.state = .kConnected
  · by_cases hdirect : s.DirectWrite
    · exact sends_direct hdirect h
    · rw [send_buffered hstate hdirect, Option.some_inj] at h
      subst h
      rcases Nat.eq_zero_or_pos m.len with hzero | hpos
      · rw [bufferRest_zero _ _ _ (BitVec.eq_of_toNat_eq (by rw [length_toNat, hzero]; rfl))]
        exact Sends.empty r hstate hdirect hzero
      · rw [bufferRest_of_pos _ _ _ ((length_toNat m).symm ▸ hpos), length_toNat]
        have hbuf : m.buf + 0 = m.buf := by simp
        rw [hbuf]
        exact Sends.behind r hstate hdirect hpos
  · rw [send, if_neg hstate, Option.some_inj] at h
    exact h ▸ Sends.dropped r hstate

/-- **What `sendFile` can do**, where no file is being sent. -/
inductive SendsFile (s : Sender) (file : File) (r : Written) : Sender → Prop
  /-- Not in state `kConnected`. -/
  | dropped : s.conn.state ≠ .kConnected → SendsFile s file r s
  /-- The file could not be opened. -/
  | unopened : s.conn.file = none → file.fd < 0 →
      SendsFile s file r { s with conn := { s.conn with fileWrote := 0 } }
  /-- All of the file is written. -/
  | whole (f : Frame) : s.conn.file = none → 0 ≤ file.fd → s.DirectWrite →
      r.taken ≤ (file.unread.take file.fileSize.toNat).length → file.fileSize = r.toSize →
      f.remain = 0 → SendsFile s file r
        ({ s with
            conn := { s.conn with fileWrote := 0 }
            accepted := s.accepted ++ (file.unread.take file.fileSize.toNat).take r.taken }.complete f)
  /-- Not all of the file is written, or `sendfile` fails. -/
  | part : s.conn.file = none → 0 ≤ file.fd → s.DirectWrite →
      r.taken ≤ (file.unread.take file.fileSize.toNat).length → file.fileSize ≠ r.toSize →
      SendsFile s file r
        ({ s with
            conn := { s.conn with fileWrote := r.toSize }
            accepted := s.accepted ++ (file.unread.take file.fileSize.toNat).take r.taken }.keep
          { file with unread := file.unread.drop r.taken })
  /-- The file is kept, with pending output. -/
  | behind : s.conn.file = none → 0 ≤ file.fd → s.conn.state = .kConnected →
      ¬ s.DirectWrite → file.fileSize ≠ 0 →
      SendsFile s file r ({ s with conn := { s.conn with fileWrote := 0 } }.keep file)
  /-- With pending output, an empty file leaves everything as it is. -/
  | empty : s.conn.file = none → 0 ≤ file.fd → s.conn.state = .kConnected →
      ¬ s.DirectWrite → file.fileSize = 0 →
      SendsFile s file r { s with conn := { s.conn with fileWrote := 0 } }

/-- `sendFile` does nothing else. -/
theorem sendsFile {file : File} {r : Written} (h : s.sendFile file r = some t) :
    SendsFile s file r t := by
  rw [Sender.sendFile] at h
  by_cases hstate : s.conn.state = .kConnected
  · rw [if_pos hstate, sendFileInLoop] at h
    by_cases hfile : s.conn.file.isSome = true
    · rw [if_pos hfile] at h
      cases h
    · rw [if_neg hfile] at h
      have hnone : s.conn.file = none := by simpa using hfile
      by_cases hfd : file.fd < 0
      · rw [if_pos hfd] at h
        cases h
        exact .unopened hnone hfd
      · rw [if_neg hfd] at h
        have hopen : 0 ≤ file.fd := Int.not_lt.mp hfd
        by_cases hdirect : s.conn.writing = false ∧ s.conn.outputBuffer.readableBytes = 0
        · -- `sendfile` is called at once
          rw [if_pos hdirect] at h
          obtain ⟨u, hu, rfl⟩ := Option.map_eq_some_iff.mp h
          obtain ⟨hle, rfl⟩ := accept_eq_some.mp hu
          have hd : s.DirectWrite := ⟨hstate, hdirect⟩
          by_cases hrem : file.fileSize - r.toSize = 0
          · simp only [hrem, if_true, true_and]
            rw [keepFile_zero _ _ rfl]
            exact .whole (.sendFileInLoop _ 0 false) hnone hopen hd hle
              (BitVec.sub_eq_iff_eq_add.mp hrem |>.trans (BitVec.zero_add _)) rfl
          · simp only [hrem, if_false, false_and]
            rw [keepFile_of_ne _ _ hrem]
            exact .part hnone hopen hd hle fun heq => hrem (heq ▸ BitVec.sub_self _)
        · rw [if_neg hdirect, Option.some_inj] at h
          subst h
          have hd : ¬ s.DirectWrite := fun hd => hdirect hd.2
          by_cases hzero : file.fileSize = 0
          · rw [keepFile_zero _ _ hzero]
            exact .empty hnone hopen hstate hd hzero
          · rw [keepFile_of_ne _ _ hzero]
            exact .behind hnone hopen hstate hd hzero
  · rw [if_neg hstate, Option.some_inj] at h
    exact h ▸ .dropped hstate

/-- **What `handleWrite` can do.** -/
inductive Writes (s : Sender) (r : Written) : Sender → Prop
  /-- The file is taken to be finished. -/
  | finished (file : File) (f : Frame) : s.conn.writing = true →
      s.conn.file = some file → s.conn.fileWrote + r.toSize = file.fileSize → f.remain = 0 →
      Writes s r
        ({ s with conn := { s.conn with writing := false, file := none, fileWrote := 0 } }.complete f)
  /-- The file goes on. -/
  | unfinished (file : File) : s.conn.writing = true → s.conn.file = some file →
      s.conn.fileWrote + r.toSize ≠ file.fileSize →
      Writes s r { s with conn := { s.conn with fileWrote := s.conn.fileWrote + r.toSize } }
  /-- All the buffered bytes are written. -/
  | flushed (b : ByteBuffer) (f : Frame) : s.conn.writing = true →
      s.conn.file = none → 0 < r.taken → r.taken = s.conn.outputBuffer.bytes.length → b.bytes = [] →
      f.remain = 0 → Writes s r
        ({ s with
            conn := { s.conn with outputBuffer := b, writing := false }
            accepted := s.accepted ++ s.conn.outputBuffer.bytes }.complete f)
  /-- Some of the buffered bytes are written. -/
  | part (b : ByteBuffer) : s.conn.writing = true → s.conn.file = none →
      0 < r.taken → r.taken < s.conn.outputBuffer.bytes.length →
      b.bytes = s.conn.outputBuffer.bytes.drop r.taken →
      Writes s r { s with
        conn := { s.conn with outputBuffer := b }
        accepted := s.accepted ++ s.conn.outputBuffer.bytes.take r.taken }
  /-- No buffered byte is written. -/
  | stalled : s.conn.writing = true → s.conn.file = none → r.taken = 0 → Writes s r s

/-- `handleWrite` does nothing else. -/
theorem writes {r : Written} (h : s.handleWrite r = some t) : Writes s r t := by
  rw [handleWrite] at h
  by_cases hw : s.conn.writing = true
  · rw [if_pos hw] at h
    cases hfile : s.conn.file with
    | some file =>
      rw [hfile] at h
      simp only [Option.some_inj] at h
      rw [handleWriteFile] at h
      by_cases hdone : s.conn.fileWrote + r.toSize = file.fileSize
      · rw [if_pos hdone] at h
        exact h ▸ .finished file .handleWrite hw hfile hdone rfl
      · rw [if_neg hdone] at h
        exact h ▸ .unfinished file hw hfile hdone
    | none =>
      rw [hfile] at h
      simp only [handleWriteBuffer] at h
      obtain ⟨u, hu, rfl⟩ := Option.map_eq_some_iff.mp h
      obtain ⟨hle, rfl⟩ := accept_eq_some.mp hu
      have hb := ByteBuffer.bytes_retrieve s.conn.outputBuffer r.taken
      by_cases hpos : 0 < r.taken
      · simp only [gt_iff_lt, hpos, if_true]
        rcases hle.eq_or_lt with heq | hlt
        · have hnil : (s.conn.outputBuffer.retrieve r.taken).bytes = [] := by
            rw [hb, heq, List.drop_length]
          have hzero : (s.conn.outputBuffer.retrieve r.taken).readableBytes = 0 := by
            rw [ByteBuffer.readableBytes_eq, hnil, List.length_nil]
          rw [if_pos hzero, heq, List.take_length]
          exact .flushed _ .handleWrite hw hfile hpos heq (heq ▸ hnil) rfl
        · have hne : ¬ (s.conn.outputBuffer.retrieve r.taken).readableBytes = 0 := by
            rw [ByteBuffer.readableBytes_eq, hb, List.length_drop]
            omega
          rw [if_neg hne]
          exact .part _ hw hfile hpos hlt hb
      · have hzero : r.taken = 0 := by omega
        simp only [gt_iff_lt, hzero, lt_irrefl, if_false, List.take_zero, List.append_nil]
        exact .stalled hw hfile hzero
  · rw [if_neg hw] at h
    cases h

/-! ## How the calls end -/

/-- A call leaves the state and the callback as they are. If it calls the callback, it has nothing
left to do. -/
structure Ends (s t : Sender) : Prop where
  state : t.conn.state = s.conn.state
  callback : t.conn.writeCompleteCallback = s.conn.writeCompleteCallback
  frames : t.frames = s.frames ∨ ∃ u f, t = complete u f ∧ u.frames = s.frames ∧ f.remain = 0

theorem ends_complete {u : Sender} {f : Frame} (hstate : u.conn.state = s.conn.state)
    (hcallback : u.conn.writeCompleteCallback = s.conn.writeCompleteCallback)
    (hframes : u.frames = s.frames) (hf : f.remain = 0) : s.Ends (u.complete f) :=
  ⟨by rw [complete_conn, hstate], by rw [complete_conn, hcallback], .inr ⟨u, f, rfl, hframes, hf⟩⟩

theorem ends_send {m : Message} {r : Written} (h : s.send m r = some t) : s.Ends t := by
  cases sends h with
  | whole f _ hf => exact ends_complete rfl rfl rfl hf
  | _ => exact ⟨rfl, rfl, .inl rfl⟩

theorem ends_sendFile {file : File} {r : Written} (h : s.sendFile file r = some t) : s.Ends t := by
  cases sendsFile h with
  | whole f _ _ _ _ _ hf => exact ends_complete rfl rfl rfl hf
  | _ => exact ⟨rfl, rfl, .inl rfl⟩

theorem ends_handleWrite {r : Written} (h : s.handleWrite r = some t) : s.Ends t := by
  cases writes h with
  | finished file f _ _ _ hf => exact ends_complete rfl rfl rfl hf
  | flushed b f _ _ _ _ _ hf => exact ends_complete rfl rfl rfl hf
  | _ => exact ⟨rfl, rfl, .inl rfl⟩

/-! ## The calls inside which the callback runs -/

/-- A call that waits for its callback has nothing left to do. -/
def Spent (s : Sender) : Prop := ∀ f ∈ s.frames, f.remain = 0

theorem spent_established (callback : Bool) : (established callback).Spent := by
  simp [Spent, established]

theorem resume_of_remain {f : Frame} (h : f.remain = 0) : s.resume f = s := by
  cases f with
  | sendInLoop m nwrote remain faultError => exact bufferRest_zero s m nwrote h faultError
  | sendFileInLoop file remain faultError => exact keepFile_zero s file h faultError
  | handleWrite => rfl

/-- The callback returns to a call that has nothing left to do. -/
theorem step_callbackReturns {f : Frame} {frames : List Frame} (hs : s.frames = f :: frames)
    (hf : f.remain = 0) : s.step .callbackReturns = some { s with frames := frames } := by
  rw [step, hs]
  simp only [resume_of_remain hf]

theorem Spent.complete (h : s.Spent) {u : Sender} (hu : u.frames = s.frames) {f : Frame}
    (hf : f.remain = 0) : (u.complete f).Spent := by
  rw [Spent, ← hu] at h
  rw [Sender.complete]
  split_ifs
  · exact fun g hg => (List.mem_cons.mp hg).elim (fun e => e ▸ hf) (h g)
  · exact h

/-- The callback returns to a call that just ends. -/
theorem Spent.callbackReturns (h : s.Spent) (hs : s.step .callbackReturns = some t) :
    ∃ f, s.frames = f :: t.frames ∧ t = { s with frames := t.frames } := by
  cases hf : s.frames with
  | nil =>
    rw [Sender.step, hf] at hs
    cases hs
  | cons f frames =>
    rw [step_callbackReturns hf (h f (hf ▸ List.mem_cons_self)), Option.some_inj] at hs
    subst hs
    exact ⟨f, rfl, rfl⟩

theorem Ends.spent (hends : s.Ends t) (h : s.Spent) : t.Spent := by
  rcases hends.frames with hframes | ⟨u, f, rfl, hu, hf⟩
  · rwa [Spent, hframes]
  · exact h.complete hu hf

/-- Every action keeps this. -/
theorem Spent.step (h : s.Spent) {a : Action} (hs : s.step a = some t) : t.Spent := by
  cases a with
  | send m r => exact (ends_send hs).spent h
  | sendFile file r => exact (ends_sendFile hs).spent h
  | setWriteCompleteCallback on =>
    cases hs
    exact h
  | handleWrite r =>
    rw [Sender.step] at hs
    split_ifs at hs
    exact (ends_handleWrite hs).spent h
  | callbackReturns =>
    obtain ⟨f, hf, -⟩ := h.callbackReturns hs
    exact fun g hg => h g (hf ▸ List.mem_cons_of_mem f hg)

/-! ## Pending output -/

/-- Buffered bytes or a file are waiting. -/
def Pending (s : Sender) : Prop := s.conn.outputBuffer.bytes ≠ [] ∨ s.conn.file ≠ none

/-- Write interest is on exactly while something is pending. -/
def Watched (s : Sender) : Prop := s.Pending ↔ s.conn.writing = true

/-- If the callback is called in this action, nothing is pending by then. -/
def CallsWhenDone (s : Sender) (_ : Action) (t : Sender) : Prop :=
  s.frames.length < t.frames.length → ¬ t.Pending

theorem watched_established (callback : Bool) : (established callback).Watched := by
  simp [Watched, Pending, established]

/-- While write interest is off, nothing is pending. -/
theorem Watched.not_pending (h : s.Watched) (hw : s.conn.writing = false) : ¬ s.Pending := by
  rw [Watched, hw] at h
  exact fun hp => Bool.false_ne_true (h.mp hp)

/-- Bytes are buffered behind what is pending. -/
theorem watched_buffer (s : Sender) {data : Bytes} (h : data ≠ []) : (s.buffer data).Watched := by
  refine iff_of_true (.inl ?_) rfl
  rw [buffer_bytes]
  exact List.append_ne_nil_of_right_ne_nil _ h

/-- A file is kept. -/
theorem watched_keep (s : Sender) (file : File) : (s.keep file).Watched :=
  iff_of_true (.inr (Option.some_ne_none file)) rfl

/-- A message that is not empty has bytes. -/
theorem bytes_ne_nil {m : Message} (h : 0 < m.len) : m.bytes ≠ [] := by
  rw [← List.length_pos_iff, length_bytes]
  exact h

/-- What is written in part has a rest. -/
theorem drop_ne_nil {n : ℕ} {data : Bytes} (h : n < data.length) : data.drop n ≠ [] :=
  fun hnil => absurd (List.drop_eq_nil_iff.mp hnil) (Nat.not_le.mpr h)

/-- What a failed write leaves is not empty: it has one byte more than the message. -/
theorem shifted_ne_nil (m : Message) : m.mem.read (m.buf + -1) (m.len + 1) ≠ [] := by
  rw [← List.length_pos_iff, Memory.length_read]
  exact Nat.succ_pos _

/-- An action that does not call the callback. -/
theorem callsWhenDone_of_frames {a : Action} (h : t.frames = s.frames) : s.CallsWhenDone a t :=
  fun hlt => absurd hlt (by rw [h]; exact lt_irrefl _)

/-- `send` keeps pending output watched, and calls back when nothing is pending. -/
theorem Watched.send (h : s.Watched) {m : Message} {r : Written} (hs : s.send m r = some t) :
    t.Watched ∧ s.CallsWhenDone (.send m r) t := by
  cases sends hs with
  | dropped => exact ⟨h, callsWhenDone_of_frames rfl⟩
  | whole f hd =>
    -- the only case with a callback: a direct write finds write interest off
    have hp := h.not_pending hd.2.1
    simp only [Watched, CallsWhenDone, Pending, complete_conn]
    exact ⟨h, fun _ => hp⟩
  | part n hd hlt =>
    have hrest : m.bytes.drop n ≠ [] := drop_ne_nil (by rw [length_bytes]; exact hlt)
    exact ⟨watched_buffer _ hrest, callsWhenDone_of_frames rfl⟩
  | failed e hd => exact ⟨watched_buffer _ (shifted_ne_nil m), callsWhenDone_of_frames rfl⟩
  | behind _ _ _ hpos => exact ⟨watched_buffer _ (bytes_ne_nil hpos), callsWhenDone_of_frames rfl⟩
  | empty => exact ⟨h, callsWhenDone_of_frames rfl⟩

/-- `sendFile` keeps pending output watched, and calls back when nothing is pending. -/
theorem Watched.sendFile (h : s.Watched) {file : File} {r : Written}
    (hs : s.sendFile file r = some t) : t.Watched ∧ s.CallsWhenDone (.sendFile file r) t := by
  cases sendsFile hs with
  | dropped => exact ⟨h, callsWhenDone_of_frames rfl⟩
  | unopened => exact ⟨h, callsWhenDone_of_frames rfl⟩
  | whole f _ _ hd =>
    have hp := h.not_pending hd.2.1
    simp only [Watched, CallsWhenDone, Pending, complete_conn]
    exact ⟨h, fun _ => hp⟩
  | part => exact ⟨watched_keep _ _, callsWhenDone_of_frames rfl⟩
  | behind => exact ⟨watched_keep _ _, callsWhenDone_of_frames rfl⟩
  | empty => exact ⟨h, callsWhenDone_of_frames rfl⟩

/-- This write event finishes a file in front of buffered bytes. -/
def StrandsBuffer (s : Sender) (r : Written) : Prop :=
  ∃ file ∈ s.conn.file, s.conn.fileWrote + r.toSize = file.fileSize ∧
    s.conn.outputBuffer.bytes ≠ []

instance (s : Sender) (r : Written) : Decidable (s.StrandsBuffer r) :=
  inferInstanceAs (Decidable (∃ file ∈ s.conn.file, _ ∧ _))

/-- The actions that keep pending output watched. -/
def KeepsWatch (s : Sender) : Action → Prop
  | .handleWrite r => ¬ s.StrandsBuffer r
  | _ => True

instance (s : Sender) : ∀ a, Decidable (s.KeepsWatch a)
  | .handleWrite r => inferInstanceAs (Decidable (¬ s.StrandsBuffer r))
  | .send .. | .sendFile .. | .setWriteCompleteCallback _ | .callbackReturns =>
    inferInstanceAs (Decidable True)

/-- `handleWrite` keeps pending output watched and calls back when nothing is pending, exactly if it
does not strand the buffer. -/
theorem Watched.handleWrite_iff (h : s.Watched) {r : Written} (hs : s.handleWrite r = some t) :
    t.Watched ∧ s.CallsWhenDone (.handleWrite r) t ↔ ¬ s.StrandsBuffer r := by
  -- without a file there is nothing to finish
  have hnot (hfile : s.conn.file = none) : ¬ s.StrandsBuffer r := by
    rintro ⟨file, hmem, -⟩
    rw [hfile] at hmem
    cases hmem
  cases writes hs with
  | finished file f hw hfile hdone =>
    -- write interest is off now, and what is buffered decides
    have hstrand : s.StrandsBuffer r ↔ s.conn.outputBuffer.bytes ≠ [] :=
      ⟨fun ⟨_, _, _, hb⟩ => hb, fun hb => ⟨file, hfile, hdone, hb⟩⟩
    rw [hstrand, not_ne_iff]
    simp only [Watched, CallsWhenDone, Pending, complete_conn, ne_eq, not_true_eq_false, or_false,
      Bool.false_eq_true, iff_false, not_not]
    exact ⟨fun h => h.1, fun hb => ⟨hb, fun _ => hb⟩⟩
  | unfinished file hw hfile hne =>
    refine iff_of_true ⟨h, callsWhenDone_of_frames rfl⟩ ?_
    rintro ⟨g, hg, hdone, -⟩
    rw [hfile] at hg
    cases hg
    exact hne hdone
  | flushed b f hw hfile _ _ hb =>
    refine iff_of_true ?_ (hnot hfile)
    simp only [Watched, CallsWhenDone, Pending, complete_conn, hb, hfile]
    simp
  | part b hw hfile hpos hlt hb =>
    have hrest : b.bytes ≠ [] := hb ▸ drop_ne_nil hlt
    exact iff_of_true ⟨iff_of_true (.inl hrest) hw, callsWhenDone_of_frames rfl⟩ (hnot hfile)
  | stalled hw hfile => exact iff_of_true ⟨h, callsWhenDone_of_frames rfl⟩ (hnot hfile)

/-- **One action** keeps pending output watched, and calls back when nothing is pending, exactly if
it does not strand the buffer. -/
theorem Watched.step_iff (hspent : s.Spent) (h : s.Watched) {a : Action} (hs : s.step a = some t) :
    t.Watched ∧ s.CallsWhenDone a t ↔ s.KeepsWatch a := by
  cases a with
  | send m r => exact iff_of_true (h.send hs) trivial
  | sendFile file r => exact iff_of_true (h.sendFile hs) trivial
  | setWriteCompleteCallback on =>
    cases hs
    exact iff_of_true ⟨h, callsWhenDone_of_frames rfl⟩ trivial
  | handleWrite r =>
    rw [Sender.step] at hs
    split_ifs at hs
    exact h.handleWrite_iff hs
  | callbackReturns =>
    obtain ⟨f, hf, ht⟩ := hspent.callbackReturns hs
    refine iff_of_true ⟨?_, fun hlt => ?_⟩ trivial
    · rw [ht]
      exact h
    · -- a call is left, and none is entered
      rw [hf, List.length_cons] at hlt
      omega

/-- **When pending output is watched.** In a run of `send`, `sendFile` and write events, with any
results of the kernel, and with calls from inside the callback: after every action write interest is
on if and only if buffered bytes or a file are pending, and the callback is called with nothing
pending only, if and only if no write event finishes a file in front of buffered bytes. -/
theorem watched_iff {callback : Bool} {as : List Action}
    (h : Runs.exec step (established callback) as = some s) :
    Runs.Always step Watched (established callback) as ∧
        Runs.Each step CallsWhenDone (established callback) as ↔
      Runs.Guarded step KeepsWatch (established callback) as :=
  Runs.always_each_iff_guarded (spent_established callback) (watched_established callback)
    (fun _ _ _ ht hs => ht.step hs) (fun _ _ _ hspent hw hs => hw.step_iff hspent hs) h

/-- A file of three bytes. -/
def threeBytes : File := ⟨5, 3, ascii "xyz"⟩

/-- The theorem at work: a message is written in two parts, and then a file in two parts. -/
theorem watched_iff_two : ∃ s : Sender,
    Runs.exec step (established true) [.send abcde (.count 2), .handleWrite (.count 3),
      .callbackReturns, .sendFile threeBytes (.count 1), .handleWrite (.count 2),
      .callbackReturns] = some s ∧
    Runs.Always step Watched (established true) [.send abcde (.count 2), .handleWrite (.count 3),
      .callbackReturns, .sendFile threeBytes (.count 1), .handleWrite (.count 2),
      .callbackReturns] := by
  have hsome : (Runs.exec step (established true) [.send abcde (.count 2), .handleWrite (.count 3),
      .callbackReturns, .sendFile threeBytes (.count 1), .handleWrite (.count 2),
      .callbackReturns]).isSome = true := by decide +kernel
  obtain ⟨s, hs⟩ := Option.isSome_iff_exists.mp hsome
  exact ⟨s, hs, ((watched_iff hs).mpr (by decide +kernel)).1⟩

/-- **A file behind buffered bytes**: the write event that finishes the file turns write interest
off while three bytes are left in the buffer. -/
theorem not_watched : ¬ ∀ (callback : Bool) (as : List Action) (s : Sender),
    Runs.exec step (established callback) as = some s → s.Watched := by
  intro hall
  have hrun : (Runs.exec step (established false) [.send abcde (.count 2),
      .sendFile threeBytes (.count 0), .handleWrite (.count 3)]).map
      (fun s => (s.conn.outputBuffer.bytes, s.conn.writing)) = some (ascii "cde", false) := by
    decide +kernel
  obtain ⟨s, hs, hobs⟩ := Option.map_eq_some_iff.mp hrun
  obtain ⟨hbytes, hwriting⟩ := Prod.mk.inj hobs
  refine (hall false _ s hs).not_pending hwriting (.inl ?_)
  rw [hbytes]
  decide

end Sender

end Net

end Muduo
