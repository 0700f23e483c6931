import Muduo.Net.TcpOutput

/-! # `sendFile` transfers the file once

`FileTransfer` follows one `sendFile` and the write events after it. It records the calls of
`sendfile` with their two descriptors, and counts the calls of `writeCompleteCallback_`.
`sendFileInLoop` calls `sendfile(socket_->fd(), file_->fd(), ...)` and `handleWrite` calls
`sendfile(file_->fd(), socket_->fd(), ...)`: in a write event the file is the target.

`transfers_iff` states that the file is transferred right exactly if `handleWrite` never has a file
to send, and the call of `sendFileInLoop` does not fail. -/

namespace Muduo

namespace Net

/-- A descriptor that is given to `sendfile`. -/
inductive Descriptor
  /-- `socket_->fd()`. -/
  | socket
  /-- `file_->fd()`. -/
  | file
deriving DecidableEq, Repr

/-- A call `sendfile(outFd, inFd, nullptr, count)`. -/
structure SendfileCall where
  /-- The descriptor that is written. -/
  outFd : Descriptor
  /-- The descriptor that is read. -/
  inFd : Descriptor
  /-- The result. -/
  result : Written
deriving DecidableEq, Repr

/-- The bytes of a file, from its current offset on. -/
def File.content (file : File) : Bytes := file.unread.take file.fileSize.toNat

/-- What `File(fileName)` leaves if `open` succeeds: `st_size` is an `off_t`. -/
structure File.Opened (file : File) : Prop where
  /-- `sendFileInLoop` checks this, and sends nothing otherwise. -/
  fd_nonneg : 0 ≤ file.fd
  fileSize_lt : file.fileSize.toNat < 2 ^ 63

namespace Sender

/-- The calls of `sendfile` in an action. -/
def sendfileCalls (s : Sender) : Action → List SendfileCall
  | .sendFile file r =>
    if s.DirectWrite ∧ 0 ≤ file.fd then [⟨.socket, .file, r⟩] else []
  | .handleWrite r =>
    if s.conn.writing = true ∧ s.conn.file.isSome = true then [⟨.file, .socket, r⟩] else []
  | _ => []

end Sender

/-- A connection from a call of `sendFile` on. -/
structure FileTransfer where
  /-- The connection. -/
  sender : Sender
  /-- The calls of `sendfile` so far. -/
  calls : List SendfileCall
  /-- How often `writeCompleteCallback_` was called so far. -/
  callbacks : ℕ

namespace FileTransfer

/-- An action of the connection. -/
def act (t : FileTransfer) (a : Sender.Action) : Option FileTransfer :=
  (t.sender.step a).map fun s =>
    { sender := s
      calls := t.calls ++ t.sender.sendfileCalls a
      callbacks := t.callbacks + (s.frames.length - t.sender.frames.length) }

/-- `sendFile(file)`, where `sendfile` answers `r` if it is called. -/
def start (s : Sender) (file : File) (r : Written) : Option FileTransfer :=
  (⟨s, [], 0⟩ : FileTransfer).act (.sendFile file r)

/-- What the loop does then. -/
inductive Action
  /-- A write event, in which `sendfile` or `write` answers `r`. -/
  | handleWrite (r : Written)
  | callbackReturns
deriving DecidableEq, Repr

/-- One action. -/
def step (t : FileTransfer) : Action → Option FileTransfer
  | .handleWrite r => t.act (.handleWrite r)
  | .callbackReturns => t.act .callbackReturns

/-- The file bytes that the socket has accepted. -/
def transferred (t : FileTransfer) : ℕ :=
  ((t.calls.filter fun c => c.outFd = .socket ∧ c.inFd = .file).map fun c => c.result.taken).sum

/-! ## What `sendFile` promises -/

variable (s₀ : Sender) (file : File)

/-- What was sent before, and is accepted or pending when `sendFile` is called. -/
def earlier : Bytes := s₀.accepted ++ s₀.conn.outputBuffer.bytes

/-- The socket has accepted all earlier output and all bytes of the file. -/
def Complete (t : FileTransfer) : Prop :=
  t.transferred = file.fileSize.toNat ∧ earlier s₀ <+: t.sender.accepted

instance (t : FileTransfer) : Decidable (Complete s₀ file t) :=
  inferInstanceAs (Decidable (_ ∧ _))

/-- What `sendFile(file)`, called in `s₀`, promises of a later state. -/
structure Transfers (t : FileTransfer) : Prop where
  /-- `fileWrote_` is the number of file bytes accepted; it is reset when the file is finished. -/
  fileWrote : t.sender.conn.file = none ∧ t.transferred = file.fileSize.toNat ∨
    t.sender.conn.fileWrote.toNat = t.transferred
  /-- The file comes after all earlier output. -/
  accepted : t.sender.accepted <+: earlier s₀ ++ file.content
  /-- `sendfile` copies from the file to the socket. -/
  copies : ∀ c ∈ t.calls, c.outFd = .socket ∧ c.inFd = .file
  /-- The callback, if it is set, has been called once if the transfer is complete, and else not. -/
  callback : t.callbacks =
    if s₀.conn.writeCompleteCallback = true ∧ Complete s₀ file t then 1 else 0

/-- No file is left to a write event. -/
def NoFileLeft (t : FileTransfer) : Action → Prop
  | .handleWrite _ => t.sender.conn.file = none
  | .callbackReturns => True

end FileTransfer

/-! ## What is known of a connection when `sendFile` is called -/

namespace Sender

variable {s t : Sender}

/-- What holds in every run of an established connection. -/
structure Regular (s : Sender) : Prop where
  connected : s.conn.state = .kConnected
  /-- The calls that wait for their callbacks have nothing left to do. -/
  spent : s.Spent
  /-- Write interest is not on for nothing. -/
  busy : s.conn.writing = true → s.Pending

theorem regular_established (callback : Bool) : (established callback).Regular :=
  ⟨rfl, spent_established callback, nofun⟩

theorem pending_buffer (s : Sender) {data : Bytes} (h : data ≠ []) : (s.buffer data).Pending :=
  (watched_buffer s h).mpr rfl

/-- Every action keeps this, also one that strands the buffer. -/
theorem Regular.step (h : s.Regular) {a : Action} (hs : s.step a = some t) : t.Regular := by
  have hspent := h.spent.step hs
  cases a with
  | send m r =>
    cases sends hs with
    | dropped => exact h
    | whole f hd => exact ⟨by simpa using h.connected, hspent, by simpa [Pending] using h.busy⟩
    | part n hd hlt =>
      have hrest : m.bytes.drop n ≠ [] := drop_ne_nil (by rw [length_bytes]; exact hlt)
      exact ⟨h.connected, hspent, fun _ => pending_buffer _ hrest⟩
    | failed e => exact ⟨h.connected, hspent, fun _ => pending_buffer _ (shifted_ne_nil m)⟩
    | behind _ _ _ hpos =>
      exact ⟨h.connected, hspent, fun _ => pending_buffer _ (bytes_ne_nil hpos)⟩
    | empty => exact ⟨h.connected, hspent, h.busy⟩
  | sendFile file r =>
    cases sendsFile hs with
    | dropped => exact h
    | unopened => exact ⟨h.connected, hspent, h.busy⟩
    | whole f => exact ⟨by simpa using h.connected, hspent, by simpa [Pending] using h.busy⟩
    | part => exact ⟨h.connected, hspent, fun _ => (watched_keep _ _).mpr rfl⟩
    | behind => exact ⟨h.connected, hspent, fun _ => (watched_keep _ _).mpr rfl⟩
    | empty => exact ⟨h.connected, hspent, h.busy⟩
  | setWriteCompleteCallback on =>
    cases hs
    exact ⟨h.connected, hspent, h.busy⟩
  | handleWrite r =>
    rw [Sender.step] at hs
    split_ifs at hs
    cases writes hs with
    | finished => exact ⟨by simpa using h.connected, hspent, by simp⟩
    | unfinished => exact ⟨h.connected, hspent, h.busy⟩
    | flushed => exact ⟨by simpa using h.connected, hspent, by simp⟩
    | part b _ _ _ hlt hb =>
      have hrest : b.bytes ≠ [] := hb ▸ drop_ne_nil hlt
      exact ⟨h.connected, hspent, fun _ => .inl hrest⟩
    | stalled => exact h
  | callbackReturns =>
    obtain ⟨f, -, ht⟩ := h.spent.callbackReturns hs
    rw [ht] at hspent ⊢
    exact ⟨h.connected, hspent, h.busy⟩

/-- With no file to send, a connection that does not write directly has buffered bytes. -/
theorem Regular.bytes_ne_nil (h : s.Regular) (hnone : s.conn.file = none) (hd : ¬ s.DirectWrite) :
    s.conn.outputBuffer.bytes ≠ [] := by
  intro hnil
  have hread : s.conn.outputBuffer.readableBytes = 0 := by
    rw [ByteBuffer.readableBytes_eq, hnil, List.length_nil]
  have hw : s.conn.writing = true := by
    by_contra hoff
    exact hd ⟨h.connected, by simpa using hoff, hread⟩
  -- write interest is on for something, and nothing is there
  exact (h.busy hw).elim (fun hp => hp hnil) fun hp => hp hnone

theorem Regular.of_exec {callback : Bool} {as : List Action}
    (h : Runs.exec Sender.step (established callback) as = some s) : s.Regular :=
  Runs.exec_induction (regular_established callback) (fun _ _ _ ht hs => ht.step hs) h

end Sender

namespace FileTransfer

variable {s₀ : Sender} {file : File} {t t' : FileTransfer}

/-! ## How far the transfer is -/

/-- The stages of a transfer without a write event for the file. -/
inductive Stage (s₀ : Sender) (file : File) (t : FileTransfer) : Prop
  /-- The file is kept. -/
  | kept : t.sender.conn.file ≠ none → t.sender.accepted <+: earlier s₀ ++ file.content →
      t.sender.conn.fileWrote.toNat = t.transferred → t.transferred ≠ file.fileSize.toNat →
      t.callbacks = 0 → Stage s₀ file t
  /-- The file is empty, and there is earlier output. -/
  | draining : t.sender.conn.file = none → file.fileSize.toNat = 0 →
      t.sender.accepted ++ t.sender.conn.outputBuffer.bytes = earlier s₀ →
      t.sender.conn.outputBuffer.bytes ≠ [] → t.transferred = 0 →
      t.sender.conn.fileWrote.toNat = 0 → t.callbacks = 0 → Stage s₀ file t
  /-- Everything is written. -/
  | finished : t.sender.conn.file = none → t.sender.conn.writing = false →
      t.sender.accepted = earlier s₀ ++ file.content → t.transferred = file.fileSize.toNat →
      t.callbacks = (if s₀.conn.writeCompleteCallback = true then 1 else 0) → Stage s₀ file t

/-- What is known of a transfer in which no write event had a file to send. -/
structure Underway (s₀ : Sender) (file : File) (t : FileTransfer) : Prop where
  spent : t.sender.Spent
  callback : t.sender.conn.writeCompleteCallback = s₀.conn.writeCompleteCallback
  copies : ∀ c ∈ t.calls, c.outFd = .socket ∧ c.inFd = .file
  stage : Stage s₀ file t

/-- A transfer that is underway keeps its promises. -/
theorem Underway.transfers (h : Underway s₀ file t) : Transfers s₀ file t := by
  cases h.stage with
  | kept hfile hacc hwrote hne hcb =>
    refine ⟨.inr hwrote, hacc, h.copies, ?_⟩
    rw [if_neg fun hc => hne hc.2.1, hcb]
  | draining hfile hsize hacc hbuf htr hwrote hcb =>
    refine ⟨.inr (hwrote.trans htr.symm), ?_, h.copies, ?_⟩
    · exact (hacc ▸ List.prefix_append _ _ : t.sender.accepted <+: earlier s₀).trans
        (List.prefix_append _ _)
    · -- the earlier output is not out yet
      rw [if_neg, hcb]
      rintro ⟨-, -, hpre⟩
      have hlen := hpre.length_le
      rw [← hacc, List.length_append] at hlen
      exact hbuf (List.length_eq_zero_iff.mp (by omega))
  | finished hfile hwriting hacc htr hcb =>
    refine ⟨.inl ⟨hfile, htr⟩, hacc ▸ List.prefix_rfl, h.copies, ?_⟩
    have hcomplete : Complete s₀ file t := ⟨htr, hacc ▸ List.prefix_append _ _⟩
    rw [hcb]
    simp only [hcomplete, and_true]

/-! ## The call of `sendFile` -/

theorem length_content_le (file : File) : file.content.length ≤ file.fileSize.toNat := by
  rw [File.content, List.length_take]
  exact Nat.min_le_left _ _

/-- A count of `sendfile` as a `size_t`. -/
theorem toNat_count {n : ℕ} (hn : n ≤ file.content.length) :
    (Written.count n).toSize.toNat = n := by
  have := length_content_le file
  have := file.fileSize.isLt
  rw [Written.toSize, BitVec.toNat_ofNat]
  omega

theorem act_eq_some {a : Sender.Action} (h : t.act a = some t') :
    ∃ s, t.sender.step a = some s ∧
      t' = ⟨s, t.calls ++ t.sender.sendfileCalls a,
        t.callbacks + (s.frames.length - t.sender.frames.length)⟩ := by
  obtain ⟨s, hs, rfl⟩ := Option.map_eq_some_iff.mp h
  exact ⟨s, hs, rfl⟩

/-- Nothing is buffered when `sendFileInLoop` calls `sendfile`. -/
theorem earlier_of_directWrite (h : s₀.DirectWrite) : earlier s₀ = s₀.accepted := by
  rw [earlier, h.bytes_eq, List.append_nil]

/-- The connection and the callbacks do not matter for the bytes transferred. -/
theorem transferred_eq {calls : List SendfileCall} (h : t.calls = calls) :
    t.transferred =
      ((calls.filter fun c => c.outFd = .socket ∧ c.inFd = .file).map fun c => c.result.taken).sum :=
  h ▸ rfl

/-- `sendFile`, where its own call of `sendfile` does not fail. -/
theorem Underway.start {r : Written} (hs₀ : s₀.Regular) (hfile : file.Opened)
    (hr : s₀.DirectWrite → ∃ n, r = .count n) (h : start s₀ file r = some t) :
    Underway s₀ file t := by
  obtain ⟨s, hs, rfl⟩ := act_eq_some h
  have hspent := hs₀.spent.step hs
  have hdirect (hd : s₀.DirectWrite) (hfd : 0 ≤ file.fd) :
      [] ++ s₀.sendfileCalls (.sendFile file r) = [⟨.socket, .file, r⟩] := if_pos ⟨hd, hfd⟩
  have hnot (hd : ¬ s₀.DirectWrite) : [] ++ s₀.sendfileCalls (.sendFile file r) = [] :=
    if_neg fun hc => hd hc.1
  cases Sender.sendsFile hs with
  | dropped hstate => exact absurd hs₀.connected hstate
  | unopened hnone hfd => exact absurd hfile.fd_nonneg (Int.not_le.mpr hfd)
  | whole f hnone hfd hd hle heq hf =>
    -- the transfer is complete at once, and the callback is called if it is set
    obtain ⟨n, rfl⟩ := hr hd
    have hn : file.fileSize.toNat = n := (congrArg BitVec.toNat heq).trans (toNat_count hle)
    have hall : file.content.take n = file.content :=
      List.take_of_length_le (hn ▸ length_content_le file)
    have hcalls := hdirect hd hfd
    refine ⟨hspent, by simp, ?_, .finished (by simpa using hnone) (by simpa using hd.2.1) ?_ ?_ ?_⟩
    · simp [hcalls]
    · rw [Sender.complete_accepted, earlier_of_directWrite hd]
      exact congrArg (s₀.accepted ++ ·) hall
    · rw [transferred_eq hcalls, hn]
      simp [Written.taken]
    · simp [Sender.length_frames_complete]
  | part hnone hfd hd hle hne =>
    -- a short count: the rest of the file is left to `handleWrite`
    obtain ⟨n, rfl⟩ := hr hd
    have hsize := toNat_count hle
    have hn : n ≠ file.fileSize.toNat := fun h0 =>
      hne (BitVec.eq_of_toNat_eq (h0.symm.trans hsize.symm))
    have hcalls := hdirect hd hfd
    refine ⟨hspent, rfl, ?_, .kept (Option.some_ne_none _) ?_ ?_ ?_ ?_⟩
    · simp [hcalls]
    · rw [earlier_of_directWrite hd]
      exact (List.prefix_append_right_inj _).mpr (List.take_prefix _ _)
    · rw [transferred_eq hcalls]
      exact hsize.trans (by simp [Written.taken])
    · rw [transferred_eq hcalls]
      simpa [Written.taken] using hn
    · simp
  | behind hnone hfd hstate hd hne =>
    have hcalls := hnot hd
    refine ⟨hspent, rfl, ?_, .kept (Option.some_ne_none _) ?_ ?_ ?_ ?_⟩
    · simp [hcalls]
    · exact (List.prefix_append _ _).trans (List.prefix_append _ _)
    · rw [transferred_eq hcalls]
      rfl
    · rw [transferred_eq hcalls]
      exact fun h0 => hne (BitVec.eq_of_toNat_eq h0.symm)
    · simp
  | empty hnone hfd hstate hd hzero =>
    have hcalls := hnot hd
    refine ⟨hspent, rfl, ?_,
      .draining hnone (by rw [hzero]; rfl) rfl (hs₀.bytes_ne_nil hnone hd) ?_ rfl ?_⟩
    · simp [hcalls]
    · rw [transferred_eq hcalls]
      rfl
    · simp

/-- **A failure of the first `sendfile`**: `-1` is added to `fileWrote_`. -/
theorem not_transfers_of_failed {e : Errno} (hs₀ : s₀.Regular) (hfile : file.Opened)
    (hd : s₀.DirectWrite) (h : start s₀ file (.failed e) = some t) : ¬ Transfers s₀ file t := by
  obtain ⟨s, hs, rfl⟩ := act_eq_some h
  have hcalls : [] ++ s₀.sendfileCalls (.sendFile file (.failed e)) =
      [⟨.socket, .file, .failed e⟩] := if_pos ⟨hd, hfile.fd_nonneg⟩
  intro htransfers
  cases Sender.sendsFile hs with
  | dropped hstate => exact hstate hs₀.connected
  | unopened _ hfd => exact absurd hfile.fd_nonneg (Int.not_le.mpr hfd)
  | whole f _ _ _ _ heq =>
    -- the file is too large
    have hsize := hfile.fileSize_lt
    rw [heq, Written.toSize] at hsize
    exact absurd hsize (by decide)
  | part =>
    -- the file is kept, so `fileWrote_` should be 0
    have hwrote := htransfers.fileWrote.resolve_left fun h => Option.some_ne_none _ h.1
    rw [transferred_eq hcalls] at hwrote
    exact absurd hwrote (by simp [Written.toSize, Written.taken])
  | behind _ _ _ hnot => exact hnot hd
  | empty _ _ _ hnot => exact hnot hd

/-! ## The write events -/

/-- The callback returns. -/
theorem Underway.callbackReturns (h : Underway s₀ file t)
    (hact : t.act .callbackReturns = some t') : Underway s₀ file t' := by
  obtain ⟨s, hs, rfl⟩ := act_eq_some hact
  have hspent := h.spent.step hs
  obtain ⟨f, hf, hsame⟩ := h.spent.callbackReturns hs
  have ht' : (⟨s, t.calls ++ t.sender.sendfileCalls .callbackReturns,
      t.callbacks + (s.frames.length - t.sender.frames.length)⟩ : FileTransfer) =
      { t with sender := { t.sender with frames := s.frames } } := by
    rw [hsame, hf]
    simp [Sender.sendfileCalls]
  rw [ht']
  rw [hsame] at hspent
  refine ⟨hspent, h.callback, h.copies, ?_⟩
  cases h.stage with
  | kept hfile hacc hwrote hne hcb => exact .kept hfile hacc hwrote hne hcb
  | draining hfile hsize hacc hbuf htr hwrote hcb =>
    exact .draining hfile hsize hacc hbuf htr hwrote hcb
  | finished hfile hwriting hacc htr hcb => exact .finished hfile hwriting hacc htr hcb

/-- A write event that has no file to send. -/
theorem Underway.handleWrite (h : Underway s₀ file t) {r : Written}
    (hnone : t.sender.conn.file = none) (hact : t.act (.handleWrite r) = some t') :
    Underway s₀ file t' := by
  obtain ⟨s, hs, rfl⟩ := act_eq_some hact
  have hspent := h.spent.step hs
  have hcalls : t.calls ++ t.sender.sendfileCalls (.handleWrite r) = t.calls := by
    simp [Sender.sendfileCalls, hnone]
  rw [Sender.step] at hs
  split_ifs at hs with hframes
  -- with write interest on, only the earlier output of an empty file can be there
  have hdrain (hw : t.sender.conn.writing = true) : file.fileSize.toNat = 0 ∧
      t.sender.accepted ++ t.sender.conn.outputBuffer.bytes = earlier s₀ ∧ t.transferred = 0 ∧
      t.sender.conn.fileWrote.toNat = 0 ∧ t.callbacks = 0 := by
    cases h.stage with
    | kept hfile => exact absurd hnone hfile
    | draining _ hsize hacc _ htr hwrote hcb => exact ⟨hsize, hacc, htr, hwrote, hcb⟩
    | finished _ hoff =>
      rw [hw] at hoff
      cases hoff
  cases Sender.writes hs with
  | finished g f _ hfile =>
    rw [hnone] at hfile
    cases hfile
  | unfinished g _ hfile =>
    rw [hnone] at hfile
    cases hfile
  | flushed b f hw _ _ _ _ _ =>
    -- the earlier output is out, and with it the empty file
    obtain ⟨hsize, hacc, htr, -, hcb⟩ := hdrain hw
    have hempty : file.content = [] := by rw [File.content, hsize, List.take_zero]
    refine ⟨hspent, by simpa using h.callback, by simpa only [hcalls] using h.copies,
      .finished (by simpa using hnone) (by simp) ?_ ?_ ?_⟩
    · rw [Sender.complete_accepted, hempty, List.append_nil]
      exact hacc
    · rw [transferred_eq hcalls, hsize]
      exact htr
    · rw [hcb, Sender.length_frames_complete]
      simp [h.callback]
  | part b hw _ _ hlt hb =>
    obtain ⟨hsize, hacc, htr, hwrote, hcb⟩ := hdrain hw
    refine ⟨hspent, h.callback, by simpa only [hcalls] using h.copies,
      .draining hnone hsize ?_ ?_ ?_ hwrote (by simpa using hcb)⟩
    · rw [hb, ← hacc, List.append_assoc, List.take_append_drop]
    · rw [hb]
      exact Sender.drop_ne_nil hlt
    · rw [transferred_eq hcalls]
      exact htr
  | stalled =>
    rw [hcalls, Nat.sub_self, Nat.add_zero]
    exact h

/-- **One action**, where no file is left to a write event. -/
theorem Underway.step (h : Underway s₀ file t) {a : Action} (ha : t.NoFileLeft a)
    (hs : t.step a = some t') : Underway s₀ file t' := by
  cases a with
  | handleWrite r => exact h.handleWrite ha hs
  | callbackReturns => exact h.callbackReturns hs

/-- **A write event with a file to send** calls `sendfile` the wrong way round. -/
theorem not_transfers_of_file {a : Action} (ha : ¬ t.NoFileLeft a) (hact : t.step a = some t') :
    ¬ Transfers s₀ file t' := by
  cases a with
  | callbackReturns => exact absurd trivial ha
  | handleWrite r =>
    obtain ⟨s, hs, rfl⟩ := act_eq_some hact
    intro htransfers
    rw [Sender.step] at hs
    split_ifs at hs
    have hw : t.sender.conn.writing = true := by
      by_contra hoff
      rw [Sender.handleWrite, if_neg hoff] at hs
      cases hs
    have hsome : t.sender.conn.file.isSome = true := Option.isSome_iff_ne_none.mpr ha
    have hcall := htransfers.copies ⟨.file, .socket, r⟩ (by simp [Sender.sendfileCalls, hw, hsome])
    cases hcall.1

/-- **When `sendFile` transfers the file.** On any connection, with any pending output, any file and
any results of the kernel, every state after `sendFile` keeps the promises (`fileWrote_` counts the
accepted file bytes, the file comes whole and once after the earlier output, `sendfile` copies from
the file to the socket, and the callback is called once, when the transfer is complete) if and only
if the call of `sendfile` in `sendFileInLoop` does not fail and no write event comes while `file_`
is set. -/
theorem transfers_iff {callback : Bool} {as : List Sender.Action} {r : Written} {bs : List Action}
    {u : FileTransfer} (hs₀ : Runs.exec Sender.step (.established callback) as = some s₀)
    (hfile : file.Opened) (hstart : start s₀ file r = some t) (h : Runs.exec step t bs = some u) :
    Runs.Always step (Transfers s₀ file) t bs ↔
      (s₀.DirectWrite → ∃ n, r = .count n) ∧ Runs.Guarded step NoFileLeft t bs := by
  have hreg := Sender.Regular.of_exec hs₀
  refine ⟨fun hall => ⟨fun hd => ?_, fun done a hd v hv => ?_⟩, fun ⟨hr, hg⟩ done hd v hv => ?_⟩
  · cases r with
    | count n => exact ⟨n, rfl⟩
    | failed e =>
      exact absurd (hall [] List.nil_prefix t rfl) (not_transfers_of_failed hreg hfile hd hstart)
  · by_contra hleft
    obtain ⟨v', hv'⟩ := Runs.exists_exec_of_done h hd
    obtain ⟨w, hw, hlast⟩ := Runs.exec_concat_eq_some.mp hv'
    cases hv.symm.trans hw
    exact not_transfers_of_file hleft hlast (hall _ hd v' hv')
  · exact (Runs.exec_invariant (Underway.start hreg hfile hr hstart)
      (fun _ _ _ ht ha hs => ht.step ha hs) (hg.of_done hd) hv).transfers

theorem opened_threeBytes : Sender.threeBytes.Opened := ⟨by decide, by decide⟩

/-- The theorem at work: `sendfile` takes the whole file at once. -/
theorem transfers_iff_whole : ∃ t u : FileTransfer,
    start (.established true) Sender.threeBytes (.count 3) = some t ∧
      Runs.exec step t [.callbackReturns] = some u ∧
      Runs.Always step (Transfers (.established true) Sender.threeBytes) t [.callbackReturns] := by
  have hrun : ((start (.established true) Sender.threeBytes (.count 3)).bind fun t =>
      Runs.exec step t [.callbackReturns]).isSome = true := by decide +kernel
  obtain ⟨u, hu⟩ := Option.isSome_iff_exists.mp hrun
  obtain ⟨t, ht, hu⟩ := Option.bind_eq_some_iff.mp hu
  have hs₀ : Runs.exec Sender.step (.established true) [] = some (.established true) := rfl
  have hguarded : Runs.Guarded step NoFileLeft t ([] ++ [.callbackReturns]) :=
    Runs.guarded_nil.concat fun _ _ => trivial
  exact ⟨t, u, ht, hu,
    (transfers_iff hs₀ opened_threeBytes ht hu).mpr ⟨fun _ => ⟨3, rfl⟩, hguarded⟩⟩

/-- **A short count and a write event**: the second `sendfile` copies from the socket to the
file. -/
theorem not_transfers : ¬ ∀ (callback : Bool) (as : List Sender.Action) (s₀ : Sender) (file : File)
    (r : Written) (t : FileTransfer) (bs : List Action) (u : FileTransfer),
    Runs.exec Sender.step (.established callback) as = some s₀ → file.Opened →
      start s₀ file r = some t → Runs.exec step t bs = some u →
      Runs.Always step (Transfers s₀ file) t bs := by
  intro hall
  have hrun : ((start (.established true) Sender.threeBytes (.count 1)).bind fun t =>
      Runs.exec step t [.handleWrite (.count 2)]).map calls =
      some [⟨.socket, .file, .count 1⟩, ⟨.file, .socket, .count 2⟩] := by decide +kernel
  obtain ⟨u, hu, hcalls⟩ := Option.map_eq_some_iff.mp hrun
  obtain ⟨t, ht, hu⟩ := Option.bind_eq_some_iff.mp hu
  have htransfers := hall true [] _ _ _ t _ u rfl opened_threeBytes ht hu _ List.prefix_rfl u hu
  have hcall := htransfers.copies ⟨.file, .socket, .count 2⟩ (by rw [hcalls]; simp)
  cases hcall.1

end FileTransfer

end Net

end Muduo
