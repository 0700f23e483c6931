import Muduo.Http.HttpResponse
import Muduo.Net.TcpFile

/-! # `HttpServer`: responses on one connection

`HttpServer::onRequest` sends the bytes of a response with `send`. The file of a file response is
sent later, by `HttpServer::sendFile`, which `onRequest` stores in `writeCompleteCallback_`: it runs
when the bytes before the file are written. `Exchange` is a connection with what is stored there.

There is one `writeCompleteCallback_`, and a request may be handled while it waits. What is sent for
this request comes before the file then, or the file is forgotten.

`sendFile` takes the file by a reference into the callback that is stored, and the first thing it
does is to store another one. This destroys the `FilePtr` that the reference is bound to, and with
the last `FilePtr` of a file `~File` closes it. The code goes on with what it reads there, which is
taken to be the number of the descriptor still: `sendfile` fails with `EBADF`, unless someone else
keeps a `FilePtr` of the file. While `onRequest` runs, its `response` does; the header has been
written at once then. Later only the callback of the server may have kept one.

`inOrder_of_unhurried` states that the responses leave in order and unmixed if none of this
happens. -/

namespace Muduo

namespace Http

open Net

/-- What `HttpServer` stores in `writeCompleteCallback_`. -/
inductive WriteComplete
  | closeConnection
  | sendFile (closeConn : Bool) (file : File)

/-- The bytes that `sendFile` sends of a file: none if it could not be opened. -/
def fileBytes (file : File) : Bytes := if file.fd < 0 then [] else file.content

/-- The bytes of a response: what `appendToBuffer` writes, and the file of a file response. -/
def HttpResponse.bytes (response : HttpResponse) : Bytes :=
  (response.appendToBuffer .new).bytes ++ response.file.elim [] fileBytes

/-- A response is not empty. -/
theorem HttpResponse.length_pos {response : HttpResponse} {buf : Message}
    (h : buf.bytes = (response.appendToBuffer .new).bytes) : 0 < buf.len := by
  rw [← Sender.length_bytes, h]
  simp only [appendToBuffer, ByteBuffer.bytes_append]
  simp

/-- `close` in `onRequest`. -/
def HttpRequest.closes (request : HttpRequest) : Bool :=
  request.getHeader (ascii "connection") == ascii "closed" ||
    (request.version == .kHttp10 && request.getHeader (ascii "connection") != ascii "keep-alive")

/-- What `sendfile` answers: `r`, if the file is still open because someone keeps it. -/
def whileKept (kept : Bool) (r : Written) : Written := if kept then r else .failed .EBADF

/-- A connection of the server, in its loop. -/
structure Exchange where
  /-- The connection. -/
  sender : Sender
  /-- `writeCompleteCallback_`. -/
  writeCompleteCallback : Option WriteComplete
  /-- The number of calls of `socket_->shutdownWrite()`. -/
  shutdownWrites : ℕ
  /-- The bytes of the responses to the requests so far, one after another. -/
  responses : Bytes

namespace Exchange

/-- A connection after `onConnection`. -/
def established : Exchange := ⟨.established false, none, 0, []⟩

/-- `conn->setWriteCompleteCallback(cb)`. -/
def setWriteCompleteCallback (c : Exchange) (cb : Option WriteComplete) : Exchange :=
  { c with
    sender := { c.sender with conn := { c.sender.conn with writeCompleteCallback := cb.isSome } }
    writeCompleteCallback := cb }

/-- `shutdown`, in the loop thread. -/
def shutdown (c : Exchange) : Exchange :=
  if c.sender.conn.state = .kConnected then
    { c with
      sender := { c.sender with conn := { c.sender.conn with state := .kDisConnecting } }
      shutdownWrites :=
        if c.sender.conn.writing = false then c.shutdownWrites + 1 else c.shutdownWrites }
  else c

/-- A call of the connection has led to `t`. If it is inside `writeCompleteCallback_` now, the
callback runs and returns to it. -/
def complete (c : Exchange) (t : Sender) (callback : Exchange → Option Exchange) : Option Exchange :=
  if c.sender.frames.length < t.frames.length then
    (callback { c with sender := t }).bind fun d =>
      (d.sender.step .callbackReturns).map fun u => { d with sender := u }
  else some { c with sender := t }

/-- `HttpServer::closeConnection`. -/
def closeConnection (c : Exchange) : Exchange := c.shutdown

/-- `HttpServer::sendFile`, where the file is `kept` by someone besides `writeCompleteCallback_`, or
it is closed as soon as that is set. `sendfile` transfers the whole of an open file. What
`sendFileInLoop` calls after that is what has just been stored. -/
def sendFile (c : Exchange) (closeConn : Bool) (file : File) (kept : Bool) : Option Exchange :=
  let c := c.setWriteCompleteCallback (if closeConn then some .closeConnection else none)
  (c.sender.sendFile file (whileKept kept (.count file.fileSize.toNat))).bind fun t =>
    c.complete t fun d => some d.closeConnection

/-- A call of `writeCompleteCallback_`, where a file that it sends is `kept` by someone else. -/
def writeComplete (kept : Bool) (c : Exchange) : Option Exchange :=
  match c.writeCompleteCallback with
  | none => some c
  | some .closeConnection => some c.closeConnection
  | some (.sendFile closeConn file) => c.sendFile closeConn file kept

/-- What `onRequest` stores in `writeCompleteCallback_`. -/
def prepare (c : Exchange) (response : HttpResponse) : Exchange :=
  match response.file with
  | some file => c.setWriteCompleteCallback (some (.sendFile response.closeConnection file))
  | none =>
    if response.closeConnection then c.setWriteCompleteCallback (some .closeConnection) else c

/-- `HttpServer::onRequest`, where the response is written to the memory `buf`, and `write` answers
`r` if it is called. A file of the response is kept by the response until the end. -/
def onRequest (c : Exchange) (request : HttpRequest)
    (httpCallback : HttpRequest → HttpResponse → HttpResponse) (buf : Message) (r : Written) :
    Option Exchange :=
  let response := httpCallback request (.new request.closes)
  if buf.bytes = (response.appendToBuffer .new).bytes then
    let c := { c with responses := c.responses ++ response.bytes }.prepare response
    (c.sender.send buf r).bind fun t => c.complete t (writeComplete response.file.isSome)
  else none

/-- `handleWrite`, where `write` answers `r`, and a file that waits is `kept` by the callback of the
server. -/
def handleWrite (c : Exchange) (r : Written) (kept : Bool) : Option Exchange :=
  (c.sender.step (.handleWrite r)).bind fun t => c.complete t (writeComplete kept)

/-- What the loop does with the connection. -/
inductive Action
  /-- A request is complete. -/
  | onRequest (request : HttpRequest) (httpCallback : HttpRequest → HttpResponse → HttpResponse)
    (buf : Message) (r : Written)
  /-- A request cannot be parsed. -/
  | shutdown
  | handleWrite (r : Written) (kept : Bool)

/-- One action. -/
def step (c : Exchange) : Action → Option Exchange
  | .onRequest request httpCallback buf r => c.onRequest request httpCallback buf r
  | .shutdown => some c.shutdown
  | .handleWrite r kept => c.handleWrite r kept

/-- The bytes on the socket are the beginning of the responses, in order and unmixed. -/
def InOrder (c : Exchange) : Prop := c.sender.accepted <+: c.responses

instance (c : Exchange) : Decidable c.InOrder := inferInstanceAs (Decidable (_ <+: _))

/-- The file that waits in `writeCompleteCallback_`. -/
def waitingFile (c : Exchange) : Option File :=
  match c.writeCompleteCallback with
  | some (.sendFile _ file) => some file
  | _ => none

/-- The file bytes that wait in `writeCompleteCallback_`. -/
def waiting (c : Exchange) : Bytes := c.waitingFile.elim [] fileBytes

end Exchange

/-- A write event in state `kConnected`, with the result `r`, writes all that is buffered. -/
def Flushes (s : Sender) (r : Written) : Prop :=
  s.conn.state = .kConnected ∧ r.taken = s.conn.outputBuffer.bytes.length

instance (s : Sender) (r : Written) : Decidable (Flushes s r) := inferInstanceAs (Decidable (_ ∧ _))

namespace Exchange

/-- On a connection in state `kConnected`, no request is handled while a file waits, no `write` of a
`send` fails, and a write event that comes to an open file that waits finds it kept. -/
def Unhurried (c : Exchange) : Action → Prop
  | .onRequest _ _ _ r =>
    (c.sender.conn.state = .kConnected → c.waiting = []) ∧
      (c.sender.DirectWrite → ∃ n, r = .count n)
  | .shutdown => True
  | .handleWrite r kept => Flushes c.sender r → ∀ file ∈ c.waitingFile, 0 ≤ file.fd → kept = true

instance : ∀ r : Written, Decidable (∃ n, r = .count n)
  | .count n => isTrue ⟨n, rfl⟩
  | .failed _ => isFalse nofun

instance (c : Exchange) : ∀ a, Decidable (c.Unhurried a)
  | .onRequest .. => inferInstanceAs (Decidable ((_ → _) ∧ (_ → _)))
  | .shutdown => inferInstanceAs (Decidable True)
  | .handleWrite .. => inferInstanceAs (Decidable (_ → ∀ _ ∈ _, _ → _))

/-! ## The invariant -/

/-- **What is accepted, what is buffered and the file that waits are the responses**, in this order.
Once the connection is shut down a file that waits is forgotten. -/
structure Ordered (c : Exchange) : Prop where
  /-- The file is sent at once: nothing is left to `handleWrite`. -/
  noFile : c.sender.conn.file = none
  callback : c.sender.conn.writeCompleteCallback = c.writeCompleteCallback.isSome
  connected : c.sender.conn.state = .kConnected → c.sender.stream ++ c.waiting = c.responses
  stream : c.sender.stream <+: c.responses

/-- Nothing is buffered, and write interest is off: `writeCompleteCallback_` is called in such a
state. -/
structure Idle (s : Sender) : Prop where
  writing : s.conn.writing = false
  bytes : s.conn.outputBuffer.bytes = []

variable {c d : Exchange}

theorem ordered_established : Ordered established :=
  ⟨rfl, rfl, fun _ => by simp [established, Sender.established, Sender.stream, waiting, waitingFile],
    by simp [established, Sender.established, Sender.stream]⟩

theorem Ordered.inOrder (h : c.Ordered) : c.InOrder :=
  (List.prefix_append _ _).trans h.stream

/-- Nothing is forgotten. -/
theorem ordered_of_eq (hfile : c.sender.conn.file = none)
    (hcallback : c.sender.conn.writeCompleteCallback = c.writeCompleteCallback.isSome)
    (h : c.sender.stream ++ c.waiting = c.responses) : c.Ordered :=
  ⟨hfile, hcallback, fun _ => h, h ▸ List.prefix_append _ _⟩

@[simp] theorem waiting_sender (c : Exchange) (u : Sender) :
    ({ c with sender := u } : Exchange).waiting = c.waiting := rfl

@[simp] theorem waitingFile_sender (c : Exchange) (u : Sender) :
    ({ c with sender := u } : Exchange).waitingFile = c.waitingFile := rfl

theorem waitingFile_of_sendFile {closeConn : Bool} {file : File}
    (h : c.writeCompleteCallback = some (.sendFile closeConn file)) :
    c.waitingFile = some file := by
  rw [waitingFile, h]

/-- If an open file waits, it is `kept` by someone besides `writeCompleteCallback_`. -/
def Keeps (c : Exchange) (kept : Bool) : Prop :=
  ∀ file ∈ c.waitingFile, 0 ≤ file.fd → kept = true

/-- The calls that are waiting do not matter. -/
theorem Ordered.of_frames {frames : List Frame} (h : c.Ordered) :
    ({ c with sender := { c.sender with frames := frames } } : Exchange).Ordered :=
  ⟨h.noFile, h.callback, h.connected, h.stream⟩

/-- A connection in state `kConnected` that is idle writes directly. -/
theorem Idle.directWrite {s : Sender} (h : Idle s) (hstate : s.conn.state = .kConnected) :
    s.DirectWrite :=
  ⟨hstate, h.writing, by rw [ByteBuffer.readableBytes_eq, h.bytes, List.length_nil]⟩

/-! ## The callbacks -/

/-- The call has not called `writeCompleteCallback_`. -/
theorem complete_of_frames {t : Sender} {callback : Exchange → Option Exchange}
    (hd : c.complete t callback = some d) (ht : t.frames = c.sender.frames) :
    d = { c with sender := t } := by
  rw [complete, if_neg (by rw [ht]; exact lt_irrefl _), Option.some_inj] at hd
  exact hd.symm

/-- The call ends with a call of `writeCompleteCallback_`, if it is set. -/
theorem ordered_complete {u : Sender} {f : Frame} {callback : Exchange → Option Exchange}
    (hd : c.complete (u.complete f) callback = some d) (hu : u.frames = c.sender.frames)
    (hf : f.remain = 0) (h : ({ c with sender := u } : Exchange).Ordered)
    (hcallback : ∀ b e : Exchange, b.Ordered → b = { c with sender := u.callback f } →
      callback b = some e → e.Ordered ∧ e.sender.frames = b.sender.frames) :
    d.Ordered ∧ d.sender.frames = c.sender.frames := by
  by_cases hset : u.conn.writeCompleteCallback = true
  · have hlt : c.sender.frames.length < (u.callback f).frames.length := by
      rw [← hu]
      exact Nat.lt_succ_self _
    rw [Sender.complete, if_pos hset, complete, if_pos hlt] at hd
    obtain ⟨e, he, hd⟩ := Option.bind_eq_some_iff.mp hd
    obtain ⟨v, hv, rfl⟩ := Option.map_eq_some_iff.mp hd
    obtain ⟨hordered, hframes⟩ := hcallback _ e h.of_frames rfl he
    -- the callback returns to a call that has nothing left to do
    rw [Sender.step_callbackReturns hframes hf, Option.some_inj] at hv
    subst hv
    exact ⟨hordered.of_frames, hu⟩
  · rw [Sender.complete, if_neg hset] at hd
    cases complete_of_frames hd hu
    exact ⟨h, hu⟩

/-- `shutdown` leaves the bytes alone, and nothing is sent after it. -/
theorem Ordered.shutdown (h : c.Ordered) : c.shutdown.Ordered := by
  rw [Exchange.shutdown]
  by_cases hstate : c.sender.conn.state = .kConnected
  · rw [if_pos hstate]
    exact ⟨h.noFile, h.callback, nofun, h.stream⟩
  · rw [if_neg hstate]
    exact h

theorem state_shutdown (c : Exchange) : c.shutdown.sender.conn.state ≠ .kConnected := by
  rw [Exchange.shutdown]
  by_cases hstate : c.sender.conn.state = .kConnected
  · rw [if_pos hstate]
    exact nofun
  · rw [if_neg hstate]
    exact hstate

@[simp] theorem frames_shutdown (c : Exchange) : c.shutdown.sender.frames = c.sender.frames := by
  rw [Exchange.shutdown]
  split_ifs <;> rfl

theorem Ordered.closeConnection (h : c.Ordered) (hd : some c.closeConnection = some d) :
    d.Ordered ∧ d.sender.frames = c.sender.frames := by
  cases hd
  exact ⟨h.shutdown, frames_shutdown c⟩

/-- **A file that is sent to an idle connection is sent at once**, if someone keeps it. -/
theorem ordered_sendFile {file : File} {kept : Bool} {t : Sender}
    (ht : c.sender.sendFile file (whileKept kept (.count file.fileSize.toNat)) = some t)
    (hd : c.complete t (fun e => some e.closeConnection) = some d) (hidle : Idle c.sender)
    (hkept : c.sender.conn.state = .kConnected → 0 ≤ file.fd → kept = true)
    (hcallback : c.sender.conn.writeCompleteCallback = c.writeCompleteCallback.isSome)
    (hwaiting : c.waiting = [])
    (hall : c.sender.conn.state = .kConnected → c.sender.stream ++ fileBytes file = c.responses)
    (hstream : c.sender.stream <+: c.responses) (hfile : c.sender.conn.file = none) :
    d.Ordered ∧ d.sender.frames = c.sender.frames := by
  cases Sender.sendsFile ht with
  | dropped hstate =>
    -- the connection has been shut down, and the file is forgotten
    cases complete_of_frames hd rfl
    exact ⟨⟨hfile, hcallback, fun hc => absurd hc hstate, hstream⟩, rfl⟩
  | unopened _ hfd =>
    cases complete_of_frames hd rfl
    refine ⟨⟨hfile, hcallback, fun hc => ?_, hstream⟩, rfl⟩
    rw [← hall hc, fileBytes, if_pos hfd]
    exact congrArg (c.sender.stream ++ ·) hwaiting
  | whole f _ hfd hdirect hle hsize hf =>
    obtain rfl := hkept hdirect.1 hfd
    have htake : (file.unread.take file.fileSize.toNat).take file.fileSize.toNat =
        file.content := by
      rw [List.take_take, Nat.min_self, File.content]
    have hbytes := hall hdirect.1
    rw [fileBytes, if_neg (Int.not_lt.mpr hfd), Sender.stream, hidle.bytes,
      List.append_nil] at hbytes
    refine ordered_complete hd rfl hf ?_ fun b e hb _ he => hb.closeConnection he
    refine ordered_of_eq hfile hcallback ?_
    simpa only [Sender.stream, whileKept, if_true, Written.taken, htake, hidle.bytes,
      List.append_nil, waiting_sender, hwaiting] using hbytes
  | part _ hfd hdirect _ hne =>
    obtain rfl := hkept hdirect.1 hfd
    rw [whileKept, if_pos rfl, Written.toSize, BitVec.ofNat_toNat, BitVec.setWidth_eq] at hne
    exact absurd rfl hne
  | behind _ _ hstate hdirect => exact absurd (hidle.directWrite hstate) hdirect
  | empty _ _ hstate hdirect => exact absurd (hidle.directWrite hstate) hdirect

/-- What `sendFile` stores is no file. -/
theorem waiting_stored (c : Exchange) (closeConn : Bool) : (c.setWriteCompleteCallback
    (if closeConn then some .closeConnection else none)).waiting = [] := by
  cases closeConn <;> rfl

/-- **The file that waits is sent.** -/
theorem Ordered.sendFile (h : c.Ordered) (hidle : Idle c.sender) {closeConn kept : Bool}
    {file : File} (hkept : c.sender.conn.state = .kConnected → c.Keeps kept)
    (hcb : c.writeCompleteCallback = some (.sendFile closeConn file))
    (hd : c.sendFile closeConn file kept = some d) :
    d.Ordered ∧ d.sender.frames = c.sender.frames := by
  rw [Exchange.sendFile] at hd
  obtain ⟨t, ht, hd⟩ := Option.bind_eq_some_iff.mp hd
  have hfile := waitingFile_of_sendFile hcb
  have hwaiting : c.waiting = fileBytes file := by rw [waiting, hfile, Option.elim_some]
  exact ordered_sendFile (c := c.setWriteCompleteCallback _) ht hd ⟨hidle.writing, hidle.bytes⟩
    (fun hc => hkept hc file hfile) rfl (waiting_stored c closeConn) (hwaiting ▸ h.connected)
    h.stream h.noFile

/-- `writeCompleteCallback_` keeps the responses in order. -/
theorem Ordered.writeComplete (h : c.Ordered) (hidle : Idle c.sender) {kept : Bool}
    (hkept : c.sender.conn.state = .kConnected → c.Keeps kept)
    (hd : c.writeComplete kept = some d) : d.Ordered ∧ d.sender.frames = c.sender.frames := by
  rw [Exchange.writeComplete] at hd
  cases hcb : c.writeCompleteCallback with
  | none =>
    rw [hcb] at hd
    cases hd
    exact ⟨h, rfl⟩
  | some cb =>
    rw [hcb] at hd
    cases cb with
    | closeConnection => exact h.closeConnection hd
    | sendFile closeConn file => exact h.sendFile hidle hkept hcb hd

/-- A call that leaves the connection idle ends with `writeCompleteCallback_`. -/
theorem ordered_of_idle {u : Sender} {f : Frame} {kept : Bool}
    (hd : c.complete (u.complete f) (Exchange.writeComplete kept) = some d)
    (hu : u.frames = c.sender.frames) (hf : f.remain = 0)
    (h : ({ c with sender := u } : Exchange).Ordered) (hidle : Idle u)
    (hkept : u.conn.state = .kConnected → c.Keeps kept) :
    d.Ordered ∧ d.sender.frames = c.sender.frames := by
  refine ordered_complete hd hu hf h fun b e hb hbu he => hb.writeComplete ?_ ?_ he
  · rw [hbu]
    exact ⟨hidle.writing, hidle.bytes⟩
  · rw [hbu]
    exact hkept

/-! ## What is left in `writeCompleteCallback_` -/

@[simp] theorem waitingFile_shutdown (c : Exchange) : c.shutdown.waitingFile = c.waitingFile := by
  rw [Exchange.shutdown]
  split_ifs <;> rfl

/-- What `sendFile` stores first is no file, and it stays. -/
theorem waitingFile_sendFile {closeConn kept : Bool} {file : File}
    (hd : c.sendFile closeConn file kept = some d) : d.waitingFile = none := by
  obtain ⟨t, -, hd⟩ := Option.bind_eq_some_iff.mp hd
  have hstored : (c.setWriteCompleteCallback
      (if closeConn then some .closeConnection else none)).waitingFile = none := by
    cases closeConn <;> rfl
  generalize c.setWriteCompleteCallback (if closeConn then some .closeConnection else none) = b
    at hd hstored
  rw [Exchange.complete] at hd
  split_ifs at hd
  · obtain ⟨e, he, hd⟩ := Option.bind_eq_some_iff.mp hd
    obtain ⟨v, -, rfl⟩ := Option.map_eq_some_iff.mp hd
    cases he
    rw [waitingFile_sender, Exchange.closeConnection, waitingFile_shutdown]
    exact hstored
  · cases hd
    exact hstored

/-- After the callback no file waits. -/
theorem waitingFile_writeComplete {kept : Bool} (hd : c.writeComplete kept = some d) :
    d.waitingFile = none := by
  rw [Exchange.writeComplete] at hd
  cases hcb : c.writeCompleteCallback with
  | none =>
    rw [hcb] at hd
    cases hd
    rw [waitingFile, hcb]
  | some cb =>
    rw [hcb] at hd
    cases cb with
    | closeConnection =>
      cases hd
      rw [Exchange.closeConnection, waitingFile_shutdown, waitingFile, hcb]
    | sendFile closeConn file => exact waitingFile_sendFile hd

/-- A file waits for bytes in front of it only: write interest is on. -/
def Busy (c : Exchange) : Prop :=
  c.sender.conn.state = .kConnected → c.waitingFile ≠ none → c.sender.conn.writing = true

/-- A call ends and leaves write interest on, or it calls the callback, or none is set. -/
theorem busy_complete {t : Sender} {kept : Bool}
    (hd : c.complete t (Exchange.writeComplete kept) = some d)
    (ht : ¬c.sender.frames.length < t.frames.length → c.waitingFile ≠ none →
      t.conn.state = .kConnected → t.conn.writing = true) : d.Busy := by
  rw [Exchange.complete] at hd
  split_ifs at hd with hlt
  · obtain ⟨e, he, hd⟩ := Option.bind_eq_some_iff.mp hd
    obtain ⟨v, -, rfl⟩ := Option.map_eq_some_iff.mp hd
    exact fun _ hwaits => absurd (waitingFile_writeComplete he) hwaits
  · cases hd
    exact fun hc hwaits => ht hlt hwaits hc

/-- A callback that is not called is not set. -/
theorem waitingFile_of_not_called {u : Sender} {f : Frame}
    (h : ¬c.sender.frames.length < (u.complete f).frames.length) (hu : u.frames = c.sender.frames)
    (hcb : u.conn.writeCompleteCallback = c.writeCompleteCallback.isSome) :
    c.waitingFile = none := by
  rw [Sender.length_frames_complete, hu] at h
  have hunset : c.writeCompleteCallback = none := by
    rw [← Option.not_isSome_iff_eq_none, ← hcb]
    intro hset
    rw [if_pos hset] at h
    omega
  rw [waitingFile, hunset]

/-! ## The actions -/

/-- What is stored does not change how the connection sends. -/
theorem directWrite_prepare (c : Exchange) (response : HttpResponse) :
    (c.prepare response).sender.DirectWrite ↔ c.sender.DirectWrite := by
  rw [Exchange.prepare]
  cases response.file with
  | some file => exact Iff.rfl
  | none => cases response.closeConnection <;> exact Iff.rfl

/-- A request is answered. What is stored for it comes after the bytes that are sent now. -/
structure Answering (c : Exchange) (data : Bytes) : Prop where
  noFile : c.sender.conn.file = none
  callback : c.sender.conn.writeCompleteCallback = c.writeCompleteCallback.isSome
  connected : c.sender.conn.state = .kConnected →
    c.sender.stream ++ data ++ c.waiting = c.responses
  stream : c.sender.stream <+: c.responses

/-- Before the response is sent, `writeCompleteCallback_` is set for it. -/
theorem Ordered.prepare (h : c.Ordered)
    (hwaiting : c.sender.conn.state = .kConnected → c.waiting = []) (response : HttpResponse) :
    (({ c with responses := c.responses ++ response.bytes } : Exchange).prepare response).Answering
      (response.appendToBuffer .new).bytes := by
  have hall (hc : c.sender.conn.state = .kConnected) : c.sender.stream = c.responses := by
    rw [← h.connected hc, hwaiting hc, List.append_nil]
  have hstream := h.stream.trans (List.prefix_append _ response.bytes)
  rw [Exchange.prepare]
  cases hfile : response.file with
  | some file =>
    refine ⟨h.noFile, rfl, fun hc => ?_, hstream⟩
    simp only [HttpResponse.bytes, hfile, Option.elim_some]
    rw [← List.append_assoc, ← hall hc]
    rfl
  | none =>
    have hbytes : response.bytes = (response.appendToBuffer .new).bytes := by
      rw [HttpResponse.bytes, hfile, Option.elim_none, List.append_nil]
    by_cases hclose : response.closeConnection = true
    · simp only [if_pos hclose]
      refine ⟨h.noFile, rfl, fun hc => ?_, hstream⟩
      rw [← hbytes]
      exact (List.append_nil _).trans (congrArg (· ++ response.bytes) (hall hc))
    · -- what was stored before stays: it is no file
      simp only [if_neg hclose]
      refine ⟨h.noFile, h.callback, fun hc => ?_, hstream⟩
      rw [← hbytes]
      refine (congrArg _ (hwaiting hc)).trans ?_
      exact (List.append_nil _).trans (congrArg (· ++ response.bytes) (hall hc))

/-- **A response is sent** behind all responses before it, if no file waits. -/
theorem Answering.send {buf : Message} {r : Written} {kept : Bool} {t : Sender}
    (h : c.Answering buf.bytes) (hr : c.sender.DirectWrite → ∃ n, r = .count n)
    (hkept : c.sender.DirectWrite → c.Keeps kept) (ht : c.sender.send buf r = some t)
    (hd : c.complete t (Exchange.writeComplete kept) = some d) :
    d.Ordered ∧ d.sender.frames = c.sender.frames := by
  -- all of the response is accepted or buffered
  have hsent {u : Sender} (hstate : c.sender.conn.state = .kConnected)
      (hcb : u.conn.writeCompleteCallback = c.sender.conn.writeCompleteCallback)
      (hfile : u.conn.file = c.sender.conn.file) (hu : u.stream = c.sender.stream ++ buf.bytes) :
      ({ c with sender := u } : Exchange).Ordered := by
    refine ordered_of_eq (hfile.trans h.noFile) (hcb.trans h.callback) ?_
    rw [waiting_sender, hu]
    exact h.connected hstate
  cases Sender.sends ht with
  | dropped _ hstate =>
    cases complete_of_frames hd rfl
    exact ⟨⟨h.noFile, h.callback, fun hc => absurd hc hstate, h.stream⟩, rfl⟩
  | whole f hw hf =>
    refine ordered_of_idle hd rfl hf (hsent hw.1 rfl rfl ?_) ⟨hw.2.1, hw.bytes_eq⟩
      fun _ => hkept hw
    simp only [Sender.stream, hw.bytes_eq, List.append_nil]
  | part n hw hlt =>
    cases complete_of_frames hd rfl
    refine ⟨hsent hw.1 rfl rfl ?_, rfl⟩
    simp only [Sender.stream, Sender.buffer_accepted, Sender.buffer_bytes, hw.bytes_eq,
      List.nil_append, List.append_nil, List.append_assoc, List.take_append_drop]
  | failed e hw =>
    obtain ⟨n, hn⟩ := hr hw
    cases hn
  | behind _ hstate _ hpos =>
    cases complete_of_frames hd rfl
    refine ⟨hsent hstate rfl rfl ?_, rfl⟩
    simp only [Sender.stream, Sender.buffer_accepted, Sender.buffer_bytes, List.append_assoc]
  | empty _ hstate _ hzero =>
    cases complete_of_frames hd rfl
    have hnil : buf.bytes = [] := by rw [← List.length_eq_zero_iff, Sender.length_bytes, hzero]
    refine ⟨hsent hstate rfl rfl ?_, rfl⟩
    simp only [Sender.stream, hnil, List.append_nil]

/-- **What holds of the connection after every action.** -/
structure Sound (c : Exchange) : Prop where
  ordered : c.Ordered
  busy : c.Busy

theorem sound_established : Sound established :=
  ⟨ordered_established, fun _ hwaits => absurd rfl hwaits⟩

/-- What waits after `prepare` is the file of the response, or what waited before it. -/
theorem Busy.prepare (h : c.Busy) {response : HttpResponse} (hdirect : c.sender.DirectWrite)
    {responses : Bytes} : (({ c with responses := responses } : Exchange).prepare response).Keeps
      response.file.isSome := by
  intro file hfile _
  rw [Exchange.prepare] at hfile
  cases hresponse : response.file with
  | some file' => rfl
  | none =>
    rw [hresponse] at hfile
    simp only at hfile
    split_ifs at hfile
    · cases hfile
    · -- write interest is off, and no file waits
      have hwaits : c.waitingFile = some file := hfile
      have hwriting := h hdirect.1 (hwaits ▸ Option.some_ne_none file)
      exact absurd (hdirect.2.1.symm.trans hwriting) Bool.false_ne_true

/-- A response that is not written at once leaves write interest on. -/
theorem busy_send {buf : Message} {r : Written} {kept : Bool} {t : Sender}
    (hcallback : c.sender.conn.writeCompleteCallback = c.writeCompleteCallback.isSome)
    (hpos : 0 < buf.len) (ht : c.sender.send buf r = some t)
    (hd : c.complete t (Exchange.writeComplete kept) = some d) : d.Busy := by
  refine busy_complete hd fun hlt hwaits hstate => ?_
  cases Sender.sends ht with
  | dropped _ hne => exact absurd hstate hne
  | whole f => exact absurd (waitingFile_of_not_called hlt rfl hcallback) hwaits
  | part => rfl
  | failed => rfl
  | behind => rfl
  | empty _ _ _ hzero => exact absurd hzero (Nat.pos_iff_ne_zero.mp hpos)

/-- A request that finds no file waiting keeps the responses in order. -/
theorem Sound.onRequest (h : c.Sound) {request : HttpRequest}
    {httpCallback : HttpRequest → HttpResponse → HttpResponse} {buf : Message} {r : Written}
    (hg : c.Unhurried (.onRequest request httpCallback buf r))
    (hd : c.onRequest request httpCallback buf r = some d) : d.Sound := by
  rw [Exchange.onRequest] at hd
  split_ifs at hd with hbuf
  obtain ⟨t, ht, hd⟩ := Option.bind_eq_some_iff.mp hd
  have hanswer := h.ordered.prepare hg.1 (httpCallback request (.new request.closes))
  rw [← hbuf] at hanswer
  refine ⟨(hanswer.send (fun hw => hg.2 ?_) (fun hw => ?_) ht hd).1,
    busy_send hanswer.callback (HttpResponse.length_pos hbuf) ht hd⟩
  · rwa [directWrite_prepare] at hw
  · rw [directWrite_prepare] at hw
    exact h.busy.prepare hw

/-- A write event moves buffered bytes to the socket, and sends the file that waits behind them. -/
theorem Ordered.handleWrite (h : c.Ordered) {r : Written} {kept : Bool}
    (hg : c.Unhurried (.handleWrite r kept)) (hd : c.handleWrite r kept = some d) : d.Ordered := by
  rw [Exchange.handleWrite] at hd
  obtain ⟨t, ht, hd⟩ := Option.bind_eq_some_iff.mp hd
  rw [Sender.step] at ht
  split_ifs at ht
  -- what is written leaves the buffer
  have hmoved {u : Sender} (hstate : u.conn.state = c.sender.conn.state)
      (hcb : u.conn.writeCompleteCallback = c.sender.conn.writeCompleteCallback)
      (hfile : u.conn.file = none) (hu : u.stream = c.sender.stream) :
      ({ c with sender := u } : Exchange).Ordered :=
    ⟨hfile, hcb.trans h.callback, fun hc => hu ▸ h.connected (hstate ▸ hc), hu ▸ h.stream⟩
  cases Sender.writes ht with
  | finished file f _ hfile => cases h.noFile.symm.trans hfile
  | unfinished file _ hfile => cases h.noFile.symm.trans hfile
  | flushed b f _ hfile _ hall hb hf =>
    refine (ordered_of_idle hd rfl hf (hmoved rfl rfl hfile ?_) ⟨rfl, hb⟩ fun hc => ?_).1
    · simp only [Sender.stream, hb, List.append_nil]
    · exact hg ⟨hc, hall⟩
  | part b _ hfile _ _ hb =>
    cases complete_of_frames hd rfl
    refine hmoved rfl rfl hfile ?_
    simp only [Sender.stream, hb, List.append_assoc, List.take_append_drop]
  | stalled =>
    cases complete_of_frames hd rfl
    exact h

theorem busy_handleWrite {r : Written} {kept : Bool}
    (hcallback : c.sender.conn.writeCompleteCallback = c.writeCompleteCallback.isSome)
    (hd : c.handleWrite r kept = some d) : d.Busy := by
  rw [Exchange.handleWrite] at hd
  obtain ⟨t, ht, hd⟩ := Option.bind_eq_some_iff.mp hd
  rw [Sender.step] at ht
  split_ifs at ht
  refine busy_complete hd fun hlt hwaits _ => ?_
  cases Sender.writes ht with
  | finished => exact absurd (waitingFile_of_not_called hlt rfl hcallback) hwaits
  | unfinished file hwriting => exact hwriting
  | flushed => exact absurd (waitingFile_of_not_called hlt rfl hcallback) hwaits
  | part b hwriting => exact hwriting
  | stalled hwriting => exact hwriting

/-- **One action.** -/
theorem Sound.step (h : c.Sound) {a : Action} (hg : c.Unhurried a) (hd : c.step a = some d) :
    d.Sound := by
  cases a with
  | onRequest request httpCallback buf r => exact h.onRequest hg hd
  | shutdown =>
    cases hd
    exact ⟨h.ordered.shutdown, fun hc => absurd hc (state_shutdown c)⟩
  | handleWrite r kept => exact ⟨h.ordered.handleWrite hg hd, busy_handleWrite h.ordered.callback hd⟩

/-- **When responses leave in order.** In every run of requests with any responses, parse errors and
write events, with any results of `write`: if no request is handled while the file of an earlier
response waits, no `write` of a `send` fails, and the callback of the server keeps the file of a
response whose header is not written at once, then the bytes on the socket are always the beginning
of the responses, one after another. -/
theorem inOrder_of_unhurried {as : List Action} (hg : Runs.Guarded step Unhurried established as) :
    Runs.Always step InOrder established as :=
  fun _ hd _ ht => (Runs.exec_invariant sound_established (fun _ _ _ h ha hs => h.step ha hs)
    (hg.of_done hd) ht).ordered.inOrder

/-- A message at address 0. -/
def held (data : Bytes) (h : data.length < 2 ^ 63) : Message :=
  ⟨fun p => data.getD p.toNat 0, 0, data.length, h⟩

/-- A callback that answers with an empty body. -/
def answerEmpty : HttpRequest → HttpResponse → HttpResponse :=
  fun _ response => { response with statusCode := .k200Ok, statusString := ascii "OK" }

/-- A callback that answers with a file of three bytes. -/
def answerFile : HttpRequest → HttpResponse → HttpResponse :=
  fun _ response =>
    { response with
      statusCode := .k200Ok, statusString := ascii "OK", file := some Sender.threeBytes }

/-- The bytes that `appendToBuffer` writes of both answers, up to the length of the body. -/
def okBytes (length : String) : Bytes :=
  ascii "HTTP/1.1 200 OK" ++ [CR, LF] ++ ascii "Content-Length: " ++ ascii length ++ [CR, LF] ++
    ascii "Connection: Keep-Alive" ++ [CR, LF, CR, LF]

theorem okBytes_zero_lt : (okBytes "0").length < 2 ^ 63 := by decide +kernel

/-- A response in two pieces, a file response whose header is written at once, and another response
after that. -/
def fileThenEmpty : List Action :=
  [.onRequest .new answerEmpty (held (okBytes "0") okBytes_zero_lt) (.count 20),
    .handleWrite (.count 42) false,
    .onRequest .new answerFile (held (okBytes "3") (by decide +kernel)) (.count 62),
    .onRequest .new answerEmpty (held (okBytes "0") okBytes_zero_lt) (.count 30)]

/-- The theorem at work: the file is sent before the next request. -/
theorem inOrder_of_unhurried_two :
    (Runs.exec step established fileThenEmpty).map (fun c => c.sender.accepted) =
      some (okBytes "0" ++ okBytes "3" ++ ascii "xyz" ++ (okBytes "0").take 30) ∧
    Runs.Always step InOrder established fileThenEmpty :=
  ⟨by decide +kernel, inOrder_of_unhurried (by decide +kernel)⟩

/-- **A request between a header and its file**: the second response comes right behind the header of
the first, and the file of the first is closed before it is sent. -/
theorem not_inOrder : ¬ ∀ as : List Action, Runs.Always step InOrder established as := by
  intro hall
  have hrun : (Runs.exec step established
      [.onRequest .new answerFile (held (okBytes "3") (by decide +kernel)) (.count 20),
        .onRequest .new answerEmpty (held (okBytes "0") okBytes_zero_lt) (.count 0),
        .handleWrite (.count 104) false]).map (fun c => (c.sender.accepted, c.responses)) =
      some (okBytes "3" ++ okBytes "0", okBytes "3" ++ ascii "xyz" ++ okBytes "0") := by
    decide +kernel
  obtain ⟨c, hc, hobs⟩ := Option.map_eq_some_iff.mp hrun
  obtain ⟨haccepted, hresponses⟩ := Prod.mk.inj hobs
  have horder := hall _ _ List.prefix_rfl c hc
  rw [InOrder, haccepted, hresponses] at horder
  exact absurd horder (by decide +kernel)

end Exchange

end Http

end Muduo
