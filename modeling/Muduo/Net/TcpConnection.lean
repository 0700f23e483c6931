import Muduo.Net.Buffer
import Muduo.Foundations.Memory
import Muduo.Foundations.Runs

/-! # `TcpConnection`: sending

The output side of `muduo/net/TcpConnection.cc` in the loop thread. A `Sender` is the connection,
the bytes the kernel has accepted for its socket, and the calls that are waiting for
`writeCompleteCallback_` to return: the callback may call `send` and `sendFile` again, so an action
happens either between two events or inside a callback.

The arithmetic is that of the code: `nwrote` and `remain` are `size_t`, the result `-1` of `write`
and `sendfile` included, and `buf + nwrote` is an address. -/

namespace Muduo

namespace Net

/-- `errno` after a failed `write` or `sendfile`. -/
inductive Errno
  | EAGAIN
  | EPIPE
  | ECONNRESET
  | EBADF
deriving DecidableEq, Repr

/-- The result of `write` and `sendfile`: a count, or `-1` with `errno` set. -/
inductive Written
  | count (n : ℕ)
  | failed (e : Errno)
deriving DecidableEq, Repr

namespace Written

/-- The result as a `size_t`. -/
def toSize : Written → BitVec 64
  | count n => BitVec.ofNat 64 n
  | failed _ => -1

/-- The number of bytes taken by the kernel. -/
def taken : Written → ℕ
  | count n => n
  | failed _ => 0

/-- `errno == EPIPE || errno == ECONNRESET`. -/
def isFault : Written → Bool
  | count _ => false
  | failed e => e == .EPIPE || e == .ECONNRESET

end Written

/-- The arguments `buf` and `len` of a call, in the memory at the time of the call. An object has
fewer than `2 ^ 63` bytes. -/
structure Message where
  /-- The memory. -/
  mem : Memory
  /-- `buf`. -/
  buf : BitVec 64
  /-- `len`. -/
  len : ℕ
  /-- The bound on the size of an object. -/
  len_lt : len < 2 ^ 63

/-- The bytes of a message. -/
def Message.bytes (m : Message) : Bytes := m.mem.read m.buf m.len

/-- `File`, with the bytes from its current offset on. -/
structure File where
  /-- `fd_`. -/
  fd : ℤ
  /-- `fileSize_`. -/
  fileSize : BitVec 64
  /-- What the kernel reads next. -/
  unread : Bytes

/-- `TcpConnection::State`. -/
inductive State
  | kConnecting
  | kConnected
  | kDisConnecting
  | kDisConnected
deriving DecidableEq, Repr

/-- The members of `TcpConnection` that sending uses. -/
structure TcpConnection where
  /-- `state_`. -/
  state : State
  /-- `sockChannel_->isWriting()`. -/
  writing : Bool
  /-- `file_`. -/
  file : Option File
  /-- `fileWrote_`. -/
  fileWrote : BitVec 64
  /-- `outputBuffer_`. -/
  outputBuffer : ByteBuffer
  /-- `writeCompleteCallback_` is set. -/
  writeCompleteCallback : Bool

/-- A call that has called `writeCompleteCallback_`, with the locals it goes on with. -/
inductive Frame
  | sendInLoop (m : Message) (nwrote remain : BitVec 64) (faultError : Bool)
  | sendFileInLoop (file : File) (remain : BitVec 64) (faultError : Bool)
  | handleWrite

/-- A connection in its loop. -/
structure Sender where
  /-- The connection. -/
  conn : TcpConnection
  /-- The bytes that the kernel has accepted. -/
  accepted : Bytes
  /-- The calls inside which `writeCompleteCallback_` is running, innermost first. -/
  frames : List Frame
  /-- The messages sent so far, one after another. -/
  sent : Bytes

namespace Sender

/-- A connection after `connectEstablished`. -/
def established (callback : Bool) : Sender where
  conn := ⟨.kConnected, false, none, 0, .new, callback⟩
  accepted := []
  frames := []
  sent := []

/-- `write(fd, bytes)`: the kernel takes no more than it is given. -/
def accept (s : Sender) (bytes : Bytes) (r : Written) : Option Sender :=
  if r.taken ≤ bytes.length then some { s with accepted := s.accepted ++ bytes.take r.taken }
  else none

/-- Call `writeCompleteCallback_` in the middle of a call. -/
def callback (s : Sender) (f : Frame) : Sender := { s with frames := f :: s.frames }

/-- `sockChannel_->enableWriting()`, unless it is on. -/
def enableWriting (s : Sender) : Sender := { s with conn := { s.conn with writing := true } }

/-- The end of `sendInLoop`: what was not written is buffered. -/
def bufferRest (s : Sender) (m : Message) (nwrote remain : BitVec 64) (faultError : Bool) :
    Sender :=
  if 0 < remain ∧ faultError = false then
    enableWriting { s with conn := { s.conn with
      outputBuffer := s.conn.outputBuffer.append (m.mem.read (m.buf + nwrote) remain.toNat) } }
  else s

/-- `sendInLoop` writes to the socket itself. -/
def DirectWrite (s : Sender) : Prop :=
  s.conn.state = .kConnected ∧ s.conn.writing = false ∧ s.conn.outputBuffer.readableBytes = 0

instance (s : Sender) : Decidable s.DirectWrite := inferInstanceAs (Decidable (_ ∧ _ ∧ _))

/-- `sendInLoop(buf, len)` in state `kConnected`. `nwrote >= 0` holds of every `size_t`. -/
def sendInLoop (s : Sender) (m : Message) (r : Written) : Option Sender :=
  if s.conn.writing = false ∧ s.conn.outputBuffer.readableBytes = 0 then
    (s.accept m.bytes r).map fun s =>
      if r.toSize ≥ 0 then
        -- `remain=len-nwrote`, and the callback runs before the test of `remain` below
        if BitVec.ofNat 64 m.len - r.toSize = 0 ∧ s.conn.writeCompleteCallback = true then
          s.callback (.sendInLoop m r.toSize (BitVec.ofNat 64 m.len - r.toSize) false)
        else s.bufferRest m r.toSize (BitVec.ofNat 64 m.len - r.toSize) false
      -- `nwrote=0`, and `faultError` for two values of `errno`
      else s.bufferRest m 0 (BitVec.ofNat 64 m.len) r.isFault
  -- something is pending: `nwrote` is still `0` and `remain` is still `len`
  else some (s.bufferRest m 0 (BitVec.ofNat 64 m.len) false)

/-- `send`, in any of its forms, in the loop thread. -/
def send (s : Sender) (m : Message) (r : Written) : Option Sender :=
  if s.conn.state = .kConnected then { s with sent := s.sent ++ m.bytes }.sendInLoop m r
  else some s

/-- The end of `sendFileInLoop`: the file is kept until it is written. -/
def keepFile (s : Sender) (file : File) (remain : BitVec 64) (faultError : Bool) : Sender :=
  if 0 < remain ∧ faultError = false then
    enableWriting { s with conn := { s.conn with file := some file } }
  else s

/-- `sendFileInLoop(file)`; it asserts that no file is being sent. -/
def sendFileInLoop (s : Sender) (file : File) (r : Written) : Option Sender :=
  if s.conn.file.isSome then none
  else if file.fd < 0 then some { s with conn := { s.conn with fileWrote := 0 } }
  else if s.conn.writing = false ∧ s.conn.outputBuffer.readableBytes = 0 then
    (s.accept (file.unread.take file.fileSize.toNat) r).map fun s =>
      -- `sendfile` moves the offset of the descriptor
      let file : File := { file with unread := file.unread.drop r.taken }
      let remain := file.fileSize - r.toSize
      -- `nwrote>=0` holds, so a `-1` is added to `fileWrote_` as well
      let s : Sender := { s with conn := { s.conn with
        fileWrote := if remain = 0 then 0 else r.toSize } }
      if remain = 0 ∧ s.conn.writeCompleteCallback = true then
        s.callback (.sendFileInLoop file remain false)
      else s.keepFile file remain false
  else some ({ s with conn := { s.conn with fileWrote := 0 } }.keepFile file file.fileSize false)

/-- `sendFile(file)` in the loop thread. -/
def sendFile (s : Sender) (file : File) (r : Written) : Option Sender :=
  if s.conn.state = .kConnected then s.sendFileInLoop file r else some s

/-- `handleWrite` while a file is being sent. `sendfile` is called with the file as its target and
the socket as its source, so no byte goes to the socket. -/
def handleWriteFile (s : Sender) (file : File) (r : Written) : Sender :=
  if s.conn.fileWrote + r.toSize = file.fileSize then
    -- `outputBuffer_` is not looked at
    let s : Sender :=
      { s with conn := { s.conn with writing := false, file := none, fileWrote := 0 } }
    if s.conn.writeCompleteCallback = true then s.callback .handleWrite else s
  else { s with conn := { s.conn with fileWrote := s.conn.fileWrote + r.toSize } }

/-- `handleWrite` while buffered bytes are being sent. -/
def handleWriteBuffer (s : Sender) (r : Written) : Option Sender :=
  (s.accept s.conn.outputBuffer.bytes r).map fun s =>
    if r.taken > 0 then
      let s : Sender := { s with conn := { s.conn with
        outputBuffer := s.conn.outputBuffer.retrieve r.taken } }
      if s.conn.outputBuffer.readableBytes = 0 then
        let s : Sender := { s with conn := { s.conn with writing := false } }
        if s.conn.writeCompleteCallback = true then s.callback .handleWrite else s
      else s
    -- nothing taken, or an error: the next write event tries again
    else s

/-- `handleWrite`; it asserts that the channel is writing. -/
def handleWrite (s : Sender) (r : Written) : Option Sender :=
  if s.conn.writing = true then
    match s.conn.file with
    | some file => some (s.handleWriteFile file r)
    | none => s.handleWriteBuffer r
  else none

/-- `writeCompleteCallback_` returns to the call that made it. -/
def resume (s : Sender) : Frame → Sender
  | .sendInLoop m nwrote remain faultError => s.bufferRest m nwrote remain faultError
  | .sendFileInLoop file remain faultError => s.keepFile file remain faultError
  | .handleWrite => s

/-- What can happen to a connection in its loop thread, with the kernel's results. -/
inductive Action
  | send (m : Message) (r : Written)
  | sendFile (file : File) (r : Written)
  | setWriteCompleteCallback (on : Bool)
  | handleWrite (r : Written)
  | callbackReturns

/-- One action. Events are dispatched between callbacks only. -/
def step (s : Sender) : Action → Option Sender
  | .send m r => s.send m r
  | .sendFile file r => s.sendFile file r
  | .setWriteCompleteCallback on =>
    some { s with conn := { s.conn with writeCompleteCallback := on } }
  | .handleWrite r => if s.frames.isEmpty then s.handleWrite r else none
  | .callbackReturns =>
    match s.frames with
    | [] => none
    | f :: frames => some ({ s with frames := frames }.resume f)

end Sender

end Net

end Muduo
