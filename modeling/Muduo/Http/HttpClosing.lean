import Muduo.Http.HttpFraming

/-! # Closing after a response

`onRequest` closes the connection after a response if the response says so: it stores a callback in
`writeCompleteCallback_` that calls `shutdown`, or one that sends a file and stores the first one.
`Closing` is a connection with what is stored there and the request it is stored for; an `Answer` is
what has become of one response.

A response says so from the start if the request is HTTP/1.0 without `Connection: keep-alive`, or
has `Connection: closed`, and the callback of the server may change it. A request with
`Connection: close` is not understood. There is one `writeCompleteCallback_`, a file that cannot be
opened never calls it, a file is lost if the header before it is not written at once, and a write
event has no way to send a file. `follows_of_faithful` states that nothing else goes wrong. -/

namespace Muduo

namespace Http

open Net

/-! ## What is asked for -/

/-- A call that `httpCallback_` makes on the response. -/
inductive Setter
  | setHttpStatusCode (code : HttpStatusCode)
  | setStatusString (s : Bytes)
  | addHeader (k v : Bytes)
  | setContentType (contentType : Bytes)
  | setCloseConnection (on : Bool)
  | setBody (body : Bytes)
  /-- `sendFile(fileName)`, with what `File(fileName)` makes of the name: `st_size` is an
  `off_t`. -/
  | sendFile (file : File) (size : file.fileSize.toNat < 2 ^ 63)

/-- The response after a call. -/
def HttpResponse.set (response : HttpResponse) : Setter → HttpResponse
  | .setHttpStatusCode code => { response with statusCode := code }
  | .setStatusString s => { response with statusString := s }
  | .addHeader k v => { response with header := response.header.insert k v }
  | .setContentType contentType =>
    { response with header := response.header.insert (ascii "Content-Type") contentType }
  | .setCloseConnection on => { response with closeConnection := on }
  | .setBody body => { response with body := body }
  | .sendFile file _ => { response with file := some file }

/-- What the last `setCloseConnection` says. -/
def chosen (calls : List Setter) : Option Bool :=
  calls.foldl (fun set call => match call with | .setCloseConnection on => some on | _ => set) none

/-- The file of the last `sendFile`. -/
def given (calls : List Setter) : Option File :=
  calls.foldl (fun set call => match call with | .sendFile file _ => some file | _ => set) none

/-- The request is HTTP/1.1 with `Connection: close`, or HTTP/1.0 without `Connection: keep-alive`.
`addHeader` has stored the value in lower case. -/
def HttpRequest.asksClose (request : HttpRequest) : Bool :=
  (request.version == .kHttp11 && request.getHeader (ascii "connection") == ascii "close") ||
    (request.version == .kHttp10 && request.getHeader (ascii "connection") != ascii "keep-alive")

/-- The request or the callback of the server asks for the connection to be closed. -/
def wanted (request : HttpRequest) (calls : List Setter) : Bool :=
  request.asksClose || chosen calls == some true

/-- The decision of the server is what is asked for: the callback does not keep a connection open
that the request closes, and if it says nothing, the request is HTTP/1.0 or has neither
`Connection: close` nor `Connection: closed`. -/
def Understood (request : HttpRequest) (calls : List Setter) : Prop :=
  match chosen calls with
  | some on => on = false → request.asksClose = false
  | none =>
    request.version = .kHttp10 ∨
      request.getHeader (ascii "connection") ≠ ascii "closed" ∧
        (request.version = .kHttp11 → request.getHeader (ascii "connection") ≠ ascii "close")

instance (request : HttpRequest) (calls : List Setter) : Decidable (Understood request calls) := by
  rw [Understood]
  split <;> infer_instance

/-- The response of the server. -/
def respond (request : HttpRequest) (calls : List Setter) : HttpResponse :=
  calls.foldl .set (.new request.closes)

/-! ## The connection -/

/-- What has become of a response. -/
structure Answer where
  /-- The state of the connection when the request was handled. -/
  state : State
  /-- The connection is to be closed after the response. -/
  wanted : Bool
  /-- What `appendToBuffer` has written. -/
  head : Bytes
  /-- The length of the output of the connection up to and with these bytes. -/
  stop : ℕ
  /-- The size of the file, or 0 if there is none. -/
  fileSize : ℕ
  /-- The number of bytes of the file that the socket has accepted. -/
  fileSent : ℕ
  /-- For each call of `shutdown` on account of the request: the response was written by then. -/
  shutdowns : List Bool

namespace Answer

/-- The last byte is written, where the socket has accepted `n` bytes. -/
def Complete (a : Answer) (n : ℕ) : Prop := a.stop ≤ n ∧ a.fileSent = a.fileSize

instance (a : Answer) (n : ℕ) : Decidable (a.Complete n) := inferInstanceAs (Decidable (_ ∧ _))

/-- There is a line `Connection: close`. -/
def CarriesClose (a : Answer) : Prop :=
  [CR, LF] ++ ascii "Connection: close" ++ [CR, LF] <:+: a.head

instance (a : Answer) : Decidable a.CarriesClose := inferInstanceAs (Decidable (_ <:+: _))

/-- Closing follows the request: there is one call of `shutdown`, and there is one only after the
last byte, or there is none. -/
def Follows (a : Answer) (n : ℕ) : Prop :=
  if a.wanted = true then a.CarriesClose ∧ a.shutdowns = if a.Complete n then [true] else []
  else a.shutdowns = []

instance (a : Answer) (n : ℕ) : Decidable (a.Follows n) := by
  rw [Follows]
  split <;> infer_instance

end Answer

/-- The size of the file of a response: nothing is sent of a file that could not be opened. -/
def HttpResponse.fileLength (response : HttpResponse) : ℕ :=
  response.file.elim 0 fun file => if file.fd < 0 then 0 else file.fileSize.toNat

/-- The callback closes the connection in the end. -/
def WriteComplete.closes : WriteComplete → Bool
  | .closeConnection => true
  | .sendFile closeConn _ => closeConn

/-- A connection of the server, in its loop. -/
structure Closing where
  /-- The connection. -/
  sender : Sender
  /-- `writeCompleteCallback_`, with the index of the request it is stored for. -/
  writeCompleteCallback : Option (ℕ × WriteComplete)
  /-- The responses to the requests so far. -/
  answers : List Answer

namespace Closing

/-- A connection after `onConnection`. -/
def established : Closing := ⟨.established false, none, []⟩

/-- `conn->setWriteCompleteCallback(cb)`. -/
def setWriteCompleteCallback (c : Closing) (cb : Option (ℕ × WriteComplete)) : Closing :=
  { c with
    sender := { c.sender with conn := { c.sender.conn with writeCompleteCallback := cb.isSome } }
    writeCompleteCallback := cb }

/-- `shutdown`, in the loop thread. The call of `socket_->shutdownWrite()` is left out. -/
def shutdown (c : Closing) : Closing :=
  if c.sender.conn.state = .kConnected then
    { c with sender := { c.sender with conn := { c.sender.conn with state := .kDisConnecting } } }
  else c

/-- A call of the connection has led to `t`. If it is inside `writeCompleteCallback_` now, the
callback runs and returns to it. -/
def complete (c : Closing) (t : Sender) (callback : Closing → Option Closing) : Option Closing :=
  if c.sender.frames.length < t.frames.length then
    (callback { c with sender := t }).bind fun d =>
      (d.sender.step .callbackReturns).map fun u => { d with sender := u }
  else some { c with sender := t }

/-- `HttpServer::closeConnection`, stored for request `i`. -/
def closeConnection (c : Closing) (i : ℕ) : Closing :=
  { c.shutdown with
    answers := c.answers.modify i fun a =>
      { a with shutdowns := a.shutdowns ++ [decide (a.Complete c.sender.accepted.length)] } }

/-- `HttpServer::sendFile`, stored for request `i`, where the file is `kept` by someone besides
`writeCompleteCallback_`, or it is closed as soon as that is set. `sendfile` answers `σ` if it is
called for an open file; what `sendFileInLoop` calls after that is what has just been stored. -/
def sendFile (c : Closing) (i : ℕ) (closeConn : Bool) (file : File) (σ : Written) (kept : Bool) :
    Option Closing :=
  let c := c.setWriteCompleteCallback (if closeConn then some (i, .closeConnection) else none)
  (c.sender.sendFile file (whileKept kept σ)).bind fun t =>
    { c with
      answers := c.answers.modify i fun a =>
        { a with fileSent := a.fileSent + (t.accepted.length - c.sender.accepted.length) }
      }.complete t fun d => some (d.closeConnection i)

/-- A call of `writeCompleteCallback_`, where a file that it sends is `kept` by someone else. -/
def writeComplete (σ : Written) (kept : Bool) (c : Closing) : Option Closing :=
  match c.writeCompleteCallback with
  | none => some c
  | some (i, .closeConnection) => some (c.closeConnection i)
  | some (i, .sendFile closeConn file) => c.sendFile i closeConn file σ kept

/-- What `onRequest` stores in `writeCompleteCallback_` for request `i`. -/
def prepare (c : Closing) (i : ℕ) (response : HttpResponse) : Closing :=
  match response.file with
  | some file => c.setWriteCompleteCallback (some (i, .sendFile response.closeConnection file))
  | none =>
    if response.closeConnection then c.setWriteCompleteCallback (some (i, .closeConnection)) else c

/-- `HttpServer::onRequest`, where the response is written to the memory `buf`, `write` answers `r`
and `sendfile` answers `σ` if they are called. A file of the response is kept by the response until
the end. -/
def onRequest (c : Closing) (request : HttpRequest)
    (httpCallback : HttpRequest → HttpResponse → List Setter) (buf : Message) (r σ : Written) :
    Option Closing :=
  let calls := httpCallback request (.new request.closes)
  let response := respond request calls
  if buf.bytes = (response.appendToBuffer .new).bytes then
    let c := c.prepare c.answers.length response
    (c.sender.send buf r).bind fun t =>
      let answer : Answer :=
        { state := c.sender.conn.state
          wanted := wanted request calls
          head := buf.bytes
          stop := t.stream.length
          fileSize := response.fileLength
          fileSent := 0
          shutdowns := [] }
      { c with answers := c.answers ++ [answer] }.complete t (writeComplete σ response.file.isSome)
  else none

/-- `handleWrite`, where `write` or `sendfile` answers `r`, `sendfile` answers `σ` if the callback
calls it, and a file that waits is `kept` by the callback of the server. -/
def handleWrite (c : Closing) (r σ : Written) (kept : Bool) : Option Closing :=
  (c.sender.step (.handleWrite r)).bind fun t => c.complete t (writeComplete σ kept)

/-- What the loop does with the connection. -/
inductive Action
  /-- A request is complete. -/
  | onRequest (request : HttpRequest) (httpCallback : HttpRequest → HttpResponse → List Setter)
    (buf : Message) (r σ : Written)
  /-- A request cannot be parsed. -/
  | shutdown
  | handleWrite (r σ : Written) (kept : Bool)

/-- One action. -/
def step (c : Closing) : Action → Option Closing
  | .onRequest request httpCallback buf r σ => c.onRequest request httpCallback buf r σ
  | .shutdown => some c.shutdown
  | .handleWrite r σ kept => c.handleWrite r σ kept

/-- **Closing follows the requests** that were handled in state `kConnected`. -/
def Follows (c : Closing) : Prop :=
  ∀ a ∈ c.answers, a.state = .kConnected → a.Follows c.sender.accepted.length

instance (c : Closing) : Decidable c.Follows := inferInstanceAs (Decidable (∀ _ ∈ _, _))

/-! ## When it does -/

/-- What is stored closes the connection in the end. -/
def closing (c : Closing) : Bool := c.writeCompleteCallback.any fun cb => cb.2.closes

/-- The file that is stored with this. -/
def closingFile (c : Closing) : Option File :=
  match c.writeCompleteCallback with
  | some (_, .sendFile true file) => some file
  | _ => none

/-- `sendfile` does not fail on an empty file. -/
def Passes (file : File) (σ : Written) : Prop := file.fileSize = 0 → ∃ n, σ = .count n

instance (file : File) (σ : Written) : Decidable (Passes file σ) :=
  inferInstanceAs (Decidable (_ → _))

/-- No request is handled while a closing response is being written. In state `kConnected` the
request is understood, and the file of a closing response could be opened. While a closing response
is being written, no parse error drops its file, no write event has a file to send, and the write
event that comes to its file finds it kept. -/
def Faithful (c : Closing) : Action → Prop
  | .onRequest request httpCallback _ _ σ =>
    (c.sender.conn.writing = true → c.closing = false) ∧
      (c.sender.conn.state = .kConnected →
        Understood request (httpCallback request (.new request.closes)) ∧
          (wanted request (httpCallback request (.new request.closes)) = true →
            ∀ file ∈ given (httpCallback request (.new request.closes)),
              0 ≤ file.fd ∧ Passes file σ))
  | .shutdown => c.sender.conn.state = .kConnected → c.closingFile = none
  | .handleWrite r σ kept =>
    (c.closing = true → c.sender.conn.file = none) ∧
      (Flushes c.sender r → ∀ file ∈ c.closingFile, kept = true ∧ Passes file σ)

instance (c : Closing) : ∀ a, Decidable (c.Faithful a)
  | .onRequest .. => inferInstanceAs (Decidable ((_ → _) ∧ (_ → _ ∧ (_ → ∀ _ ∈ _, _ ∧ _))))
  | .shutdown => inferInstanceAs (Decidable (_ → _))
  | .handleWrite .. => inferInstanceAs (Decidable ((_ → _) ∧ (_ → ∀ _ ∈ _, _ ∧ _)))

end Closing

/-! ## What the response says -/

section

variable (request : HttpRequest) (calls : List Setter)

/-- The last `setCloseConnection` decides, and `onRequest` if there is none. -/
theorem closeConnection_respond :
    (respond request calls).closeConnection = (chosen calls).getD request.closes := by
  suffices h : ∀ (r : HttpResponse) (o : Option Bool), r.closeConnection = o.getD request.closes →
      (calls.foldl .set r).closeConnection = (calls.foldl (fun set call =>
        match call with | .setCloseConnection on => some on | _ => set) o).getD request.closes from
    h _ none rfl
  induction calls with
  | nil => exact fun _ _ hr => hr
  | cons call calls ih =>
    intro r o hr
    refine ih _ _ ?_
    cases call with
    | setCloseConnection on => rfl
    | _ => exact hr

theorem file_respond : (respond request calls).file = given calls := by
  suffices h : ∀ r : HttpResponse, (calls.foldl .set r).file = calls.foldl (fun set call =>
      match call with | .sendFile file _ => some file | _ => set) r.file from h _
  induction calls with
  | nil => exact fun _ => rfl
  | cons call calls ih =>
    intro r
    rw [List.foldl_cons, ih, List.foldl_cons]
    cases call <;> rfl

variable {calls} in
theorem size_given {file : File} (h : file ∈ given calls) : file.fileSize.toNat < 2 ^ 63 := by
  suffices hall : ∀ o : Option File, (∀ f ∈ o, f.fileSize.toNat < 2 ^ 63) →
      ∀ f ∈ calls.foldl
          (fun set call => match call with | .sendFile file _ => some file | _ => set) o,
        f.fileSize.toNat < 2 ^ 63 from hall none nofun file h
  clear h
  induction calls with
  | nil => exact fun _ ho => ho
  | cons call calls ih =>
    intro o ho
    refine ih _ ?_
    cases call with
    | sendFile file size =>
      rintro f ⟨⟩
      exact size
    | _ => exact ho

theorem closes_iff : request.closes = true ↔
    request.getHeader (ascii "connection") = ascii "closed" ∨
      request.version = .kHttp10 ∧ request.getHeader (ascii "connection") ≠ ascii "keep-alive" := by
  simp [HttpRequest.closes]

theorem asksClose_iff : request.asksClose = true ↔
    request.version = .kHttp11 ∧ request.getHeader (ascii "connection") = ascii "close" ∨
      request.version = .kHttp10 ∧ request.getHeader (ascii "connection") ≠ ascii "keep-alive" := by
  simp [HttpRequest.asksClose]

/-- What the server decides by itself, and what the request asks for. -/
theorem closes_eq_asksClose_iff : request.closes = request.asksClose ↔
    request.version = .kHttp10 ∨ request.getHeader (ascii "connection") ≠ ascii "closed" ∧
      (request.version = .kHttp11 → request.getHeader (ascii "connection") ≠ ascii "close") := by
  have hclose : ascii "close" ≠ ascii "closed" := by decide
  have hkeep : ascii "closed" ≠ ascii "keep-alive" := by decide
  rw [Bool.eq_iff_iff, closes_iff, asksClose_iff]
  generalize request.getHeader (ascii "connection") = connection
  generalize ascii "close" = close at *
  generalize ascii "closed" = closed at *
  cases request.version with
  | kHttp10 => grind
  | kHttp11 => grind
  | kUnkown => grind

/-- **The condition on the request and the callback is exact.** -/
theorem understood_iff :
    Understood request calls ↔ (respond request calls).closeConnection = wanted request calls := by
  rw [closeConnection_respond, Understood, wanted]
  cases chosen calls with
  | some on =>
    cases on with
    | true => simp
    | false => cases request.asksClose <;> simp
  | none => simp [closes_eq_asksClose_iff]

/-- **`Connection: close` in any letter case** is what the header map holds as `close`. -/
theorem asksClose_addHeader {k v : Bytes} (hversion : request.version = .kHttp11)
    (hk : normalize k = ascii "connection") (hv : normalize v = ascii "close") :
    (request.addHeader k v).asksClose = true := by
  have hversion' : (request.addHeader k v).version = .kHttp11 := hversion
  rw [HttpRequest.asksClose, hversion', HttpRequest.getHeader_addHeader, if_pos hk, hv]
  rfl

end

/-- A response that closes the connection says so. -/
theorem carriesClose_of_closes {response : HttpResponse} (h : response.closeConnection = true) :
    [CR, LF] ++ ascii "Connection: close" ++ [CR, LF] <:+:
      (response.appendToBuffer .new).bytes := by
  rw [HttpResponse.bytes_appendToBuffer, HttpResponse.connectionBytes, if_pos h]
  refine ⟨response.statusLine, unlines (response.header.toList.map headerLine) ++
    CR :: LF :: response.body, ?_⟩
  simp only [List.append_assoc, List.cons_append, List.nil_append]

end Http

end Muduo
