import Muduo.Http.HttpOutput
import Muduo.Http.HttpServer

/-! # `HttpServer`: from the bytes of the peer to the bytes of the answers

`HttpConnection` is all that `HttpServer` has of a connection: the `Session` that parses what
arrives, and the `Exchange` that sends the responses. `onMessage` hands over at most one request, so
that of several requests in one event the later ones are left to the events that follow.

* **`Session.handed_in_order`**: for every stream of requests and every way of cutting it, also
  through several requests at a time, the requests are handed over as they were sent, each once and
  in order, and every event hands over the next one that has arrived;
* **`HttpConnection.responses_in_order`**: the bytes on the socket are the beginning of the responses
  to these requests, and nothing else. -/

namespace Muduo

namespace Http

open Net HttpContext ByteStream

variable {heads done rest : List RequestHead} {segs : List Bytes} {x data z : Bytes} {t : Session}

/-! ## What is handed over -/

/-- The heads `done` have been handed over. Of the bytes that follow them `x` have arrived, which may
be many heads, and the parser has come from a fresh context over `x` to where it is. -/
structure Behind (done : List RequestHead) (x : Bytes) (t : Session) : Prop where
  noErr : t.failed = false
  handed_eq : t.handed = done.map RequestHead.request
  steps : Loop.Steps round (.new, x) (t.context, t.inputBuffer.bytes)

theorem behind_new : Behind [] [] .new :=
  ⟨rfl, rfl, by
    rw [Session.new, ByteBuffer.bytes_new]
    exact .refl _⟩

theorem encodeAll_cons (h : RequestHead) (heads : List RequestHead) :
    encodeAll (h :: heads) = h.encode ++ encodeAll heads := by
  simp [encodeAll]

theorem encodeAll_append (done rest : List RequestHead) :
    encodeAll (done ++ rest) = encodeAll done ++ encodeAll rest := by
  simp [encodeAll]

/-- **One event.** If the next head has not arrived, nothing is handed over; if it has, it is handed
over, and only it. -/
theorem Behind.handleRead (hs : Behind done x t) (hget : ∀ h ∈ rest, h.method ≠ .kPost)
    (hz : x ++ data ++ z = encodeAll rest) :
    InHead rest (x ++ data) ∧ Behind done (x ++ data) (t.handleRead data) ∨
      ∃ h rest' m, rest = h :: rest' ∧ x ++ data = h.encode ++ m ∧
        Behind (done ++ [h]) m (t.handleRead data) := by
  have hevals (r) : Loop.Evals round (t.context, t.inputBuffer.bytes ++ data) r ↔
      Loop.Evals round (.new, x ++ data) r := ((steps_append hs.steps data).evals_iff).symm
  -- the parser waits for the rest of the head
  have hwait {c : HttpContext} {x' : Bytes} (hw : Waiting c)
      (hsteps : Loop.Steps round (.new, x ++ data) (c, x'))
      (hev : Loop.Evals round (.new, x ++ data) (true, c, x')) :
      Behind done (x ++ data) (t.handleRead data) := by
    obtain ⟨hf, hh, hc, hb⟩ := Session.handleRead_of_waiting hw ((hevals _).mpr hev)
    exact ⟨hf, hh.trans hs.handed_eq, by rwa [hc, hb]⟩
  cases rest with
  | nil =>
    have hnil : x ++ data = [] := (List.append_eq_nil_iff.mp hz).1
    have hstop : Stop (.new, []) (true, .new, []) := .noLine (.inl rfl) rfl
    refine .inl ⟨hnil, hwait (.inl rfl : Waiting new) (by rw [hnil]; exact .refl _) ?_⟩
    rw [hnil]
    exact .stop hstop.round_eq
  | cons h rest =>
    rw [encodeAll_cons] at hz
    by_cases hlt : (x ++ data).length < h.encode.length
    · obtain ⟨y, hne, hy⟩ := Segments.exists_missing ⟨z, hz⟩ (List.prefix_append _ _) hlt
      obtain ⟨c, x', hsteps, hw, hev⟩ := h.steps_beginning .new hy hne
      exact .inl ⟨⟨y, hne, hy⟩, hwait hw hsteps hev⟩
    · -- the head is there, and `m` follows it
      obtain ⟨m, hm⟩ := List.prefix_of_prefix_length_le (List.prefix_append _ _) ⟨z, hz⟩
        (not_lt.mp hlt)
      have hev := h.evals_encode .new (hget h List.mem_cons_self) m
      rw [hm] at hev
      obtain ⟨hf, hh, hc, hb⟩ := Session.handleRead_of_gotAll ((hevals _).mpr hev)
      refine .inr ⟨h, rest, m, rfl, hm.symm, hf, ?_, ?_⟩
      · rw [hh, hs.handed_eq, List.map_append]
        rfl
      · rw [hc, hb]
        exact reset_fill h ▸ .refl _

/-- Of the stream of `heads` the bytes `arrived` have come, and `done` has been handed over. -/
def Serving (heads done : List RequestHead) (arrived : Bytes) (t : Session) : Prop :=
  ∃ rest x, heads = done ++ rest ∧ arrived = encodeAll done ++ x ∧ Behind done x t

theorem serving_new (heads : List RequestHead) : Serving heads [] [] .new :=
  ⟨heads, [], rfl, rfl, behind_new⟩

/-- **What an event hands over**, of a stream of requests without a body. -/
theorem Serving.handleRead {arrived : Bytes} (hs : Serving heads done arrived t)
    (hget : ∀ h ∈ heads, h.method ≠ .kPost) (hle : arrived ++ data <+: encodeAll heads) :
    (completeIn heads (arrived ++ data).length = done.length ∧
        Serving heads done (arrived ++ data) (t.handleRead data)) ∨
      done.length + 1 ≤ completeIn heads (arrived ++ data).length ∧
        ∃ h ∈ heads, Serving heads (done ++ [h]) (arrived ++ data) (t.handleRead data) := by
  obtain ⟨rest, x, rfl, rfl, hb⟩ := hs
  obtain ⟨z, hz⟩ := hle
  rw [encodeAll_append, List.append_assoc, List.append_assoc, List.append_cancel_left_eq,
    ← List.append_assoc] at hz
  have hrest : ∀ h ∈ rest, h.method ≠ .kPost := fun h hh => hget h (List.mem_append_right _ hh)
  rw [List.append_assoc, List.length_append, completeIn_append]
  rcases hb.handleRead hrest hz with ⟨hin, hb'⟩ | ⟨h, rest', m, rfl, hm, hb'⟩
  · refine .inl ⟨?_, rest, x ++ data, rfl, rfl, hb'⟩
    rw [hin.completeIn_eq, Nat.add_zero]
  · refine .inr ⟨?_, h, by simp, rest', m, by simp, ?_, hb'⟩
    · rw [hm, List.length_append, completeIn, if_pos (Nat.le_add_right _ _)]
      omega
    · rw [hm, encodeAll_append, List.append_assoc]
      simp [encodeAll]

theorem Serving.spec {arrived : Bytes} (hs : Serving heads done arrived t) :
    t.failed = false ∧ t.handed = done.map RequestHead.request ∧ heads.take done.length = done := by
  obtain ⟨rest, x, rfl, -, hb⟩ := hs
  exact ⟨hb.noErr, hb.handed_eq, List.take_left⟩

theorem Serving.length_handed {arrived : Bytes} (hs : Serving heads done arrived t) :
    t.handed.length = done.length := by
  rw [hs.spec.2.1, List.length_map]

/-- Every run serves the stream. -/
theorem serving_serve (hget : ∀ h ∈ heads, h.method ≠ .kPost)
    (hsegs : segs.flatten <+: encodeAll heads) :
    ∃ done, Serving heads done segs.flatten (Session.serve segs) := by
  induction segs using List.reverseRecOn with
  | nil => exact ⟨[], serving_new heads⟩
  | append_singleton segs data ih =>
    have hflat : (segs ++ [data]).flatten = segs.flatten ++ data := by simp
    rw [hflat] at hsegs ⊢
    obtain ⟨done, hs⟩ := ih ((List.prefix_append _ _).trans hsegs)
    rw [Session.serve_concat]
    rcases hs.handleRead hget hsegs with ⟨-, hs'⟩ | ⟨-, h, -, hs'⟩
    · exact ⟨done, hs'⟩
    · exact ⟨done ++ [h], hs'⟩

/-- **Requests are handed over as they were sent.** For every stream of `GET` and `HEAD` requests and
every way of cutting it into events, several requests at a time or one in many pieces: no event ends
with an error; the requests handed over are the first ones of the stream, with all that they say, each
once and in order; and an event hands over one request more, unless no further one has arrived. -/
theorem Session.handed_in_order (hget : ∀ h ∈ heads, h.method = .kGet ∨ h.method = .kHead)
    (hsegs : segs.flatten <+: encodeAll heads) :
    (∀ done, done <+: segs → (serve done).failed = false ∧
      (serve done).handed = (heads.take (serve done).handed.length).map RequestHead.request) ∧
    ∀ done data, done ++ [data] <+: segs → (serve (done ++ [data])).handed.length =
      min ((serve done).handed.length + 1) (completeIn heads (done ++ [data]).flatten.length) := by
  have hpost : ∀ h ∈ heads, h.method ≠ .kPost := by
    intro h hh
    rcases hget h hh with hm | hm <;> simp [hm]
  constructor
  · intro segs' hpre
    obtain ⟨done, hs⟩ := serving_serve hpost ((flatten_of_done hpre).trans hsegs)
    obtain ⟨hok, hhanded, htake⟩ := hs.spec
    rw [hs.length_handed, htake]
    exact ⟨hok, hhanded⟩
  · intro segs' data hpre
    have hsegs' := (flatten_of_done hpre).trans hsegs
    have hflat : (segs' ++ [data]).flatten = segs'.flatten ++ data := by simp
    rw [hflat] at hsegs' ⊢
    obtain ⟨done, hs⟩ := serving_serve hpost ((List.prefix_append _ _).trans hsegs')
    rw [Session.serve_concat, hs.length_handed]
    rcases hs.handleRead hpost hsegs' with ⟨hcount, hs'⟩ | ⟨hcount, h, -, hs'⟩
    · rw [hs'.length_handed, hcount]
      omega
    · rw [hs'.length_handed, List.length_append, List.length_singleton]
      omega

/-- Three requests in one event, and then two pieces of a fourth. -/
def threeAtOnce : List Bytes := [encodeAll [plainGet, plainGet, plainGet], ascii "G", ascii "E"]

/-- The theorem at work: each event hands over one of them. -/
theorem Session.handed_in_order_threeAtOnce :
    (serve threeAtOnce).handed = [plainGet.request, plainGet.request, plainGet.request] := by
  have hsegs : threeAtOnce.flatten <+: encodeAll [plainGet, plainGet, plainGet, plainGet] := by
    decide +kernel
  obtain ⟨hall, hstep⟩ := handed_in_order (by decide) hsegs
  have hfirst : (serve (threeAtOnce.take 1)).handed.length = 1 :=
    (hstep [] _ (by decide +kernel)).trans (by decide +kernel)
  have hsecond : (serve (threeAtOnce.take 2)).handed.length = 2 := by
    refine (hstep (threeAtOnce.take 1) (ascii "G") (by decide +kernel)).trans ?_
    rw [hfirst]
    decide +kernel
  have hthird : (serve threeAtOnce).handed.length = 3 := by
    refine (hstep (threeAtOnce.take 2) (ascii "E") (by decide +kernel)).trans ?_
    rw [hsecond]
    decide +kernel
  have hhanded := (hall threeAtOnce List.prefix_rfl).2
  rwa [hthird] at hhanded

/-! ## What is answered -/

namespace Exchange

variable {c d : Exchange}

/-- Nothing but a request adds a response. -/
@[simp] theorem responses_shutdown (c : Exchange) : c.shutdown.responses = c.responses := by
  rw [Exchange.shutdown]
  split_ifs <;> rfl

theorem responses_complete {u : Sender} {callback : Exchange → Option Exchange}
    (hd : c.complete u callback = some d)
    (hcb : ∀ b e, callback b = some e → e.responses = b.responses) : d.responses = c.responses := by
  rw [complete] at hd
  split_ifs at hd
  · obtain ⟨e, he, hd⟩ := Option.bind_eq_some_iff.mp hd
    obtain ⟨v, -, rfl⟩ := Option.map_eq_some_iff.mp hd
    have hkeeps := hcb _ e he
    exact hkeeps
  · cases hd
    rfl

theorem responses_sendFile {closeConn kept : Bool} {file : File}
    (hd : c.sendFile closeConn file kept = some d) : d.responses = c.responses := by
  obtain ⟨u, -, hd⟩ := Option.bind_eq_some_iff.mp hd
  refine (responses_complete hd fun b e he => ?_).trans rfl
  cases he
  exact responses_shutdown b

theorem responses_writeComplete {kept : Bool} (hd : c.writeComplete kept = some d) :
    d.responses = c.responses := by
  rw [Exchange.writeComplete] at hd
  split at hd
  · cases hd
    rfl
  · cases hd
    exact responses_shutdown c
  · exact responses_sendFile hd

theorem responses_handleWrite {r : Written} {kept : Bool} (hd : c.handleWrite r kept = some d) :
    d.responses = c.responses := by
  obtain ⟨u, -, hd⟩ := Option.bind_eq_some_iff.mp hd
  exact responses_complete hd fun _ _ => responses_writeComplete

theorem responses_prepare (c : Exchange) (response : HttpResponse) :
    (c.prepare response).responses = c.responses := by
  rw [Exchange.prepare]
  split
  · rfl
  · split_ifs <;> rfl

theorem responses_onRequest {request : HttpRequest}
    {httpCallback : HttpRequest → HttpResponse → HttpResponse} {buf : Message} {r : Written}
    (hd : c.onRequest request httpCallback buf r = some d) :
    d.responses = c.responses ++ (httpCallback request (.new request.closes)).bytes := by
  rw [Exchange.onRequest] at hd
  split_ifs at hd
  obtain ⟨u, -, hd⟩ := Option.bind_eq_some_iff.mp hd
  rw [responses_complete hd fun _ _ => responses_writeComplete, responses_prepare]

end Exchange

/-- What `HttpServer` has of a connection. -/
structure HttpConnection where
  /-- The context, the input buffer and the requests handed over. -/
  session : Session
  /-- The sending side, and what is stored in `writeCompleteCallback_`. -/
  exchange : Exchange

namespace HttpConnection

/-- A connection after `onConnection`. -/
def established : HttpConnection := ⟨.new, .established⟩

/-- What the loop does with the connection. -/
inductive Action
  /-- The socket delivers `data`. If a request is complete, its response is written to the memory
  `buf`, and `write` answers `r` if it is called. -/
  | handleRead (data : Bytes) (buf : Message) (r : Written)
  /-- A write event, where a file that waits is `kept` by the callback of the server. -/
  | handleWrite (r : Written) (kept : Bool)

/-- The bytes that the socket has delivered. -/
def received : List Action → Bytes
  | [] => []
  | .handleRead data _ _ :: as => data ++ received as
  | .handleWrite .. :: as => received as

theorem received_append (as bs : List Action) :
    received (as ++ bs) = received as ++ received bs := by
  induction as with
  | nil => rfl
  | cons a as ih => cases a <;> simp [received, ih]

/-- The request that `onMessage` hands over, if it does. -/
def handsOver (c : HttpConnection) (data : Bytes) : Option HttpRequest :=
  (c.session.handleRead data).handed[c.session.handed.length]?

-- what `httpCallback_` does when it is called for the `i`th time on the connection
variable (httpCallback : ℕ → HttpRequest → HttpResponse → HttpResponse)

/-- One action. -/
def step (c : HttpConnection) : Action → Option HttpConnection
  | .handleRead data buf r =>
    let session := c.session.handleRead data
    if session.failed then some ⟨session, c.exchange.shutdown⟩
    else match c.handsOver data with
      | some request =>
        (c.exchange.onRequest request (httpCallback c.session.handed.length) buf r).map fun e =>
          ⟨session, e⟩
      | none => some ⟨session, c.exchange⟩
  | .handleWrite r kept => (c.exchange.handleWrite r kept).map fun e => ⟨c.session, e⟩

/-- The bytes of the responses to the requests. -/
def answers (requests : List HttpRequest) : Bytes :=
  (requests.mapIdx fun i request => (httpCallback i request (.new request.closes)).bytes).flatten

/-- On a connection in state `kConnected`, no request is handed over while the file of an earlier
response waits, no `write` of a `send` fails, and a write event that comes to an open file that waits
finds it kept. -/
def Unhurried (c : HttpConnection) : Action → Prop
  | .handleRead data _ r => (c.handsOver data).isSome →
    (c.exchange.sender.conn.state = .kConnected → c.exchange.waiting = []) ∧
      (c.exchange.sender.DirectWrite → ∃ n, r = .count n)
  | .handleWrite r kept => c.exchange.Unhurried (.handleWrite r kept)

instance (c : HttpConnection) : ∀ a, Decidable (c.Unhurried a)
  | .handleRead .. => inferInstanceAs (Decidable (_ → _ ∧ _))
  | .handleWrite r kept => inferInstanceAs (Decidable (c.exchange.Unhurried (.handleWrite r kept)))

/-! ## From bytes to bytes -/

variable {httpCallback} {c d : HttpConnection}

theorem answers_concat (requests : List HttpRequest) (request : HttpRequest) :
    answers httpCallback (requests ++ [request]) = answers httpCallback requests ++
      (httpCallback requests.length request (.new request.closes)).bytes := by
  simp [answers, List.mapIdx_append]

/-- What has arrived is handed over as far as `done`, and answered so far. -/
structure Served (httpCallback : ℕ → HttpRequest → HttpResponse → HttpResponse)
    (heads done : List RequestHead) (arrived : Bytes) (c : HttpConnection) : Prop where
  serving : Serving heads done arrived c.session
  sound : c.exchange.Sound
  responses : c.exchange.responses = answers httpCallback (done.map RequestHead.request)

theorem served_established : Served httpCallback heads [] [] established :=
  ⟨serving_new heads, Exchange.sound_established, rfl⟩

/-- **The socket delivers something**: the next request is answered, or nothing is. -/
theorem Served.handleRead {arrived data : Bytes} {buf : Message} {r : Written}
    (h : Served httpCallback heads done arrived c) (hget : ∀ h ∈ heads, h.method ≠ .kPost)
    (hle : arrived ++ data <+: encodeAll heads) (hg : c.Unhurried (.handleRead data buf r))
    (hd : c.step httpCallback (.handleRead data buf r) = some d) :
    ∃ done', Served httpCallback heads done' (arrived ++ data) d := by
  have hlength := h.serving.length_handed
  rcases h.serving.handleRead hget hle with ⟨-, hs⟩ | ⟨-, head, -, hs⟩
  · have hnone : c.handsOver data = none := by
      rw [handsOver, hlength, ← hs.length_handed]
      exact List.getElem?_eq_none (le_refl _)
    simp only [step, hs.spec.1, hnone, Bool.false_eq_true, if_false] at hd
    cases hd
    exact ⟨done, hs, h.sound, h.responses⟩
  · have hsome : c.handsOver data = some head.request := by
      rw [handsOver, hlength, hs.spec.2.1, List.map_append]
      simp
    simp only [step, hs.spec.1, hsome, Bool.false_eq_true, if_false] at hd
    obtain ⟨e, he, rfl⟩ := Option.map_eq_some_iff.mp hd
    refine ⟨done ++ [head], hs, h.sound.onRequest (hg (by rw [hsome]; rfl)) he, ?_⟩
    rw [List.map_append, List.map_singleton, answers_concat, List.length_map, ← hlength,
      ← h.responses]
    exact Exchange.responses_onRequest he

theorem Served.handleWrite {arrived : Bytes} {r : Written} {kept : Bool}
    (h : Served httpCallback heads done arrived c) (hg : c.Unhurried (.handleWrite r kept))
    (hd : c.step httpCallback (.handleWrite r kept) = some d) :
    Served httpCallback heads done arrived d := by
  obtain ⟨e, he, rfl⟩ := Option.map_eq_some_iff.mp hd
  exact ⟨h.serving, h.sound.step (a := .handleWrite r kept) hg he,
    (Exchange.responses_handleWrite he).trans h.responses⟩

/-- **A whole run.** -/
theorem served_of_exec (hget : ∀ h ∈ heads, h.method ≠ .kPost) {as : List Action}
    (hbytes : received as <+: encodeAll heads)
    (hg : Runs.Guarded (step httpCallback) Unhurried established as)
    (h : Runs.exec (step httpCallback) established as = some c) :
    ∃ done, Served httpCallback heads done (received as) c := by
  induction as using List.reverseRecOn generalizing c with
  | nil =>
    cases h
    exact ⟨[], served_established⟩
  | append_singleton as a ih =>
    obtain ⟨b, hb, hlast⟩ := Runs.exec_concat_eq_some.mp h
    rw [received_append] at hbytes ⊢
    obtain ⟨done, hserved⟩ := ih ((List.prefix_append _ _).trans hbytes)
      (hg.of_done (List.prefix_append _ _)) hb
    have ha := hg as a List.prefix_rfl b hb
    cases a with
    | handleRead data buf r =>
      rw [received, received, List.append_nil] at hbytes ⊢
      exact hserved.handleRead hget hbytes ha hlast
    | handleWrite r kept =>
      rw [received, received, List.append_nil]
      exact ⟨done, hserved.handleWrite ha hlast⟩

/-- **From the bytes of the peer to the bytes of the answers.** In every run in which the socket
delivers a stream of `GET` and `HEAD` requests, cut in any way, and takes what it wants of the output:
as long as no request is handed over while the file of an earlier response waits, no `write` of a
`send` fails, and the callback keeps a file whose header is not written at once, the requests handed
over are the first ones of the stream, and the bytes on the socket are the beginning of the responses
to them, in order. While the connection is in state `kConnected` and no file waits, all that is not
yet on the socket is in `outputBuffer_`. -/
theorem responses_in_order (hget : ∀ h ∈ heads, h.method = .kGet ∨ h.method = .kHead)
    {as : List Action} (hbytes : received as <+: encodeAll heads)
    (hg : Runs.Guarded (step httpCallback) Unhurried established as)
    (h : Runs.exec (step httpCallback) established as = some c) :
    c.session.handed = (heads.take c.session.handed.length).map RequestHead.request ∧
      c.exchange.sender.accepted <+: answers httpCallback c.session.handed ∧
      (c.exchange.sender.conn.state = .kConnected → c.exchange.waiting = [] →
        c.exchange.sender.accepted ++ c.exchange.sender.conn.outputBuffer.bytes =
          answers httpCallback c.session.handed) := by
  have hpost : ∀ h ∈ heads, h.method ≠ .kPost := by
    intro h hh
    rcases hget h hh with hm | hm <;> simp [hm]
  obtain ⟨done, hserved⟩ := served_of_exec hpost hbytes hg h
  obtain ⟨-, hhanded, htake⟩ := hserved.serving.spec
  have hresponses := hserved.responses
  rw [← hhanded] at hresponses
  refine ⟨?_, ?_, fun hstate hwaiting => ?_⟩
  · rw [hserved.serving.length_handed, htake, hhanded]
  · rw [← hresponses]
    exact hserved.sound.ordered.inOrder
  · rw [← hresponses, ← hserved.sound.ordered.connected hstate, hwaiting, List.append_nil]
    rfl

/-- Two requests in one event, the first answer in two pieces, and then the beginning of a third
request, by which the second one is answered. -/
def twoAtOnce : List Action :=
  [.handleRead (encodeAll [plainGet, plainGet])
      (Exchange.held (Exchange.okBytes "0") Exchange.okBytes_zero_lt) (.count 20),
    .handleWrite (.count 42) false,
    .handleRead (ascii "GET")
      (Exchange.held (Exchange.okBytes "0") Exchange.okBytes_zero_lt) (.count 30)]

/-- The theorem at work. -/
theorem responses_in_order_twoAtOnce :
    ∃ c, Runs.exec (step fun _ => Exchange.answerEmpty) established twoAtOnce = some c ∧
      c.exchange.sender.accepted <+:
        answers (fun _ => Exchange.answerEmpty) [plainGet.request, plainGet.request] := by
  have hrun : (Runs.exec (step fun _ => Exchange.answerEmpty) established twoAtOnce).map
      (fun c => c.session.handed.length) = some 2 := by
    decide +kernel
  obtain ⟨c, hc, hlength⟩ := Option.map_eq_some_iff.mp hrun
  have hbytes : received twoAtOnce <+: encodeAll [plainGet, plainGet, plainGet] := by decide +kernel
  obtain ⟨hhanded, haccepted, -⟩ := responses_in_order (by decide) hbytes (by decide +kernel) hc
  rw [hlength] at hhanded
  rw [hhanded] at haccepted
  exact ⟨c, hc, haccepted⟩

end HttpConnection

end Http

end Muduo
