import Muduo.Http.HttpHead
import Muduo.Foundations.Segments

/-! # `HttpServer`: requests on one connection

`Session` is what `HttpServer` keeps for a connection: the parser context, the input buffer and, for
the model's own use, the requests handed to `httpCallback_`. Each readable event appends what the
socket delivered and calls `onMessage` once (`Session.handleRead`).

`onMessage` hands over at most one request, so a second one that arrives in the same event stays in
the buffer. `prompt_iff` says that this is the only way in which a complete request is left
behind. -/

namespace Muduo

namespace Http

open HttpContext ByteStream

/-- A connection of the server. -/
structure Session where
  /-- The `HttpContext` kept with the connection. -/
  context : HttpContext
  /-- `inputBuffer_`. -/
  inputBuffer : ByteBuffer
  /-- The requests that were handed to `httpCallback_`, in order. -/
  handed : List HttpRequest
  /-- The last `parseRequest` reported an error, and `conn->shutdown()` was called. -/
  failed : Bool

namespace Session

/-- The connection after `onConnection`. -/
def new : Session := ⟨.new, .new, [], false⟩

/-- `onMessage(conn, buffer, receivedTime)`. -/
def onMessage (t : Session) : Session :=
  match t.context.parseRequest t.inputBuffer with
  | (noErr, context, buffer) =>
    if !noErr then { t with context := context, inputBuffer := buffer, failed := true }
    else if context.gotAll then
      { context := context.reset
        inputBuffer := buffer
        handed := t.handed ++ [context.httpRequest]
        failed := false }
    else { t with context := context, inputBuffer := buffer, failed := false }

/-- `handleRead` when the socket delivered `data`. -/
def handleRead (t : Session) (data : Bytes) : Session :=
  onMessage { t with inputBuffer := t.inputBuffer.readFd data }

/-- The connection after the readable events that delivered `segs`. -/
def serve (segs : List Bytes) : Session := segs.foldl handleRead new

@[simp] theorem serve_concat (segs : List Bytes) (data : Bytes) :
    serve (segs ++ [data]) = (serve segs).handleRead data := by
  simp [serve]

/-! ## One event -/

/-- An event runs the loop on what the buffer held and what arrived. -/
theorem evals_handleRead (t : Session) (data : Bytes) :
    Loop.Evals round (t.context, t.inputBuffer.bytes ++ data)
      (view (t.context.parseRequest (t.inputBuffer.readFd data))) := by
  have h := parseRequest_evals t.context (t.inputBuffer.readFd data)
  rwa [ByteBuffer.bytes_readFd] at h

variable {t : Session} {data : Bytes} {c : HttpContext} {x : Bytes}

/-- An event after which the parser waits. -/
theorem handleRead_of_waiting (hw : Waiting c)
    (h : Loop.Evals round (t.context, t.inputBuffer.bytes ++ data) (true, c, x)) :
    (t.handleRead data).failed = false ∧ (t.handleRead data).handed = t.handed ∧
      (t.handleRead data).context = c ∧ (t.handleRead data).inputBuffer.bytes = x := by
  have hview := (evals_handleRead t data).unique h
  have hgot : c.gotAll = false := by rcases hw with hw | hw <;> simp [gotAll, hw]
  rw [handleRead, onMessage]
  rcases hr : t.context.parseRequest (t.inputBuffer.readFd data) with ⟨ok, c', b'⟩
  rw [hr] at hview
  cases hview
  simp [hgot]

/-- An event that completes a request. -/
theorem handleRead_of_gotAll {q : HttpRequest}
    (h : Loop.Evals round (t.context, t.inputBuffer.bytes ++ data) (true, ⟨q, .kGotAll⟩, x)) :
    (t.handleRead data).failed = false ∧ (t.handleRead data).handed = t.handed ++ [q] ∧
      (t.handleRead data).context = (⟨q, .kGotAll⟩ : HttpContext).reset ∧
      (t.handleRead data).inputBuffer.bytes = x := by
  have hview := (evals_handleRead t data).unique h
  rw [handleRead, onMessage]
  rcases hr : t.context.parseRequest (t.inputBuffer.readFd data) with ⟨ok, ⟨q', state⟩, b'⟩
  rw [hr] at hview
  cases hview
  simp [gotAll]

end Session

/-! ## Streams of requests -/

/-- What a fresh context stores for a head. -/
def RequestHead.request (h : RequestHead) : HttpRequest := h.fill .new

/-- The heads as they are sent one after another. -/
def encodeAll (heads : List RequestHead) : Bytes := heads.flatMap RequestHead.encode

/-- The number of heads that are complete within the first `n` bytes. -/
def completeIn : List RequestHead → ℕ → ℕ
  | [], _ => 0
  | h :: heads, n =>
    if h.encode.length ≤ n then completeIn heads (n - h.encode.length) + 1 else 0

theorem completeIn_le (heads : List RequestHead) (n : ℕ) : completeIn heads n ≤ heads.length := by
  induction heads generalizing n with
  | nil => rfl
  | cons h heads ih =>
    rw [completeIn]
    split_ifs
    · simpa using ih _
    · exact Nat.zero_le _

/-- Heads that have arrived whole are counted off. -/
theorem completeIn_append (done rest : List RequestHead) (n : ℕ) :
    completeIn (done ++ rest) ((encodeAll done).length + n) = done.length + completeIn rest n := by
  induction done with
  | nil => simp [encodeAll]
  | cons h done ih =>
    have hlen : (encodeAll (h :: done)).length = h.encode.length + (encodeAll done).length := by
      simp [encodeAll]
    rw [hlen, List.cons_append, completeIn, if_pos (by omega),
      show h.encode.length + (encodeAll done).length + n - h.encode.length =
        (encodeAll done).length + n by omega, ih, List.length_cons]
    omega

/-- The bytes `x` are the beginning of the next head, and not all of it. -/
def InHead : List RequestHead → Bytes → Prop
  | [], x => x = []
  | h :: _, x => ∃ y, y ≠ [] ∧ x ++ y = h.encode

theorem InHead.completeIn_eq {rest : List RequestHead} {x : Bytes} (h : InHead rest x) :
    completeIn rest x.length = 0 := by
  cases rest with
  | nil => rfl
  | cons r rest =>
    obtain ⟨y, hy, hxy⟩ := h
    have : 0 < y.length := List.length_pos_iff.mpr hy
    rw [completeIn, if_neg]
    rw [← hxy, List.length_append]
    omega

/-- The beginning of a stream in which no head is complete. -/
theorem inHead_of_completeIn {rest : List RequestHead} {x z : Bytes} (hx : x ++ z = encodeAll rest)
    (h : completeIn rest x.length = 0) : InHead rest x := by
  cases rest with
  | nil => exact (List.append_eq_nil_iff.mp hx).1
  | cons r rest =>
    rw [completeIn] at h
    split_ifs at h with hle
    have hsplit : encodeAll (r :: rest) = r.encode ++ encodeAll rest := by simp [encodeAll]
    exact Segments.exists_missing ⟨z, hx⟩ ⟨_, hsplit.symm⟩ (not_le.mp hle)

/-- The beginning of a head contains no complete head. -/
theorem InHead.not_contains {rest : List RequestHead} {x bytes : Bytes} (h : InHead rest x)
    (hb : bytes <:+ x) (r : RequestHead) : ¬r.encode <:+: bytes := by
  intro hr
  have hafter (r : RequestHead) : afterHead r.encode = some [] := by
    have := r.steps_encode .new []
    rw [List.append_nil] at this
    exact (steps_afterHead this).symm.trans (Delimiter.after_self (List.cons_ne_nil _ _) [])
  -- an empty line inside the beginning of a head would end that head too early
  have hblank : [CR, LF, CR, LF] <:+: r.encode := by
    by_contra hnot
    have := hafter r
    rw [afterHead, Delimiter.after_eq_none hnot] at this
    cases this
  obtain ⟨v, hv⟩ := Delimiter.exists_after_of_occurs (List.cons_ne_nil _ _)
    (hblank.trans (hr.trans hb.isInfix))
  cases rest with
  | nil =>
    rw [show x = [] from h] at hv
    cases hv
  | cons r' rest =>
    obtain ⟨y, hy, hxy⟩ := h
    have := Delimiter.after_append hv y
    rw [hxy] at this
    have := (hafter r').symm.trans this
    exact hy (List.append_eq_nil_iff.mp (Option.some.inj this).symm).2

/-! ## The invariant -/

/-- The connection has handed over the heads `done` and is in the middle of the next one: of the
bytes that follow `done`, those that arrived are `x`. -/
structure Synced (done rest : List RequestHead) (x : Bytes) (t : Session) : Prop where
  /-- The last event had no parse error. -/
  noErr : t.failed = false
  /-- The requests handed over are those of `done`. -/
  handed_eq : t.handed = done.map RequestHead.request
  /-- No head is complete in `x`. -/
  inHead : InHead rest x
  /-- The parser has come from a fresh context over `x` to where it is. -/
  steps : Loop.Steps round (.new, x) (t.context, t.inputBuffer.bytes)

theorem synced_new {heads : List RequestHead} : Synced [] heads [] .new := by
  refine ⟨rfl, rfl, ?_, by rw [Session.new, ByteBuffer.bytes_new]; exact .refl _⟩
  cases heads with
  | nil => rfl
  | cons h heads => exact ⟨h.encode, h.encode_ne_nil, rfl⟩

/-- Rounds only take bytes from the front. -/
theorem steps_suffix {s s' : HttpContext × Bytes} (h : Loop.Steps round s s') : s'.2 <:+ s.2 := by
  refine h.invariant (I := fun t => t.2 <:+ s.2) List.suffix_rfl ?_
  intro t t' ht hround
  cases round_eq_inl_iff.mp hround with
  | requestLine => exact (List.drop_suffix _ _).trans ht
  | header => exact (List.drop_suffix _ _).trans ht
  | emptyLine => exact (List.drop_suffix _ _).trans ht

/-- After a request that is no POST, `reset` gives a fresh context. -/
theorem reset_fill (h : RequestHead) : (⟨h.request, .kGotAll⟩ : HttpContext).reset = .new := by
  have hbody := h.body_fill .new
  rw [reset, HttpRequest.swap, RequestHead.request, hbody]
  rfl

variable {done rest : List RequestHead} {x data z : Bytes} {t : Session}

/-- **One event.** It reports no error and hands over at most one request; and if at most one head
was completed, the connection is again in step with the stream. -/
theorem Synced.handleRead (hs : Synced done rest x t) (hget : ∀ h ∈ rest, h.method ≠ .kPost)
    (hz : (x ++ data) ++ z = encodeAll rest) :
    (t.handleRead data).failed = false ∧ (t.handleRead data).handed.length ≤ t.handed.length + 1 ∧
      (completeIn rest (x ++ data).length ≤ 1 → ∃ done' rest' x', done ++ rest = done' ++ rest' ∧
        encodeAll done ++ (x ++ data) = encodeAll done' ++ x' ∧
        Synced done' rest' x' (t.handleRead data)) := by
  have hevals (r) : Loop.Evals round (t.context, t.inputBuffer.bytes ++ data) r ↔
      Loop.Evals round (.new, x ++ data) r := ((steps_append hs.steps data).evals_iff).symm
  -- an event that completes nothing
  have hwait {c : HttpContext} {x' : Bytes} (hin : InHead rest (x ++ data)) (hw : Waiting c)
      (hsteps : Loop.Steps round (.new, x ++ data) (c, x'))
      (hev : Loop.Evals round (.new, x ++ data) (true, c, x')) :
      (t.handleRead data).failed = false ∧
        (t.handleRead data).handed.length ≤ t.handed.length + 1 ∧
        Synced done rest (x ++ data) (t.handleRead data) := by
    obtain ⟨hf, hh, hc, hb⟩ := Session.handleRead_of_waiting hw ((hevals _).mpr hev)
    exact ⟨hf, by rw [hh]; omega, ⟨hf, hh.trans hs.handed_eq, hin, by rwa [hc, hb]⟩⟩
  cases rest with
  | nil =>
    have hnil : x ++ data = [] := (List.append_eq_nil_iff.mp hz).1
    have hstop : Stop (.new, []) (true, .new, []) := .noLine (.inl rfl) rfl
    obtain ⟨hf, hle, hsync⟩ := hwait hnil (.inl rfl : Waiting new)
      (by rw [hnil]; exact .refl _) (by rw [hnil]; exact .stop hstop.round_eq)
    exact ⟨hf, hle, fun _ => ⟨_, _, _, rfl, rfl, hsync⟩⟩
  | cons h rest =>
    have hpost := hget h List.mem_cons_self
    have hsplit : encodeAll (h :: rest) = h.encode ++ encodeAll rest := by simp [encodeAll]
    by_cases hlt : (x ++ data).length < h.encode.length
    · -- the next head is still incomplete
      obtain ⟨y, hne, hy⟩ := Segments.exists_missing ⟨z, hz⟩ ⟨_, hsplit.symm⟩ hlt
      obtain ⟨c, x', hsteps, hw, hev⟩ := h.steps_beginning .new hy hne
      obtain ⟨hf, hle, hsync⟩ := hwait ⟨y, hne, hy⟩ hw hsteps hev
      exact ⟨hf, hle, fun _ => ⟨_, _, _, rfl, rfl, hsync⟩⟩
    · -- it is complete, and `m` follows it
      obtain ⟨m, hm⟩ := List.prefix_of_prefix_length_le ⟨_, hsplit.symm⟩ ⟨z, hz⟩ (not_lt.mp hlt)
      have hev := h.evals_encode .new hpost m
      rw [hm] at hev
      obtain ⟨hf, hh, hc, hb⟩ := Session.handleRead_of_gotAll ((hevals _).mpr hev)
      refine ⟨hf, by rw [hh, List.length_append, List.length_singleton], fun hone => ?_⟩
      rw [← hm, List.length_append, completeIn, if_pos (by omega), Nat.add_sub_cancel_left] at hone
      have hmz : m ++ z = encodeAll rest := by
        rw [hsplit, ← hm, List.append_assoc] at hz
        exact List.append_cancel_left hz
      refine ⟨done ++ [h], rest, m, by simp, ?_, hf, ?_, inHead_of_completeIn hmz (by omega), ?_⟩
      · rw [← hm]; simp [encodeAll]
      · rw [hh, hs.handed_eq, List.map_append]; rfl
      · rw [hc, hb]
        exact reset_fill h ▸ .refl _

/-! ## When no request is left behind -/

section

variable (heads : List RequestHead) (segs : List Bytes)

/-- No complete request is left behind: after each event without a parse error the buffer contains
no complete head, and the requests handed over are those complete in what has arrived. `done` are
the events so far. -/
def Prompt : Prop :=
  ∀ done, done <+: segs → (Session.serve done).failed = false →
    (∀ h : RequestHead, ¬h.encode <:+: (Session.serve done).inputBuffer.bytes) ∧
    (Session.serve done).handed =
      (heads.take (completeIn heads done.flatten.length)).map RequestHead.request

/-- Each event brings the end of at most one request. -/
def OnePerEvent : Prop :=
  ∀ done data, done ++ [data] <+: segs →
    completeIn heads (done ++ [data]).flatten.length ≤ completeIn heads done.flatten.length + 1

end

variable {heads : List RequestHead} {segs : List Bytes}

/-- What being in step says about what was handed over. -/
theorem Synced.spec (hs : Synced done rest x t) :
    completeIn (done ++ rest) (encodeAll done ++ x).length = done.length ∧
      t.handed = ((done ++ rest).take done.length).map RequestHead.request ∧
      ∀ h : RequestHead, ¬h.encode <:+: t.inputBuffer.bytes := by
  refine ⟨?_, ?_, hs.inHead.not_contains (steps_suffix hs.steps)⟩
  · rw [List.length_append, completeIn_append, hs.inHead.completeIn_eq, Nat.add_zero]
  · rw [List.take_left, hs.handed_eq]

/-- The events so far bring the end of at most one request each if all events do. -/
theorem OnePerEvent.of_earlier {segs' : List Bytes} (h : OnePerEvent heads segs)
    (hpre : segs' <+: segs) : OnePerEvent heads segs' :=
  fun d a hd => h d a (hd.trans hpre)

theorem flatten_of_done {segs' : List Bytes} (hpre : segs' <+: segs) :
    segs'.flatten <+: segs.flatten := by
  obtain ⟨u, rfl⟩ := hpre
  rw [List.flatten_append]
  exact List.prefix_append _ _

/-- What is still to come after the bytes of a run that is in step. -/
theorem exists_rest {segs' : Bytes} (h : segs' <+: encodeAll (done ++ rest)) {y : Bytes}
    (hy : segs' = encodeAll done ++ y) : ∃ z, y ++ z = encodeAll rest := by
  obtain ⟨z, hz⟩ := h
  have hall : encodeAll (done ++ rest) = encodeAll done ++ encodeAll rest := by simp [encodeAll]
  rw [hy, hall, List.append_assoc] at hz
  exact ⟨z, List.append_cancel_left hz⟩

/-- **A whole run.** As long as each event brings the end of at most one request, the connection
stays in step with the stream. -/
theorem synced_serve (hget : ∀ h ∈ heads, h.method ≠ .kPost)
    (hsegs : segs.flatten <+: encodeAll heads) (hone : OnePerEvent heads segs) :
    ∃ done rest x, heads = done ++ rest ∧ segs.flatten = encodeAll done ++ x ∧
      Synced done rest x (Session.serve segs) := by
  induction segs using List.reverseRecOn with
  | nil => exact ⟨[], heads, [], rfl, rfl, synced_new⟩
  | append_singleton segs data ih =>
    have hpre : segs <+: segs ++ [data] := List.prefix_append _ _
    have hflat : (segs ++ [data]).flatten = segs.flatten ++ data := by simp
    obtain ⟨done, rest, x, rfl, hx, hs⟩ := ih ((flatten_of_done hpre).trans hsegs)
      (hone.of_earlier hpre)
    obtain ⟨z, hz⟩ := exists_rest hsegs (y := x ++ data) (by rw [hflat, hx, List.append_assoc])
    have hle := hone segs data List.prefix_rfl
    rw [hflat, hx, List.append_assoc, hs.spec.1, List.length_append, completeIn_append] at hle
    obtain ⟨-, -, hsync⟩ := hs.handleRead (fun h hh => hget h (List.mem_append_right _ hh)) hz
    obtain ⟨done', rest', x', hsplit, hx', hs'⟩ := hsync (by omega)
    refine ⟨done', rest', x', hsplit, ?_, by rwa [Session.serve_concat]⟩
    rw [hflat, hx, List.append_assoc, hx']

/-- If nothing is left behind, no event brings two ends: `onMessage` hands over one request. -/
theorem onePerEvent_of_prompt (hget : ∀ h ∈ heads, h.method ≠ .kPost)
    (hsegs : segs.flatten <+: encodeAll heads) (hP : Prompt heads segs) :
    OnePerEvent heads segs := by
  induction segs using List.reverseRecOn with
  | nil => intro d a hd; simp at hd
  | append_singleton segs data ih =>
    have hpre : segs <+: segs ++ [data] := List.prefix_append _ _
    have hflat : (segs ++ [data]).flatten = segs.flatten ++ data := by simp
    have hsegs' := (flatten_of_done hpre).trans hsegs
    have hone := ih hsegs' fun d hd => hP d (hd.trans hpre)
    intro d a hd
    rcases List.prefix_concat_iff.mp hd with heq | hd'
    · obtain ⟨rfl, rfl⟩ : d = segs ∧ a = data := by simpa using heq
      obtain ⟨done, rest, x, rfl, hx, hs⟩ := synced_serve hget hsegs' hone
      obtain ⟨z, hz⟩ := exists_rest hsegs (y := x ++ a)
        (by rw [hflat, hx, List.append_assoc])
      obtain ⟨hok, hle, -⟩ := hs.handleRead (fun h hh => hget h (List.mem_append_right _ hh)) hz
      rw [← Session.serve_concat] at hok hle
      have hhanded := congrArg List.length (hP _ List.prefix_rfl hok).2
      rw [List.length_map, List.length_take,
        Nat.min_eq_left (completeIn_le _ _)] at hhanded
      rw [hx, hs.spec.1, ← hhanded, show done.length = (Session.serve d).handed.length by
        rw [hs.handed_eq, List.length_map]]
      exact hle
    · exact hone d a hd'

/-- **Which segmentations leave no request behind.** For every stream of `GET` and `HEAD` requests
and all ways of cutting it: no complete request is left behind after any event if and only if no
event brings the ends of two requests. -/
theorem prompt_iff (hget : ∀ h ∈ heads, h.method = .kGet ∨ h.method = .kHead)
    (hsegs : segs.flatten <+: encodeAll heads) : Prompt heads segs ↔ OnePerEvent heads segs := by
  have hpost : ∀ h ∈ heads, h.method ≠ .kPost := by
    intro h hh
    rcases hget h hh with hm | hm <;> simp [hm]
  refine ⟨onePerEvent_of_prompt hpost hsegs, fun hone d hd _ => ?_⟩
  obtain ⟨done, rest, x, rfl, hx, hs⟩ :=
    synced_serve hpost ((flatten_of_done hd).trans hsegs) (hone.of_earlier hd)
  obtain ⟨hcount, hhanded, hbuffer⟩ := hs.spec
  rw [hx, hcount]
  exact ⟨hbuffer, hhanded⟩

/-- The head of a `GET` without fields. -/
def plainGet : RequestHead where
  method := .kGet
  path := ascii "/"
  query := none
  version := .kHttp11
  headers := []
  method_known := by decide
  version_known := kHttp11_known
  path_clean := by decide
  query_clean := clean_none
  headers_clean := by simp

/-- Two requests, the second of which begins in the event that ends the first. -/
theorem prompt_two_gets : Prompt [plainGet, plainGet]
    [plainGet.encode ++ ascii "GET", ascii " / HTTP/1.1" ++ [CR, LF, CR, LF]] := by
  refine (prompt_iff (by decide) (by decide +kernel)).mpr ?_
  intro d a hd
  have hlen := hd.length_le
  match d with
  | [] =>
    obtain ⟨rfl, -⟩ := List.cons_prefix_cons.mp hd
    decide +kernel
  | [u] =>
    obtain ⟨rfl, hrest⟩ := List.cons_prefix_cons.mp hd
    obtain ⟨rfl, -⟩ := List.cons_prefix_cons.mp hrest
    decide +kernel
  | u :: v :: d => simp at hlen

/-- **Two requests in one event: the second is left behind.** -/
theorem not_prompt_pipelined :
    ¬∀ (heads : List RequestHead) (segs : List Bytes),
      (∀ h ∈ heads, h.method = .kGet ∨ h.method = .kHead) → segs.flatten <+: encodeAll heads →
        Prompt heads segs := by
  intro hall
  have hP := hall [plainGet, plainGet] [plainGet.encode ++ plainGet.encode] (by decide)
    (by decide +kernel)
  have hbuffer := (hP _ List.prefix_rfl (by decide +kernel)).1 plainGet
  exact hbuffer (by decide +kernel)

end Http

end Muduo
