import Muduo.Http.HttpRequest
import Muduo.Foundations.Loop
import Mathlib.Data.Int.ModEq

/-! # `HttpContext`

The resumable request parser of `muduo/net/http/HttpContext.cc`. `parseRound` is one round of the
`while (hasMore)` loop, and `parseRequest` runs the loop over the input buffer. A round that goes on
takes at least the two bytes of a `CRLF` out of the buffer, so the loop ends
(`parseRequest_isSome`). -/

namespace Muduo

namespace Http

/-- `isNum(s)`. -/
def isNum (s : Bytes) : Bool := s.all fun c => 48 ≤ c && c ≤ 57

/-- `isspace` in the C locale. -/
def isspace (c : UInt8) : Bool := c == SP || (9 ≤ c && c ≤ 13)

/-- `strtol(s, NULL, 10)`: blanks, a sign, digits; out of range it answers the nearest `long`. -/
def strtol (s : Bytes) : ℤ :=
  let digits (s : Bytes) : ℕ := decimal (s.takeWhile fun c => 48 ≤ c && c ≤ 57)
  match s.dropWhile isspace with
  | [] => 0
  | c :: s =>
    if c = 45 then max (-(digits s : ℤ)) (-2 ^ 63)
    else if c = 43 then min (digits s : ℤ) (2 ^ 63 - 1)
    else min (digits (c :: s) : ℤ) (2 ^ 63 - 1)

/-- `atoi(s)`: `(int) strtol(s, NULL, 10)`. -/
def atoi (s : Bytes) : ℤ := Int.bmod (strtol s) (2 ^ 32)

/-- `HttpContext::HttpRequestParseState`. -/
inductive ParseState
  | kExpectRequestLine
  | kExpectHeaders
  | kExpectBody
  | kGotAll
deriving DecidableEq, Repr

/-- `HttpContext`. -/
structure HttpContext where
  /-- `httpRequest_`. -/
  httpRequest : HttpRequest
  /-- `state_`. -/
  state : ParseState

/-- `httpRequest_.setVersion`, from the text after the second space of the request line. -/
def parseVersion (r : HttpRequest) (text : Bytes) : HttpRequest × Bool :=
  if text.length = 8 ∧ text.take 7 = ascii "HTTP/1." then
    if text.getLastD 0 = 48 then (r.setVersion .kHttp10, true)
    else if text.getLastD 0 = 49 then (r.setVersion .kHttp11, true)
    else (r.setVersion .kUnkown, false)
  else (r, false)

/-- `parseRequestLine(begin, end)`: what it does to `httpRequest_`, and its answer. -/
def parseRequestLine (r : HttpRequest) (line : Bytes) : HttpRequest × Bool :=
  match Delimiter.cut SP line with
  | none => (r, false)
  | some (method, rest) =>
    match r.setMethod method with
    | (r, false) => (r, false)
    | (r, true) =>
      match Delimiter.cut SP rest with
      | none => (r, false)
      | some (target, version) =>
        match Delimiter.cut QUESTION target with
        | none => parseVersion (r.setPath target) version
        | some (path, query) => parseVersion ((r.setPath path).setQuery query) version

namespace HttpContext

/-- `HttpContext()`. -/
def new : HttpContext := ⟨.new, .kExpectRequestLine⟩

/-- `gotAll()`. -/
def gotAll (c : HttpContext) : Bool := c.state == .kGotAll

/-- `reset()`. -/
def reset (c : HttpContext) : HttpContext := ⟨(c.httpRequest.swap .new).1, .kExpectRequestLine⟩

/-- `length` of `parseRequestBody`, as the comparisons with `readableBytes()` read it. -/
def announced (r : HttpRequest) : ℕ := sizeT (atoi (r.getHeader (ascii "content-length")))

/-- `parseRequestBody(buffer)`. -/
def parseRequestBody (c : HttpContext) (b : ByteBuffer) : Bool × HttpContext × ByteBuffer :=
  if isNum (c.httpRequest.getHeader (ascii "content-length")) then
    if announced c.httpRequest < b.readableBytes then (true, c, b)
    else if announced c.httpRequest = b.readableBytes then
      (true, ⟨c.httpRequest.setBody b.bytes, .kGotAll⟩, b.retrieveAll)
    else (false, c, b)
  else (false, c, b)

/-- One round of the loop of `parseRequest`. `ok` is true whenever the loop goes round. -/
def parseRound : HttpContext × ByteBuffer →
    Option ((HttpContext × ByteBuffer) ⊕ (Bool × HttpContext × ByteBuffer))
  | (c, b) =>
    match c.state with
    | .kExpectRequestLine =>
      match b.findCRLF with
      | none => some (.inr (true, c, b))
      | some crlf =>
        match parseRequestLine c.httpRequest (b.bytes.take crlf) with
        | (r, true) => some (.inl (⟨r, .kExpectHeaders⟩, b.retrieve (2 + crlf)))
        | (r, false) => some (.inr (false, ⟨r, c.state⟩, b))
    | .kExpectHeaders =>
      match b.findCRLF with
      | none => some (.inr (true, c, b))
      | some crlf =>
        if crlf = 0 then
          -- the empty line
          if c.httpRequest.method = .kPost then
            some (.inl (⟨c.httpRequest, .kExpectBody⟩, b.retrieve (2 + crlf)))
          else some (.inr (true, ⟨c.httpRequest, .kGotAll⟩, b.retrieve (2 + crlf)))
        else
          match Delimiter.cut COLON (b.bytes.take crlf) with
          | some (k, v) =>
            some (.inl (⟨c.httpRequest.addHeader k v, c.state⟩, b.retrieve (2 + crlf)))
          | none => some (.inr (false, c, b.retrieve (2 + crlf)))
    | .kExpectBody => some (.inr (parseRequestBody c b))
    | .kGotAll => some (.inr (true, c, b))

/-- A round never faults, and one that goes on consumes a `CRLF`. -/
theorem parseRound_progress (s : HttpContext × ByteBuffer) :
    (∃ r, parseRound s = some (.inr r)) ∨
      ∃ s', parseRound s = some (.inl s') ∧ s'.2.bytes.length < s.2.bytes.length := by
  obtain ⟨c, b⟩ := s
  have hdrop {i : ℕ} (hi : b.findCRLF = some i) :
      (b.retrieve (2 + i)).bytes.length < b.bytes.length := by
    have := Delimiter.findPair_lt hi
    rw [ByteBuffer.bytes_retrieve, List.length_drop]
    change i + 2 ≤ b.bytes.length at this
    omega
  rw [parseRound]
  cases hs : c.state with
  | kExpectRequestLine =>
    cases hf : b.findCRLF with
    | none => exact .inl ⟨_, rfl⟩
    | some i =>
      rcases hl : parseRequestLine c.httpRequest (b.bytes.take i) with ⟨r, _ | _⟩
      · simp only [hl]
        exact .inl ⟨_, rfl⟩
      · simp only [hl]
        exact .inr ⟨_, rfl, hdrop hf⟩
  | kExpectHeaders =>
    cases hf : b.findCRLF with
    | none => exact .inl ⟨_, rfl⟩
    | some i =>
      by_cases hi : i = 0
      · by_cases hp : c.httpRequest.method = .kPost
        · simp only [if_pos hi, if_pos hp]
          exact .inr ⟨_, rfl, hdrop hf⟩
        · simp only [if_pos hi, if_neg hp]
          exact .inl ⟨_, rfl⟩
      · simp only [if_neg hi]
        rcases Delimiter.cut COLON (b.bytes.take i) with _ | ⟨k, v⟩
        · exact .inl ⟨_, rfl⟩
        · exact .inr ⟨_, rfl, hdrop hf⟩
  | kExpectBody => exact .inl ⟨_, rfl⟩
  | kGotAll => exact .inl ⟨_, rfl⟩

/-- **`parseRequest` returns**, within one round more than there are bytes. -/
theorem parseRequest_isSome (c : HttpContext) (b : ByteBuffer) :
    (Loop.run parseRound (b.bytes.length + 1) (c, b)).isSome := by
  obtain ⟨r, hr, -⟩ := Loop.run_total (I := fun _ => True) (Q := fun _ => True)
    (fun s : HttpContext × ByteBuffer => s.2.bytes.length)
    (fun s _ => (parseRound_progress s).imp (fun ⟨r, h⟩ => ⟨r, h, trivial⟩)
      fun ⟨s', h, hlt⟩ => ⟨s', h, trivial, hlt⟩) (s := (c, b)) trivial (Nat.lt_succ_self _)
  rw [hr]
  rfl

/-- `parseRequest(buffer, receiveTime)`: its answer, the context and the buffer afterwards. -/
def parseRequest (c : HttpContext) (b : ByteBuffer) : Bool × HttpContext × ByteBuffer :=
  (Loop.run parseRound (b.bytes.length + 1) (c, b)).get (parseRequest_isSome c b)

theorem run_parseRound (c : HttpContext) (b : ByteBuffer) :
    Loop.run parseRound (b.bytes.length + 1) (c, b) = some (c.parseRequest b) :=
  (Option.some_get (parseRequest_isSome c b)).symm

/-- Append a fragment to the buffer and parse, unless an earlier call failed. -/
def feedOne (r : Bool × HttpContext × ByteBuffer) (s : Bytes) : Bool × HttpContext × ByteBuffer :=
  if r.1 then r.2.1.parseRequest (r.2.2.append s) else r

/-- Append and parse the fragments `segs` one after another, up to the first failing call. -/
def feed (c : HttpContext) (b : ByteBuffer) (segs : List Bytes) : Bool × HttpContext × ByteBuffer :=
  segs.foldl feedOne (true, c, b)

@[simp] theorem feed_nil (c : HttpContext) (b : ByteBuffer) : c.feed b [] = (true, c, b) := rfl

@[simp] theorem feed_concat (c : HttpContext) (b : ByteBuffer) (segs : List Bytes) (s : Bytes) :
    c.feed b (segs ++ [s]) = feedOne (c.feed b segs) s := by
  simp [feed]

/-- A context that some sequence of calls leads to. -/
inductive Reachable : HttpContext → Prop
  | new : Reachable new
  | parseRequest {c : HttpContext} (b : ByteBuffer) :
      Reachable c → Reachable (c.parseRequest b).2.1
  | reset {c : HttpContext} : Reachable c → Reachable c.reset

end HttpContext

end Http

end Muduo
