import Muduo.Http.HttpRequestLine

/-! # Decoding a written head

The parts of a `PlainHead` may contain a `CR` or an `LF`, but no `CRLF`: a value may end in a `CR`
and start with a colon or with blanks. `decodes_encode` states that such a head is read back in one
call, and that the bytes after it stay in the buffer. -/

namespace Muduo

namespace Http

open HttpContext ByteStream

/-- The header map that `addHeader` makes of the fields. -/
def headerMap (fields : List (Bytes × Bytes)) : HeaderMap :=
  fields.foldl (fun m f => m.insert (normalize f.1) (normalize f.2)) ∅

/-- The head of a `GET` or a `HEAD`. -/
structure PlainHead where
  /-- The method. -/
  method : Method
  /-- The path, up to a `?`. -/
  path : Bytes
  /-- The query after the `?`, if there is one. -/
  query : Option Bytes
  /-- The version. -/
  version : Version
  /-- The header fields: key and value as they stand before and after the colon. -/
  headers : List (Bytes × Bytes)
  /-- The request has no body. -/
  method_plain : method = .kGet ∨ method = .kHead
  /-- The version is one of the two that are defined. -/
  version_known : version ≠ .kUnkown
  /-- The path ends at the first space or question mark. -/
  path_clean : SP ∉ path ∧ QUESTION ∉ path ∧ OneLine path
  /-- The query ends at the first space. -/
  query_clean : ∀ t ∈ query, SP ∉ t ∧ OneLine t
  /-- A key ends at the first colon, a value at the end of the line. -/
  headers_clean : ∀ f ∈ headers, COLON ∉ f.1 ∧ OneLine f.1 ∧ OneLine f.2

namespace PlainHead

variable (h : PlainHead)

/-- Path and query. -/
def target : Bytes :=
  match h.query with
  | none => h.path
  | some t => h.path ++ QUESTION :: t

theorem sp_notMem_target : SP ∉ h.target := by
  rw [target]
  cases hq : h.query with
  | none => exact h.path_clean.1
  | some t =>
    simp only [List.mem_append, List.mem_cons, not_or]
    exact ⟨h.path_clean.1, by decide, (h.query_clean t hq).1⟩

theorem oneLine_target : OneLine h.target := by
  rw [target]
  cases hq : h.query with
  | none => exact h.path_clean.2.2
  | some t =>
    exact Delimiter.findPair_append_cons (by decide) (by decide) h.path_clean.2.2
      (h.query_clean t hq).2

/-- The request line. -/
def line : RequestLine := ⟨h.method, h.target, h.version, h.sp_notMem_target, h.version_known⟩

/-- The head as it is sent, up to and including its empty line. -/
def encode : Bytes := h.line.text ++ CR :: LF :: (fieldText h.headers ++ [CR, LF])

/-- The value that the head gives a normalized key: the last one counts. -/
def field (k : Bytes) : Option Bytes :=
  (h.headers.reverse.find? fun f => normalize f.1 == k).map fun f => normalize f.2

/-- What a fresh request stores of the head. -/
def request : HttpRequest :=
  ⟨h.method, h.version, h.path, headerMap h.headers, h.query.getD [], []⟩

theorem oneLine_line : OneLine h.line.text := by
  have hm : ∀ m : Method, OneLine m.text := by intro m; cases m <;> decide
  have hv : ∀ v : Version, OneLine v.text := by intro v; cases v <;> decide
  exact Delimiter.findPair_append_cons (by decide) (by decide) (hm _)
    (Delimiter.findPair_append_cons (by decide) (by decide) h.oneLine_target (hv _))

/-- What the request line stores in a fresh request. -/
theorem fill_line :
    h.line.fill .new = ⟨h.method, h.version, h.path, ∅, h.query.getD [], []⟩ := by
  have ht : h.line.target = h.target := rfl
  cases hq : h.query with
  | none =>
    have htarget : h.line.target = h.path := by rw [ht, target, hq]
    rw [h.line.fill_of_none .new (by rw [htarget]; exact Delimiter.cut_eq_none h.path_clean.2.1),
      htarget]
    rfl
  | some t =>
    have htarget : h.line.target = h.path ++ QUESTION :: t := by rw [ht, target, hq]
    rw [h.line.fill_of_some .new (by rw [htarget]; exact Delimiter.cut_append h.path_clean.2.1 t)]
    rfl

end PlainHead

/-! ## The request line and the header map -/

theorem next_requestLine_text (l : RequestLine) (hl : OneLine l.text) (q : HttpRequest)
    (s : Bytes) : Next (⟨q, .kExpectRequestLine⟩, l.text ++ CR :: LF :: s)
      (⟨l.fill q, .kExpectHeaders⟩, s) :=
  next_requestLine hl (parseRequestLine_eq_true.mpr ⟨l, rfl, rfl⟩) s

/-- **The last field of a key counts**, and there are no other keys. -/
theorem getElem?_headerMap (fields : List (Bytes × Bytes)) (k : Bytes) :
    (headerMap fields)[k]? =
      (fields.reverse.find? fun f => normalize f.1 == k).map fun f => normalize f.2 := by
  rw [headerMap, getElem?_foldl_insert, Std.ExtTreeMap.getElem?_empty, Option.or_none]

/-! ## The round trip -/

/-- The head was decoded: the request is complete and has what the head says, and `suffix` is left
in the buffer. -/
structure Decodes (h : PlainHead) (suffix : Bytes) (r : Bool × HttpContext × ByteBuffer) :
    Prop where
  ok : r.1 = true
  gotAll : r.2.1.gotAll = true
  method : r.2.1.httpRequest.method = h.method
  path : r.2.1.httpRequest.path = h.path
  query : r.2.1.httpRequest.query = h.query.getD []
  version : r.2.1.httpRequest.version = h.version
  /-- The header map has the last value of each key, and no other entry. -/
  header : ∀ k, r.2.1.httpRequest.header[k]? = h.field k
  rest : r.2.2.bytes = suffix

/-- **A written head is decoded in one call**, and the call stops at its end. -/
theorem decodes_encode (h : PlainHead) (suffix : Bytes) {b : ByteBuffer}
    (hb : b.bytes = h.encode ++ suffix) : Decodes h suffix (HttpContext.new.parseRequest b) := by
  have hsplit : h.encode ++ suffix =
      h.line.text ++ CR :: LF :: (fieldText h.headers ++ CR :: LF :: suffix) := by
    simp [PlainHead.encode]
  have hmethod : h.method ≠ .kPost := by
    rcases h.method_plain with hm | hm <;> rw [hm] <;> nofun
  have hfirst := next_requestLine_text h.line h.oneLine_line .new
    (fieldText h.headers ++ CR :: LF :: suffix)
  have hsteps := Loop.Steps.next hfirst.round_eq
    (steps_fieldText (h.line.fill .new) h.headers h.headers_clean (CR :: LF :: suffix))
  rw [h.fill_line, foldl_addHeader] at hsteps
  have hstop : Stop (⟨h.request, .kExpectHeaders⟩, CR :: LF :: suffix)
      (true, ⟨h.request, .kGotAll⟩, suffix) :=
    .emptyLine (Delimiter.findPair_self suffix) hmethod
  have hevals : Loop.Evals round (HttpContext.new, b.bytes)
      (true, ⟨h.request, .kGotAll⟩, suffix) := by
    rw [hb, hsplit]
    exact hsteps.evals (.stop hstop.round_eq)
  have hview := view_parseRequest_eq hevals
  rcases hr : HttpContext.new.parseRequest b with ⟨ok, c, b'⟩
  rw [hr] at hview
  obtain ⟨rfl, hview⟩ := Prod.mk.inj hview
  obtain ⟨rfl, hrest⟩ := Prod.mk.inj hview
  exact ⟨rfl, rfl, rfl, rfl, rfl, rfl, getElem?_headerMap h.headers, hrest⟩

/-- Two lines for one key: the value of the second ends in a `CR`, and a key is blank. -/
def hostHead : PlainHead where
  method := .kGet
  path := ascii "/index"
  query := some (ascii "a=b?c")
  version := .kHttp10
  headers := [(ascii "Host", ascii " A"), (ascii " ", []), (ascii " HOST", ascii "b:C " ++ [CR])]
  method_plain := .inl rfl
  version_known := nofun
  path_clean := by decide +kernel
  query_clean := by simp only [Option.mem_some_iff]; rintro _ rfl; decide +kernel
  headers_clean := by decide +kernel

/-- The theorem at work. -/
theorem decodes_encode_hostHead : Decodes hostHead (ascii "GET")
    (HttpContext.new.parseRequest (.append .new (hostHead.encode ++ ascii "GET"))) ∧
      (hostHead.field (ascii "host"), hostHead.field []) =
        (some (ascii "b:c " ++ [CR]), some []) := by
  refine ⟨decodes_encode hostHead (ascii "GET") ?_, by decide +kernel⟩
  rw [ByteBuffer.bytes_append, ByteBuffer.bytes_new, List.nil_append]

end Http

end Muduo
