import Muduo.Http.HttpStream

/-! # Well-formed request heads

A `RequestHead` is a request head with a known method and version, none of whose parts contains a
`CR` or the byte that ends it; `RequestHead.encode` writes it out and `RequestHead.fill` is what the
parser is to store.

* **`steps_encode`**: the parser reads a written head back;
* **`steps_beginning`**: on a proper prefix of a head the parser waits for more. -/

namespace Muduo

namespace Http

open HttpContext ByteStream

/-- The text of a method in a request line. -/
def Method.text : Method → Bytes
  | .kGet => ascii "GET"
  | .kPost => ascii "POST"
  | .kHead => ascii "HEAD"
  | .kInvalid => ascii "INVALID"

/-- The text of a version in a request line. -/
def Version.text : Version → Bytes
  | .kHttp10 => ascii "HTTP/1.0"
  | .kHttp11 => ascii "HTTP/1.1"
  | .kUnkown => []

/-- A well-formed request head. -/
structure RequestHead where
  /-- The method. -/
  method : Method
  /-- The path, up to a `?`. -/
  path : Bytes
  /-- The query after the `?`, if there is one. -/
  query : Option Bytes
  /-- The version. -/
  version : Version
  /-- The header fields: key and value as they stand before and after the colon. -/
  headers : List (Bytes × Bytes)
  /-- The method is one of the three that are defined. -/
  method_known : method ≠ .kInvalid
  /-- The version is one of the two that are defined. -/
  version_known : version ≠ .kUnkown
  /-- The path ends at the first space or question mark. -/
  path_clean : SP ∉ path ∧ QUESTION ∉ path ∧ CR ∉ path
  /-- The query ends at the first space. -/
  query_clean : ∀ t ∈ query, SP ∉ t ∧ CR ∉ t
  /-- A key ends at the first colon, a value at the end of the line. -/
  headers_clean : ∀ f ∈ headers, COLON ∉ f.1 ∧ CR ∉ f.1 ∧ CR ∉ f.2

theorem kHttp11_known : Version.kHttp11 ≠ .kUnkown := by decide

theorem clean_none : ∀ t ∈ (none : Option Bytes), SP ∉ t ∧ CR ∉ t := by simp

/-- A header field as a line. -/
def fieldLine (f : Bytes × Bytes) : Bytes := f.1 ++ COLON :: f.2

/-- The header fields, each ended by `CRLF`. -/
def fieldText (fields : List (Bytes × Bytes)) : Bytes :=
  fields.flatMap fun f => fieldLine f ++ [CR, LF]

namespace RequestHead

variable (h : RequestHead)

/-- Path and query. -/
def target : Bytes :=
  match h.query with
  | none => h.path
  | some t => h.path ++ QUESTION :: t

/-- The request line. -/
def requestLine : Bytes := h.method.text ++ SP :: (h.target ++ SP :: h.version.text)

/-- The head as it is sent, up to and including its empty line. -/
def encode : Bytes := h.requestLine ++ CR :: LF :: (fieldText h.headers ++ [CR, LF])

/-- What the request line stores in a request. -/
def fillLine (q : HttpRequest) : HttpRequest :=
  match h.query with
  | none => { q with method := h.method, path := h.path, version := h.version }
  | some t => { q with method := h.method, path := h.path, version := h.version, query := t }

/-- What the head stores in a request. -/
def fill (q : HttpRequest) : HttpRequest :=
  h.headers.foldl (fun q f => q.addHeader f.1 f.2) (h.fillLine q)

/-- The value that the head gives a normalized key: the last one counts. -/
def field (k : Bytes) : Option Bytes :=
  (h.headers.reverse.find? fun f => normalize f.1 == k).map fun f => normalize f.2

theorem encode_ne_nil : h.encode ≠ [] := by
  simp [encode]

/-! ## The parts of the request line -/

theorem cr_notMem_target : CR ∉ h.target := by
  rw [target]
  cases hq : h.query with
  | none => exact h.path_clean.2.2
  | some t =>
    have := h.query_clean t hq
    simp only [List.mem_append, List.mem_cons, not_or]
    exact ⟨h.path_clean.2.2, by decide, this.2⟩

theorem sp_notMem_target : SP ∉ h.target := by
  rw [target]
  cases hq : h.query with
  | none => exact h.path_clean.1
  | some t =>
    have := h.query_clean t hq
    simp only [List.mem_append, List.mem_cons, not_or]
    exact ⟨h.path_clean.1, by decide, this.1⟩

theorem cr_notMem_requestLine : CR ∉ h.requestLine := by
  have hm : ∀ m : Method, CR ∉ m.text := by intro m; cases m <;> decide
  have hv : ∀ v : Version, CR ∉ v.text := by intro v; cases v <;> decide
  simp only [requestLine, List.mem_append, List.mem_cons, not_or]
  exact ⟨hm _, by decide, h.cr_notMem_target, by decide, hv _⟩

/-- The version text is understood. -/
theorem parseVersion_text (q : HttpRequest) {v : Version} (hv : v ≠ .kUnkown) :
    parseVersion q v.text = (q.setVersion v, true) := by
  cases v with
  | kHttp10 => rfl
  | kHttp11 => rfl
  | kUnkown => exact absurd rfl hv

/-- The method text is understood. -/
theorem setMethod_text (q : HttpRequest) (m : Method) :
    q.setMethod m.text = ({ q with method := m }, true) := by
  cases m <;> rfl

/-- **The request line is read back.** -/
theorem parseRequestLine_requestLine (q : HttpRequest) :
    parseRequestLine q h.requestLine = (h.fillLine q, true) := by
  have hm : ∀ m : Method, SP ∉ m.text := by intro m; cases m <;> decide
  rw [parseRequestLine, requestLine, Delimiter.cut_append (hm _)]
  simp only [setMethod_text, Delimiter.cut_append h.sp_notMem_target]
  rw [target, fillLine]
  cases hq : h.query with
  | none =>
    simp only [Delimiter.cut_eq_none h.path_clean.2.1, parseVersion_text _ h.version_known]
    rfl
  | some t =>
    simp only [Delimiter.cut_append h.path_clean.2.1, parseVersion_text _ h.version_known]
    rfl

/-! ## The stored header fields -/

end RequestHead

/-- `addHeader` changes the header map only. -/
theorem foldl_addHeader (q : HttpRequest) (fields : List (Bytes × Bytes)) :
    fields.foldl (fun q f => q.addHeader f.1 f.2) q =
      { q with header :=
          fields.foldl (fun m f => m.insert (normalize f.1) (normalize f.2)) q.header } := by
  induction fields generalizing q with
  | nil => rfl
  | cons f fields ih => rw [List.foldl_cons, ih, List.foldl_cons, HttpRequest.addHeader]

/-- **The last field of a key counts.** -/
theorem getElem?_foldl_insert (m : HeaderMap) (fields : List (Bytes × Bytes)) (k : Bytes) :
    (fields.foldl (fun m f => m.insert (normalize f.1) (normalize f.2)) m)[k]? =
      ((fields.reverse.find? fun f => normalize f.1 == k).map fun f => normalize f.2).or m[k]? := by
  induction fields using List.reverseRecOn with
  | nil => simp
  | append_singleton fields f ih =>
    -- from the end: the field added last decides, or is about another key
    rw [List.foldl_append, List.foldl_cons, List.foldl_nil, Std.ExtTreeMap.getElem?_insert,
      List.reverse_append, List.reverse_singleton, List.singleton_append, List.find?_cons]
    by_cases hk : normalize f.1 = k
    · simp [hk]
    · have hk' : (normalize f.1 == k) = false := by simpa using hk
      rw [if_neg (by simpa using hk), ih, hk']

namespace RequestHead

variable (h : RequestHead)

theorem method_fill (q : HttpRequest) : (h.fill q).method = h.method := by
  rw [fill, foldl_addHeader, fillLine]
  cases h.query <;> rfl

/-- A head has no body to store. -/
theorem body_fill (q : HttpRequest) : (h.fill q).body = q.body := by
  rw [fill, foldl_addHeader, fillLine]
  cases h.query <;> rfl

/-- **Looking up a key finds the field that came last.** -/
theorem getHeader_fill (q : HttpRequest) {k v : Bytes} (hv : h.field k = some v) :
    (h.fill q).getHeader k = v := by
  rw [field] at hv
  rw [fill, foldl_addHeader, HttpRequest.getHeader, Std.ExtTreeMap.getD_eq_getD_getElem?,
    getElem?_foldl_insert, hv, Option.some_or, Option.getD_some]

end RequestHead

/-! ## Lines -/

/-- The text contains no `CRLF`. -/
def OneLine (s : Bytes) : Prop := Delimiter.findPair CR LF s = none

/-- That is, `CR` is nowhere followed by `LF`. -/
theorem oneLine_iff {s : Bytes} : OneLine s ↔ ¬[CR, LF] <:+: s := Delimiter.findPair_eq_none_iff

theorem oneLine_of_cr_notMem {s : Bytes} (h : CR ∉ s) : OneLine s :=
  Delimiter.findPair_eq_none_of_notMem h

instance (s : Bytes) : Decidable (OneLine s) := inferInstanceAs (Decidable (_ = none))

namespace ByteStream

/-- A line is taken up to its own `CRLF`. -/
theorem findPair_of_oneLine {line : Bytes} (hl : OneLine line) (s : Bytes) :
    Delimiter.findPair CR LF (line ++ CR :: LF :: s) = some line.length :=
  Delimiter.findPair_line (by decide) hl s

theorem drop_line (line s : Bytes) : (line ++ CR :: LF :: s).drop (2 + line.length) = s := by
  rw [Nat.add_comm, ← List.drop_drop, List.drop_left]
  rfl

theorem next_requestLine {q r : HttpRequest} {line : Bytes} (hl : OneLine line)
    (hr : parseRequestLine q line = (r, true)) (s : Bytes) :
    Next (⟨q, .kExpectRequestLine⟩, line ++ CR :: LF :: s) (⟨r, .kExpectHeaders⟩, s) := by
  have := Next.requestLine (q := q) (r := r) (findPair_of_oneLine hl s) (by rw [List.take_left, hr])
  rwa [drop_line] at this

/-- A header line is the field that it writes, whatever stands in the value. -/
theorem next_fieldLine (q : HttpRequest) {f : Bytes × Bytes}
    (hf : COLON ∉ f.1 ∧ OneLine f.1 ∧ OneLine f.2) (s : Bytes) :
    Next (⟨q, .kExpectHeaders⟩, fieldLine f ++ CR :: LF :: s)
      (⟨q.addHeader f.1 f.2, .kExpectHeaders⟩, s) := by
  have hl : OneLine (fieldLine f) :=
    Delimiter.findPair_append_cons (by decide) (by decide) hf.2.1 hf.2.2
  have hne : (fieldLine f).length ≠ 0 := by simp [fieldLine]
  have := Next.header (q := q) (findPair_of_oneLine hl s) hne
    (by rw [List.take_left]; exact Delimiter.cut_append hf.1 f.2)
  rwa [drop_line] at this

/-- **The header lines are read one after another.** -/
theorem steps_fieldText (q : HttpRequest) (fields : List (Bytes × Bytes))
    (hf : ∀ f ∈ fields, COLON ∉ f.1 ∧ OneLine f.1 ∧ OneLine f.2) (s : Bytes) :
    Loop.Steps round (⟨q, .kExpectHeaders⟩, fieldText fields ++ s)
      (⟨fields.foldl (fun q f => q.addHeader f.1 f.2) q, .kExpectHeaders⟩, s) := by
  induction fields generalizing q with
  | nil => exact .refl _
  | cons f fields ih =>
    rw [List.forall_mem_cons] at hf
    have hsplit : fieldText (f :: fields) ++ s =
        fieldLine f ++ CR :: LF :: (fieldText fields ++ s) := by
      simp [fieldText]
    rw [hsplit]
    exact .next (next_fieldLine q hf.1 _).round_eq (ih _ hf.2)

end ByteStream

namespace RequestHead

variable (h : RequestHead) (q : HttpRequest)

/-- **A written head is read back**, up to its empty line. -/
theorem steps_encode (s : Bytes) :
    Loop.Steps round (⟨q, .kExpectRequestLine⟩, h.encode ++ s)
      (⟨h.fill q, .kExpectHeaders⟩, CR :: LF :: s) := by
  have hsplit : h.encode ++ s =
      h.requestLine ++ CR :: LF :: (fieldText h.headers ++ CR :: LF :: s) := by
    simp [encode]
  rw [hsplit]
  have hfirst := next_requestLine (oneLine_of_cr_notMem h.cr_notMem_requestLine)
    (h.parseRequestLine_requestLine q) (fieldText h.headers ++ CR :: LF :: s)
  refine .next hfirst.round_eq (steps_fieldText _ _ (fun f hf => ?_) _)
  obtain ⟨hcolon, hkey, hvalue⟩ := h.headers_clean f hf
  exact ⟨hcolon, oneLine_of_cr_notMem hkey, oneLine_of_cr_notMem hvalue⟩

/-- After the head of a POST the parser expects the body. -/
theorem steps_encode_post (hp : h.method = .kPost) (s : Bytes) :
    Loop.Steps round (⟨q, .kExpectRequestLine⟩, h.encode ++ s) (⟨h.fill q, .kExpectBody⟩, s) :=
  (h.steps_encode q s).trans (.single
    (Next.emptyLine (Delimiter.findPair_self s) ((h.method_fill q).trans hp)).round_eq)

theorem stop_emptyLine (hp : h.method ≠ .kPost) (s : Bytes) :
    Stop (⟨h.fill q, .kExpectHeaders⟩, CR :: LF :: s) (true, ⟨h.fill q, .kGotAll⟩, s) :=
  .emptyLine (Delimiter.findPair_self s) (by rwa [h.method_fill])

/-- Any other request is complete after its head. -/
theorem evals_encode (hp : h.method ≠ .kPost) (s : Bytes) :
    Loop.Evals round (⟨q, .kExpectRequestLine⟩, h.encode ++ s) (true, ⟨h.fill q, .kGotAll⟩, s) :=
  (h.steps_encode q s).evals (.stop (h.stop_emptyLine q hp s).round_eq)

/-- Where the parser stops on a whole head, at most the empty line is left. -/
theorem exists_stop_encode : ∃ c x, Loop.Steps round (⟨q, .kExpectRequestLine⟩, h.encode) (c, x) ∧
    (∃ r, Stop (c, x) r) ∧ (x = [] ∧ c.state = .kExpectBody ∨
      x = [CR, LF] ∧ c.state = .kExpectHeaders) := by
  by_cases hp : h.method = .kPost
  · -- a POST goes on to its body, and nothing is left
    have := h.steps_encode_post q hp []
    rw [List.append_nil] at this
    exact ⟨_, _, this, ⟨_, .body⟩, .inl ⟨rfl, rfl⟩⟩
  · have := h.steps_encode q []
    rw [List.append_nil] at this
    exact ⟨_, _, this, ⟨_, h.stop_emptyLine q hp []⟩, .inr ⟨rfl, rfl⟩⟩

/-- **On a proper prefix of a head the parser waits for more**, without an error. -/
theorem steps_beginning {p t : Bytes} (hpt : p ++ t = h.encode) (ht : t ≠ []) :
    ∃ c x, Loop.Steps round (⟨q, .kExpectRequestLine⟩, p) (c, x) ∧ Waiting c ∧
      Loop.Evals round (⟨q, .kExpectRequestLine⟩, p) (true, c, x) := by
  -- the parser stops somewhere on `p`, for want of bytes or for another reason
  obtain ⟨⟨ok, c', x'⟩, hr⟩ := exists_evals ⟨q, .kExpectRequestLine⟩ p
  obtain ⟨⟨c, x⟩, hsteps, hround⟩ := hr.exists_stop
  have hstop := round_eq_inr_iff.mp hround
  rcases hstop.append t with ⟨hw, -, rfl, rfl, rfl⟩ | ⟨hline, r, hstop'⟩
  · exact ⟨_, _, hsteps, hw, hr⟩
  · -- then the parser also stops there on the whole head, where too few bytes are left
    exfalso
    obtain ⟨c₀, x₀, hsteps₀, ⟨r₀, hstop₀⟩, hcases⟩ := h.exists_stop_encode q
    have hsteps' := steps_append hsteps t
    rw [hpt] at hsteps'
    have heq := hsteps'.unique_stop hstop'.round_eq hsteps₀ hstop₀.round_eq
    have hc : c = c₀ := congrArg Prod.fst heq
    have hx : x ++ t = x₀ := congrArg Prod.snd heq
    subst hc
    have htlen : 0 < t.length := List.length_pos_iff.mpr ht
    have hlen := congrArg List.length hx
    rw [List.length_append] at hlen
    rcases hcases with ⟨rfl, -⟩ | ⟨rfl, hs⟩
    · simp only [List.length_nil] at hlen
      omega
    · simp only [List.length_cons, List.length_nil] at hlen
      have := hline (.inr hs)
      omega

end RequestHead

end Http

end Muduo
