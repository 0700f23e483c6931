import Muduo.Http.HttpSegments
import Muduo.Http.HttpBody

/-! # Requests on a kept connection

`reset` exchanges every field of the request but `body_`, and only a POST writes `body_`. So a
context that has served requests differs from a fresh one in the body that the last POST left, and
`isolated_iff` says for which histories and requests that shows.

The heart is a simulation: parsing with another body in the context does the same with that body
(`evals_withBody`), unless a POST body is read, which overwrites it. -/

namespace Muduo

namespace Http

open HttpContext ByteStream

/-! ## The body is not looked at -/

theorem parseVersion_setBody (q : HttpRequest) (text t : Bytes) :
    parseVersion (q.setBody t) text =
      ((parseVersion q text).1.setBody t, (parseVersion q text).2) := by
  rw [parseVersion, parseVersion]
  split_ifs <;> rfl

theorem setMethod_setBody (q : HttpRequest) (m t : Bytes) :
    (q.setBody t).setMethod m = ((q.setMethod m).1.setBody t, (q.setMethod m).2) := by
  rw [HttpRequest.setMethod, HttpRequest.setMethod]
  cases kMethodStrings.findIdx? (m == ·) <;> rfl

/-- The request line is read alike with another body in the request. -/
theorem parseRequestLine_setBody (q : HttpRequest) (line t : Bytes) :
    parseRequestLine (q.setBody t) line =
      ((parseRequestLine q line).1.setBody t, (parseRequestLine q line).2) := by
  rw [parseRequestLine, parseRequestLine]
  rcases Delimiter.cut SP line with _ | ⟨m, rest⟩
  · rfl
  simp only [setMethod_setBody]
  rcases q.setMethod m with ⟨q', _ | _⟩
  · rfl
  rcases Delimiter.cut SP rest with _ | ⟨target, version⟩
  · rfl
  rcases hq : Delimiter.cut QUESTION target with _ | ⟨path, query⟩
  · simp only [hq]
    exact parseVersion_setBody (q'.setPath target) version t
  · simp only [hq]
    exact parseVersion_setBody ((q'.setPath path).setQuery query) version t

/-- The request line leaves the body alone. -/
theorem body_parseRequestLine (q : HttpRequest) (line : Bytes) :
    (parseRequestLine q line).1.body = q.body := by
  have h := parseRequestLine_setBody q line q.body
  rw [show q.setBody q.body = q from rfl] at h
  exact (congrArg (fun r => r.1.body) h).trans rfl

/-- The context with another body in its request. -/
def HttpContext.withBody (c : HttpContext) (t : Bytes) : HttpContext :=
  ⟨c.httpRequest.setBody t, c.state⟩

/-- What `reset` leaves of a context is the body of its request. -/
theorem HttpContext.reset_eq (c : HttpContext) : c.reset = new.withBody c.httpRequest.body := rfl

namespace ByteStream

theorem Next.withBody {c c' : HttpContext} {x x' : Bytes} (h : Next (c, x) (c', x')) (t : Bytes) :
    Next (c.withBody t, x) (c'.withBody t, x') := by
  cases h with
  | requestLine hf hl => exact .requestLine hf (by rw [parseRequestLine_setBody, hl])
  | header hf hi hc => exact .header hf hi hc
  | emptyLine hf hp => exact .emptyLine hf hp

theorem Next.body_eq {c c' : HttpContext} {x x' : Bytes} (h : Next (c, x) (c', x')) :
    c'.httpRequest.body = c.httpRequest.body := by
  cases h with
  | @requestLine q r x i hf hl =>
    have := body_parseRequestLine q (x.take i)
    rwa [hl] at this
  | header => rfl
  | emptyLine => rfl

theorem steps_withBody {c c' : HttpContext} {x x' : Bytes}
    (h : Loop.Steps round (c, x) (c', x')) (t : Bytes) :
    Loop.Steps round (c.withBody t, x) (c'.withBody t, x') :=
  h.map (fun s => (s.1.withBody t, s.2)) fun _ _ hround =>
    ((round_eq_inl_iff.mp hround).withBody t).round_eq

theorem steps_body_eq {c c' : HttpContext} {x x' : Bytes}
    (h : Loop.Steps round (c, x) (c', x')) : c'.httpRequest.body = c.httpRequest.body :=
  h.invariant (I := fun s => s.1.httpRequest.body = c.httpRequest.body) rfl
    fun _ _ hs hround => (round_eq_inl_iff.mp hround).body_eq.trans hs

/-- Leaving the loop is alike with another body, or stores the same body. -/
theorem Stop.withBody {c c' : HttpContext} {x x' : Bytes} {ok : Bool}
    (h : Stop (c, x) (ok, c', x')) (t : Bytes) :
    (Stop (c.withBody t, x) (ok, c'.withBody t, x') ∧ c'.httpRequest.body = c.httpRequest.body ∧
      (c'.state = .kGotAll → c.state = .kGotAll ∨
        c.state = .kExpectHeaders ∧ c.httpRequest.method ≠ .kPost)) ∨
    (Stop (c.withBody t, x) (ok, c', x') ∧ c.state = .kExpectBody ∧ c'.state = .kGotAll ∧
      c'.httpRequest = c.httpRequest.setBody x) := by
  obtain ⟨r, hr⟩ : ∃ r, r = (ok, c', x') := ⟨_, rfl⟩
  rw [← hr] at h
  cases h with
  | noLine hs hf =>
    cases hr
    exact .inl ⟨.noLine hs hf, rfl, fun hg => .inl hg⟩
  | @badRequestLine q r x i hf hl =>
    cases hr
    have hbody := body_parseRequestLine q (x.take i)
    rw [hl] at hbody
    exact .inl ⟨.badRequestLine hf (by rw [parseRequestLine_setBody, hl]), hbody,
      by rintro ⟨⟩⟩
  | badHeader hf hi hc =>
    cases hr
    exact .inl ⟨.badHeader hf hi hc, rfl, by rintro ⟨⟩⟩
  | emptyLine hf hp =>
    cases hr
    exact .inl ⟨.emptyLine hf hp, rfl, fun _ => .inr ⟨rfl, hp⟩⟩
  | gotAll =>
    cases hr
    exact .inl ⟨.gotAll, rfl, fun _ => .inl rfl⟩
  | @body q =>
    -- the same test decides, and the body stored is the same
    have hother : Stop ((⟨q, .kExpectBody⟩ : HttpContext).withBody t, x)
        (ByteStream.body (q.setBody t) x) := .body
    rw [ByteStream.body] at hother hr
    change Stop _ (if isNum (q.getHeader (ascii "content-length")) then
      if announced q < x.length then (true, ⟨q.setBody t, .kExpectBody⟩, x)
      else if announced q = x.length then (true, ⟨q.setBody x, .kGotAll⟩, [])
      else (false, ⟨q.setBody t, .kExpectBody⟩, x)
      else (false, ⟨q.setBody t, .kExpectBody⟩, x)) at hother
    split_ifs at hr hother
    · cases hr
      exact .inl ⟨hother, rfl, by rintro ⟨⟩⟩
    · cases hr
      exact .inr ⟨hother, rfl, rfl, rfl⟩
    · cases hr
      exact .inl ⟨hother, rfl, by rintro ⟨⟩⟩
    · cases hr
      exact .inl ⟨hother, rfl, by rintro ⟨⟩⟩

theorem steps_state_ne {c c' : HttpContext} {x x' : Bytes} (hc : c.state ≠ .kGotAll)
    (h : Loop.Steps round (c, x) (c', x')) : c'.state ≠ .kGotAll := by
  refine h.invariant (I := fun s => s.1.state ≠ .kGotAll) hc ?_
  intro s s' _ hround
  cases round_eq_inl_iff.mp hround <;> exact fun hg => nomatch hg

/-- What has been read of a request tells whether it is a POST. -/
theorem steps_named {q : HttpRequest} {c : HttpContext} {x y : Bytes}
    (h : Loop.Steps round (⟨q, .kExpectRequestLine⟩, y) (c, x))
    (hc : c.state ≠ .kExpectRequestLine) :
    c.httpRequest.method = .kPost ↔ namedMethod y = some (ascii "POST") := by
  let I : HttpContext × Bytes → Prop := fun s =>
    (s.1.state = .kExpectRequestLine → s.2 = y) ∧ (s.1.state ≠ .kExpectRequestLine →
      (s.1.httpRequest.method = .kPost ↔ namedMethod y = some (ascii "POST")))
  refine (h.invariant (I := I) ⟨fun _ => rfl, fun hne => absurd rfl hne⟩ ?_).2 hc
  intro s s' hs hround
  cases round_eq_inl_iff.mp hround with
  | @requestLine q r x i hf hl =>
    obtain rfl := hs.1 rfl
    refine ⟨by rintro ⟨⟩, fun _ => ?_⟩
    rw [namedMethod, hf, Option.bind_some]
    exact parseRequestLine_method hl
  | header => exact ⟨by rintro ⟨⟩, fun _ => hs.2 (by rintro ⟨⟩)⟩
  | emptyLine => exact ⟨by rintro ⟨⟩, fun _ => hs.2 (by rintro ⟨⟩)⟩

/-- **Parsing is alike with another body, or stores the same body.** In the second case the request
is a POST and the body is what follows its head. -/
theorem evals_withBody {q : HttpRequest} {c' : HttpContext} {x x' : Bytes} {ok : Bool}
    (h : Loop.Evals round (⟨q, .kExpectRequestLine⟩, x) (ok, c', x')) (t : Bytes) :
    (Loop.Evals round (⟨q.setBody t, .kExpectRequestLine⟩, x) (ok, c'.withBody t, x') ∧
      c'.httpRequest.body = q.body ∧
      (c'.state = .kGotAll → namedMethod x ≠ some (ascii "POST"))) ∨
    (Loop.Evals round (⟨q.setBody t, .kExpectRequestLine⟩, x) (ok, c', x') ∧
      c'.state = .kGotAll ∧ namedMethod x = some (ascii "POST") ∧
      afterHead x = some c'.httpRequest.body) := by
  obtain ⟨⟨c, y⟩, hsteps, hround⟩ := h.exists_stop
  have hstop := round_eq_inr_iff.mp hround
  have hne : c.state ≠ .kGotAll := steps_state_ne (by simp) hsteps
  have hother := steps_withBody hsteps t
  rcases hstop.withBody t with ⟨hs, hbody, hgot⟩ | ⟨hs, hexp, hgot, hreq⟩
  · refine .inl ⟨hother.evals (.stop hs.round_eq), hbody.trans (steps_body_eq hsteps), ?_⟩
    intro hg hpost
    obtain ⟨hstate, hmethod⟩ := (hgot hg).resolve_left hne
    exact hmethod ((steps_named hsteps (by rw [hstate]; exact fun hg => nomatch hg)).mpr hpost)
  · refine .inr ⟨hother.evals (.stop hs.round_eq), hgot, ?_, ?_⟩
    · have hpost := hsteps.invariant (I := fun s => s.1.BodyIsPost) (fun hg => nomatch hg)
        (fun _ _ _ hround => (round_eq_inl_iff.mp hround).bodyIsPost) hexp
      exact (steps_named hsteps (by rw [hexp]; exact fun hg => nomatch hg)).mp hpost
    · have hempty := steps_afterHead hsteps
      rw [EmptyLine, hexp] at hempty
      rw [hreq]
      exact hempty

/-- A call that answered true without completing the request made only rounds that go on. -/
theorem steps_of_not_gotAll {c c' : HttpContext} {x x' : Bytes}
    (h : Loop.Evals round (c, x) (true, c', x')) (hc : c'.state ≠ .kGotAll) :
    Loop.Steps round (c, x) (c', x') := by
  obtain ⟨⟨c₁, x₁⟩, hsteps, hround⟩ := h.exists_stop
  have hstop := round_eq_inr_iff.mp hround
  obtain ⟨r, hr⟩ : ∃ r, r = (true, c', x') := ⟨_, rfl⟩
  rw [← hr] at hstop
  cases hstop with
  | noLine => cases hr; exact hsteps
  | badRequestLine => cases hr
  | badHeader => cases hr
  | emptyLine => cases hr; exact absurd rfl hc
  | gotAll => cases hr; exact absurd rfl hc
  | body =>
    rw [ByteStream.body] at hr
    split_ifs at hr
    · cases hr; exact hsteps
    · cases hr; exact absurd rfl hc
    · cases hr
    · cases hr

end ByteStream

/-! ## Requests one after another -/

namespace HttpContext

/-- The context that completes a request whose bytes arrive as the fragments `xs`: every call
answers true, and the last one is the first after which `gotAll()` holds. -/
def complete (c : HttpContext) (xs : List Bytes) : Option HttpContext :=
  if (c.feed .new xs).1 && (c.feed .new xs).2.1.gotAll && !(c.feed .new xs.dropLast).2.1.gotAll then
    some (c.feed .new xs).2.1
  else none

/-- The `HttpRequest` that the context produces for a request. -/
def produced (c : HttpContext) (xs : List Bytes) : Option HttpRequest :=
  (c.complete xs).map HttpContext.httpRequest

/-- The context after the complete requests of `history`, each followed by `reset()`. -/
def afterRequests (history : List (List Bytes)) : Option HttpContext :=
  history.foldlM (fun c xs => (c.complete xs).map reset) new

/-- The body of the last POST of `history`. -/
def lastBody (history : List (List Bytes)) : Bytes :=
  history.foldl (fun t xs => if namedMethod xs.flatten = some (ascii "POST") then
    (afterHead xs.flatten).getD [] else t) []

/-- Fragments that were all accepted without completing the request are so with another body. -/
theorem feed_not_gotAll {q : HttpRequest} {segs : List Bytes} {c' : HttpContext} {x' : Bytes}
    (h : view (feed ⟨q, .kExpectRequestLine⟩ .new segs) = (true, c', x'))
    (hc : c'.state ≠ .kGotAll) (t : Bytes) :
    Loop.Steps round (⟨q, .kExpectRequestLine⟩, segs.flatten) (c', x') ∧
      view (feed ⟨q.setBody t, .kExpectRequestLine⟩ .new segs) = (true, c'.withBody t, x') := by
  induction segs using List.reverseRecOn generalizing c' x' with
  | nil =>
    rw [feed_nil, view, ByteBuffer.bytes_new] at h ⊢
    cases h
    exact ⟨.refl _, rfl⟩
  | append_singleton segs s ih =>
    obtain ⟨c, x, hv, hev⟩ := exists_feed_of_concat (congrArg Prod.fst h)
    rw [h] at hev
    have hne : c.state ≠ .kGotAll := by
      intro hg
      obtain ⟨q', state⟩ := c
      cases hg
      have := hev.unique (.stop Stop.gotAll.round_eq)
      cases this
      exact hc rfl
    obtain ⟨hsteps, hother⟩ := ih hv hne
    have hall := (steps_append hsteps s).evals hev
    have hflat : (segs ++ [s]).flatten = segs.flatten ++ s := by simp
    rw [hflat]
    refine ⟨steps_of_not_gotAll hall hc, ?_⟩
    have hnext := evals_feed_concat hother
      (by rw [ByteBuffer.bytes_new]; exact steps_withBody hsteps t) s
    rw [ByteBuffer.bytes_new, List.nil_append, hflat] at hnext
    rcases evals_withBody hall t with ⟨hwith, -⟩ | ⟨-, hg, -⟩
    · exact hnext.unique hwith
    · exact absurd hg hc

theorem complete_eq_some_iff {c c' : HttpContext} {xs : List Bytes} :
    c.complete xs = some c' ↔ (c.feed .new xs).1 = true ∧ (c.feed .new xs).2.1 = c' ∧
      c'.state = .kGotAll ∧ (c.feed .new xs.dropLast).2.1.state ≠ .kGotAll := by
  rw [complete]
  split_ifs with h
  · simp only [gotAll, Bool.and_eq_true, Bool.not_eq_true', beq_iff_eq, beq_eq_false_iff_ne] at h
    rw [Option.some_inj]
    constructor
    · rintro rfl
      exact ⟨h.1.1, rfl, h.1.2, h.2⟩
    · exact fun hc => hc.2.1
  · simp only [gotAll, Bool.and_eq_true, Bool.not_eq_true', beq_iff_eq, beq_eq_false_iff_ne] at h
    refine ⟨fun hc => (nomatch hc), ?_⟩
    rintro ⟨hok, rfl, hgot, hlast⟩
    exact absurd ⟨⟨hok, hgot⟩, hlast⟩ h

/-- **A complete request, with another body in the context before it.** If it is no POST, its
context keeps the other body; if it is a POST, its body is what follows the head, whatever was there
before. -/
theorem complete_withBody {q : HttpRequest} {c' : HttpContext} {xs : List Bytes}
    (h : complete ⟨q, .kExpectRequestLine⟩ xs = some c') (t : Bytes) :
    (namedMethod xs.flatten ≠ some (ascii "POST") ∧ c'.httpRequest.body = q.body ∧
      complete ⟨q.setBody t, .kExpectRequestLine⟩ xs = some (c'.withBody t)) ∨
    (namedMethod xs.flatten = some (ascii "POST") ∧
      afterHead xs.flatten = some c'.httpRequest.body ∧
      complete ⟨q.setBody t, .kExpectRequestLine⟩ xs = some c') := by
  obtain ⟨hok, rfl, hgot, hlast⟩ := complete_eq_some_iff.mp h
  induction xs using List.reverseRecOn with
  | nil => simp at hgot
  | append_singleton segs s _ =>
    rw [List.dropLast_concat] at hlast
    obtain ⟨c, x, hv, hev⟩ := exists_feed_of_concat hok
    have hc : (feed ⟨q, .kExpectRequestLine⟩ .new segs).2.1 = c :=
      congrArg (fun r => r.2.1) hv
    rw [hc] at hlast
    obtain ⟨hsteps, hother⟩ := feed_not_gotAll hv hlast t
    have hall := (steps_append hsteps s).evals hev
    have hflat : (segs ++ [s]).flatten = segs.flatten ++ s := by simp
    have hnext := evals_feed_concat hother
      (by rw [ByteBuffer.bytes_new]; exact steps_withBody hsteps t) s
    rw [ByteBuffer.bytes_new, List.nil_append] at hnext
    rw [← hflat] at hall
    -- the fragments before the last do not complete the request with the other body either
    have hlast' : (feed ⟨q.setBody t, .kExpectRequestLine⟩ .new (segs ++ [s]).dropLast).2.1.state ≠
        .kGotAll := by
      rw [List.dropLast_concat,
        show (feed ⟨q.setBody t, .kExpectRequestLine⟩ .new segs).2.1 = c.withBody t from
          congrArg (fun r => r.2.1) hother]
      exact hlast
    rw [show view (feed ⟨q, .kExpectRequestLine⟩ .new (segs ++ [s])) =
      (true, (feed ⟨q, .kExpectRequestLine⟩ .new (segs ++ [s])).2.1,
        (feed ⟨q, .kExpectRequestLine⟩ .new (segs ++ [s])).2.2.bytes) from Prod.ext hok rfl] at hall
    rcases evals_withBody hall t with ⟨hwith, hbody, hpost⟩ | ⟨hwith, -, hpost, hafter⟩
    · have heq := hnext.unique hwith
      exact .inl ⟨hpost hgot, hbody, complete_eq_some_iff.mpr
        ⟨congrArg Prod.fst heq, congrArg (fun r => r.2.1) heq, hgot, hlast'⟩⟩
    · have heq := hnext.unique hwith
      exact .inr ⟨hpost, hafter, complete_eq_some_iff.mpr
        ⟨congrArg Prod.fst heq, congrArg (fun r => r.2.1) heq, hgot, hlast'⟩⟩

/-- **What a history leaves.** The context is a fresh one with the body of the last POST. -/
theorem afterRequests_eq {history : List (List Bytes)} {c : HttpContext}
    (h : afterRequests history = some c) : c = new.withBody (lastBody history) := by
  induction history using List.reverseRecOn generalizing c with
  | nil =>
    cases h
    rfl
  | append_singleton history xs ih =>
    rw [afterRequests, List.foldlM_append] at h
    obtain ⟨c₁, hc₁, hlast⟩ := Option.bind_eq_some_iff.mp h
    obtain ⟨c₂, hc₂, hreset⟩ := Option.bind_eq_some_iff.mp hlast
    obtain ⟨c', hc', rfl⟩ := Option.map_eq_some_iff.mp hc₂
    cases hreset
    obtain rfl := ih hc₁
    rw [reset_eq, lastBody, List.foldl_append, List.foldl_cons, List.foldl_nil]
    rcases complete_withBody hc' [] with ⟨hpost, hbody, -⟩ | ⟨hpost, hafter, -⟩
    · rw [if_neg hpost, hbody]
      rfl
    · rw [if_pos hpost, hafter, Option.getD_some]

/-- **When a history shows in the next request.** For two histories of complete requests on one
context and a request `r` that a fresh context completes: `r` is produced alike after both, and as
by a fresh context, if and only if `r` is a POST or no history's last POST had a body. -/
theorem isolated_iff {history₁ history₂ : List (List Bytes)} {c₁ c₂ : HttpContext}
    (h₁ : afterRequests history₁ = some c₁) (h₂ : afterRequests history₂ = some c₂)
    {r : List Bytes} (hr : (new.complete r).isSome = true) :
    (c₁.produced r = c₂.produced r ∧ c₁.produced r = new.produced r) ↔
      namedMethod r.flatten = some (ascii "POST") ∨
        lastBody history₁ = [] ∧ lastBody history₂ = [] := by
  obtain ⟨c, hc⟩ := Option.isSome_iff_exists.mp hr
  obtain rfl := afterRequests_eq h₁
  obtain rfl := afterRequests_eq h₂
  generalize lastBody history₁ = t₁
  generalize lastBody history₂ = t₂
  have hprod (t : Bytes) : (new.withBody t).produced r = some (
      if namedMethod r.flatten = some (ascii "POST") then c.httpRequest
      else c.httpRequest.setBody t) := by
    rcases complete_withBody hc t with ⟨hpost, -, hother⟩ | ⟨hpost, -, hother⟩
    · rw [if_neg hpost]
      exact congrArg (Option.map httpRequest) hother
    · rw [if_pos hpost]
      exact congrArg (Option.map httpRequest) hother
  have hnew := hprod []
  rw [show new.withBody [] = new from rfl] at hnew
  rw [hprod, hprod, hnew]
  by_cases hpost : namedMethod r.flatten = some (ascii "POST")
  · simp [hpost]
  · simp only [Option.some_inj, hpost, false_or]
    constructor
    · rintro ⟨h12, h10⟩
      have ht₁ : t₁ = [] := congrArg HttpRequest.body h10
      have ht₂ : t₁ = t₂ := congrArg HttpRequest.body h12
      exact ⟨ht₁, ht₂ ▸ ht₁⟩
    · rintro ⟨rfl, rfl⟩
      exact ⟨rfl, rfl⟩

/-- A complete request without header fields, or with the one given. -/
def plainRequest (method : String) (field body : Bytes) : List Bytes :=
  [ascii method ++ ascii " / HTTP/1.1" ++ [CR, LF] ++ field ++ [CR, LF] ++ body]

/-- A POST with the body `hello`. -/
def helloPost : List Bytes :=
  plainRequest "POST" (ascii "Content-Length: 5" ++ [CR, LF]) (ascii "hello")

/-- After a POST, the next POST is produced as by a fresh context. -/
theorem isolated_post : ∃ c, afterRequests [helloPost] = some c ∧
    c.produced helloPost = new.produced helloPost := by
  have hsome : (afterRequests [helloPost]).isSome = true := by decide +kernel
  obtain ⟨c, hc⟩ := Option.isSome_iff_exists.mp hsome
  exact ⟨c, hc, ((isolated_iff hc hc (by decide +kernel)).mpr (.inl (by decide +kernel))).2⟩

/-- **A `GET` after a POST carries the body of the POST.** -/
theorem not_isolated_get :
    ¬∀ (history₁ history₂ : List (List Bytes)) (c₁ c₂ : HttpContext) (r : List Bytes),
      afterRequests history₁ = some c₁ → afterRequests history₂ = some c₂ →
        (new.complete r).isSome = true →
          c₁.produced r = c₂.produced r ∧ c₁.produced r = new.produced r := by
  intro hall
  have hsome : (afterRequests [helloPost]).isSome = true := by decide +kernel
  obtain ⟨c, hc⟩ := Option.isSome_iff_exists.mp hsome
  have hbody : ((afterRequests [helloPost]).bind fun c =>
      (c.produced (plainRequest "GET" [] [])).map HttpRequest.body) = some (ascii "hello") := by
    decide +kernel
  have hfresh : (new.produced (plainRequest "GET" [] [])).map HttpRequest.body = some [] := by
    decide +kernel
  have heq := (hall _ [] c new (plainRequest "GET" [] []) hc rfl (by decide +kernel)).2
  rw [hc, Option.bind_some, heq, hfresh] at hbody
  exact absurd hbody (by decide +kernel)

end HttpContext

end Http

end Muduo
