import Muduo.Http.HttpStream

/-! # Parsing does not depend on segmentation

A call of `parseRequest` that answers true stops for want of a line, or because the request is
complete. Parsing again after more bytes have arrived then continues as one call on everything would
have done (`ByteStream.evals_append`).

For a POST this is false: the body is accepted only when exactly the announced bytes are readable,
so the results here are about requests that do not name that method (`NamesPost`). -/

namespace Muduo

namespace Http

/-! ## What the request line writes -/

@[simp] theorem method_parseVersion (r : HttpRequest) (text : Bytes) :
    (parseVersion r text).1.method = r.method := by
  rw [parseVersion]
  split_ifs <;> rfl

/-- An accepted request line names the method that is stored. -/
theorem parseRequestLine_method {q r : HttpRequest} {line : Bytes}
    (h : parseRequestLine q line = (r, true)) :
    r.method = .kPost ↔ (Delimiter.cut SP line).map Prod.fst = some (ascii "POST") := by
  rw [parseRequestLine] at h
  rcases hcut : Delimiter.cut SP line with _ | ⟨m, rest⟩
  · simp [hcut] at h
  have hmethod : (q.setMethod m).1.method = .kPost ↔ m = ascii "POST" := by
    rw [q.method_setMethod]
    split_ifs with hg hp hh
    · simp [hg, show ¬ascii "GET" = ascii "POST" by decide]
    · simp [hp]
    · simp [hp]
    · simp [hp]
  suffices hr : r.method = (q.setMethod m).1.method by
    rw [hr, hmethod, Option.map_some, Option.some_inj]
  rcases hset : q.setMethod m with ⟨q', _ | _⟩
  · simp [hcut, hset] at h
  rcases hcut' : Delimiter.cut SP rest with _ | ⟨target, version⟩
  · simp [hcut, hset, hcut'] at h
  -- the rest of the line writes path, query and version only
  rcases hq : Delimiter.cut QUESTION target with _ | ⟨path, query⟩
  · simp only [hcut, hset, hcut', hq] at h
    have := method_parseVersion (q'.setPath target) version
    rw [h] at this
    exact this
  · simp only [hcut, hset, hcut', hq] at h
    have := method_parseVersion ((q'.setPath path).setQuery query) version
    rw [h] at this
    exact this

/-- The method that the first line of `x` names, if that line has arrived. -/
def namedMethod (x : Bytes) : Option Bytes :=
  (Delimiter.findPair CR LF x).bind fun i => (Delimiter.cut SP (x.take i)).map Prod.fst

/-- The request that `c` reads from the bytes `x` is a POST: its request line names that method if
it is still to be read, and has named it otherwise. -/
def NamesPost (c : HttpContext) (x : Bytes) : Prop :=
  if c.state = .kExpectRequestLine then namedMethod x = some (ascii "POST")
  else c.httpRequest.method = .kPost

instance (c : HttpContext) (x : Bytes) : Decidable (NamesPost c x) :=
  inferInstanceAs (Decidable (if c.state = .kExpectRequestLine then
    namedMethod x = some (ascii "POST") else c.httpRequest.method = .kPost))

/-- More bytes do not take back what a line names. -/
theorem namedMethod_append {x m : Bytes} (h : namedMethod x = some m) (s : Bytes) :
    namedMethod (x ++ s) = some m := by
  obtain ⟨i, hf, hc⟩ := Option.bind_eq_some_iff.mp h
  rw [namedMethod, Delimiter.findPair_append hf s, Option.bind_some,
    List.take_append_of_le_length (by have := Delimiter.findPair_lt hf; omega), hc]

theorem NamesPost.append {c : HttpContext} {x : Bytes} (h : NamesPost c x) (s : Bytes) :
    NamesPost c (x ++ s) := by
  rw [NamesPost] at h ⊢
  split_ifs at h ⊢
  · exact namedMethod_append h s
  · exact h

/-- Bodies are only expected of a POST. -/
def HttpContext.BodyIsPost (c : HttpContext) : Prop :=
  c.state = .kExpectBody → c.httpRequest.method = .kPost

namespace ByteStream

open HttpContext

theorem Next.bodyIsPost {c c' : HttpContext} {x x' : Bytes} (h : Next (c, x) (c', x')) :
    c'.BodyIsPost := by
  cases h with
  | requestLine => exact fun h => nomatch h
  | header => exact fun h => nomatch h
  | emptyLine _ hp => exact fun _ => hp

theorem Stop.bodyIsPost {c c' : HttpContext} {x x' : Bytes} {ok : Bool}
    (h : Stop (c, x) (ok, c', x')) (hc : c.BodyIsPost) : c'.BodyIsPost := by
  generalize hr : (ok, c', x') = r at h
  cases h with
  | noLine => cases hr; exact hc
  | badRequestLine => cases hr; rintro ⟨⟩
  | badHeader => cases hr; rintro ⟨⟩
  | emptyLine => cases hr; rintro ⟨⟩
  | gotAll => cases hr; rintro ⟨⟩
  | @body q =>
    rw [ByteStream.body] at hr
    split_ifs at hr
    · cases hr; exact hc
    · cases hr; rintro ⟨⟩
    · cases hr; exact hc
    · cases hr; exact hc

/-- A round keeps a request that is no POST from becoming one. -/
theorem Next.not_namesPost {c c' : HttpContext} {x x' : Bytes} (h : Next (c, x) (c', x'))
    (hn : ¬NamesPost c x) : ¬NamesPost c' x' := by
  cases h with
  | requestLine hf hl =>
    intro hp
    refine hn ?_
    rw [NamesPost, if_pos rfl, namedMethod, hf, Option.bind_some]
    exact (parseRequestLine_method hl).mp hp
  | header => exact hn
  | emptyLine => exact hn

/-- **A call that answered true is continued by the next one.** Unless the request is a POST,
parsing `s` after what `x` left gives what parsing `x ++ s` gives. -/
theorem evals_append {c c' : HttpContext} {x x' : Bytes} (hc : c.BodyIsPost)
    (hn : ¬NamesPost c x) (h : Loop.Evals round (c, x) (true, c', x')) (s : Bytes)
    (r : Bool × HttpContext × Bytes) :
    Loop.Evals round (c', x' ++ s) r ↔ Loop.Evals round (c, x ++ s) r := by
  obtain ⟨⟨c₁, x₁⟩, hsteps, hstop⟩ := h.exists_stop
  -- the invariant: bodies are expected of a POST, and this is none
  have hinv : c₁.BodyIsPost ∧ ¬NamesPost c₁ x₁ := by
    refine hsteps.invariant (I := fun t => t.1.BodyIsPost ∧ ¬NamesPost t.1 t.2) ⟨hc, hn⟩ ?_
    rintro ⟨c, x⟩ ⟨c', x'⟩ ⟨-, hn⟩ hround
    have := round_eq_inl_iff.mp hround
    exact ⟨this.bodyIsPost, this.not_namesPost hn⟩
  rw [(steps_append hsteps s).evals_iff]
  have hcases := round_eq_inr_iff.mp hstop
  generalize hr : (true, c', x') = t at hcases
  cases hcases with
  | noLine => cases hr; rfl
  | badRequestLine => cases hr
  | badHeader => cases hr
  | body => exact absurd (hinv.1 rfl) hinv.2
  | gotAll => cases hr; rfl
  | @emptyLine q _ hf hp =>
    -- the request is complete, so the second call returns at once
    cases hr
    have hdrop : x₁.drop 2 ++ s = (x₁ ++ s).drop 2 :=
      (List.drop_append_of_le_length (by have := Delimiter.findPair_lt hf; omega)).symm
    have hone : Loop.Evals round (⟨q, .kExpectHeaders⟩, x₁ ++ s)
        (true, ⟨q, .kGotAll⟩, x₁.drop 2 ++ s) := by
      rw [hdrop]
      exact .stop (Stop.emptyLine (Delimiter.findPair_append hf s) hp).round_eq
    have htwo : Loop.Evals round (⟨q, .kGotAll⟩, x₁.drop 2 ++ s)
        (true, ⟨q, .kGotAll⟩, x₁.drop 2 ++ s) := .stop Stop.gotAll.round_eq
    exact ⟨fun h => h.unique htwo ▸ hone, fun h => h.unique hone ▸ htwo⟩

end ByteStream

/-! ## The calls of `parseRequest` -/

namespace HttpContext

open ByteStream

/-- In every reachable context, a body is only expected of a POST. -/
theorem Reachable.bodyIsPost {c : HttpContext} (h : Reachable c) : c.BodyIsPost := by
  induction h with
  | new => exact fun h => nomatch h
  | reset => exact fun h => nomatch h
  | @parseRequest c b _ ih =>
    refine (parseRequest_evals c b).post (I := fun t => t.1.BodyIsPost)
      (Q := fun r => r.2.1.BodyIsPost) ih ?_ ?_
    · rintro ⟨c, x⟩ ⟨c', x'⟩ - hround
      exact (round_eq_inl_iff.mp hround).bodyIsPost
    · rintro ⟨c, x⟩ ⟨ok, c', x'⟩ hc hround
      exact (round_eq_inr_iff.mp hround).bodyIsPost hc

/-- Two fragments. -/
theorem view_parseRequest_append {c : HttpContext} (hc : c.BodyIsPost) {b : ByteBuffer}
    {s₁ s₂ : Bytes} (hn : ¬NamesPost c (b.bytes ++ s₁ ++ s₂)) {r : Bool × HttpContext × ByteBuffer}
    (hr : view r = view (c.parseRequest (b.append s₁))) (hok : r.1 = true) :
    view (r.2.1.parseRequest (r.2.2.append s₂)) =
      view (c.parseRequest (b.append (s₁ ++ s₂))) := by
  have h := parseRequest_evals c (b.append s₁)
  rw [← hr, view, hok, b.bytes_append] at h
  refine view_parseRequest_eq ?_
  rw [ByteBuffer.bytes_append, evals_append hc (fun hp => hn (hp.append s₂)) h]
  have h' := parseRequest_evals c (b.append (s₁ ++ s₂))
  rwa [b.bytes_append, ← List.append_assoc] at h'

/-- Any number of fragments. -/
theorem view_feed {c : HttpContext} (hc : c.BodyIsPost) (b : ByteBuffer) (segs : List Bytes)
    (s : Bytes) (hn : ¬NamesPost c (b.bytes ++ segs.flatten ++ s))
    (hok : (c.feed b segs).1 = true) :
    view (c.feed b (segs ++ [s])) = view (c.parseRequest (b.append (segs.flatten ++ s))) := by
  induction segs using List.reverseRecOn generalizing s with
  | nil => rfl
  | append_singleton segs t ih =>
    rw [feed_concat, feedOne, if_pos hok]
    rw [List.flatten_append, List.flatten_singleton] at hn ⊢
    have hfirst : (c.feed b segs).1 = true := by
      rw [feed_concat, feedOne] at hok
      by_contra hf
      rw [if_neg hf] at hok
      exact hf hok
    rw [← List.append_assoc] at hn
    have hprev := ih t (fun hp => hn (hp.append s)) hfirst
    exact view_parseRequest_append hc (by rwa [← List.append_assoc]) hprev hok

/-- **Parsing does not depend on segmentation.** For a reachable context, any buffer and a request
that is no POST: a call that answered true, followed by one with more bytes, ends with the answer,
the context and the readable bytes of a single call with all the bytes; and so do any number of
fragments, as long as the calls before the last answered true. -/
theorem parseRequest_segments {c : HttpContext} (hc : Reachable c) (b : ByteBuffer) :
    (∀ s₁ s₂ : Bytes, ¬NamesPost c (b.bytes ++ s₁ ++ s₂) →
      (c.parseRequest (b.append s₁)).1 = true →
        view ((c.parseRequest (b.append s₁)).2.1.parseRequest
          ((c.parseRequest (b.append s₁)).2.2.append s₂)) =
            view (c.parseRequest (b.append (s₁ ++ s₂)))) ∧
    ∀ (segs : List Bytes) (s : Bytes), ¬NamesPost c (b.bytes ++ segs.flatten ++ s) →
      (c.feed b segs).1 = true →
        view (c.feed b (segs ++ [s])) = view (c.parseRequest (b.append (segs.flatten ++ s))) :=
  ⟨fun _ _ hn hok => view_parseRequest_append hc.bodyIsPost hn rfl hok,
    fun segs s hn hok => view_feed hc.bodyIsPost b segs s hn hok⟩

/-- The two halves of a request line cut between `CR` and `LF`. -/
theorem parseRequest_segments_get :
    view (feed new .new [ascii "GET / HTTP/1.1" ++ [CR], [LF, CR, LF]]) =
      view (new.parseRequest
        (ByteBuffer.new.append (ascii "GET / HTTP/1.1" ++ [CR, LF, CR, LF]))) :=
  (parseRequest_segments .new .new).2 [ascii "GET / HTTP/1.1" ++ [CR]] [LF, CR, LF]
    (by decide +kernel) (by decide +kernel)

end HttpContext

end Http

end Muduo
