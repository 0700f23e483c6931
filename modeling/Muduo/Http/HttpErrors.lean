import Muduo.Http.HttpRequestLine
import Muduo.Http.HttpServer

/-! # After a parse error

When `parseRequest` has answered false, `onMessage` calls `shutdown()`, which closes the sending
side only: input goes on arriving, and each event runs the parser again from where it stopped.

A request line that was refused stays in the buffer and is refused again. A header line without a
colon has been consumed, and the parser still expects headers; a body that is too short is only
waited for. `errorFinal_iff` says after which errors no request can be handed over any more. -/

namespace Muduo

namespace Http

open HttpContext ByteStream

/-- The body cannot be completed: the announced length is no number, or already exceeded. -/
def DeadBody (q : HttpRequest) (x : Bytes) : Prop :=
  isNum (q.getHeader (ascii "content-length")) = false ∨ announced q < x.length

/-- The bytes `x` complete the head of a POST, without its lines that have no colon, and the body
after it cannot be completed. -/
inductive DeadHead : HttpRequest → Bytes → Prop
  | emptyLine {q : HttpRequest} {x : Bytes} :
      Delimiter.findPair CR LF x = some 0 → q.method = .kPost → DeadBody q (x.drop 2) →
      DeadHead q x
  | header {q : HttpRequest} {x k v : Bytes} {i : ℕ} :
      Delimiter.findPair CR LF x = some i → i ≠ 0 → Delimiter.cut COLON (x.take i) = some (k, v) →
      DeadHead (q.addHeader k v) (x.drop (2 + i)) → DeadHead q x
  | badHeader {q : HttpRequest} {x : Bytes} {i : ℕ} :
      Delimiter.findPair CR LF x = some i → i ≠ 0 → Delimiter.cut COLON (x.take i) = none →
      DeadHead q (x.drop (2 + i)) → DeadHead q x

/-- No bytes that follow complete a request. -/
def Doomed (c : HttpContext) (x : Bytes) : Prop :=
  match c.state with
  | .kExpectRequestLine =>
    ∃ i, Delimiter.findPair CR LF x = some i ∧ ∀ l : RequestLine, l.text ≠ x.take i
  | .kExpectHeaders => DeadHead c.httpRequest x
  | .kExpectBody => DeadBody c.httpRequest x
  | .kGotAll => False

/-- A line that is refused is no request line. -/
theorem text_ne_of_refused {q : HttpRequest} {line : Bytes}
    (h : (parseRequestLine q line).2 = false) (l : RequestLine) : l.text ≠ line := by
  intro htext
  have haccepts : parseRequestLine q line = (l.fill q, true) :=
    parseRequestLine_eq_true.mpr ⟨l, htext, rfl⟩
  rw [haccepts] at h
  cases h

/-! ## What cannot be completed stays so -/

theorem DeadBody.append {q : HttpRequest} {x : Bytes} (h : DeadBody q x) (s : Bytes) :
    DeadBody q (x ++ s) := by
  refine h.imp_right fun hlt => ?_
  rw [List.length_append]
  omega

/-- A line that has arrived stays as it is. -/
theorem take_drop_append {x : Bytes} {i : ℕ} (hf : Delimiter.findPair CR LF x = some i)
    (s : Bytes) : (x ++ s).take i = x.take i ∧ (x ++ s).drop (2 + i) = x.drop (2 + i) ++ s := by
  have := Delimiter.findPair_lt hf
  exact ⟨List.take_append_of_le_length (by omega), List.drop_append_of_le_length (by omega)⟩

theorem DeadHead.append {q : HttpRequest} {x : Bytes} (h : DeadHead q x) (s : Bytes) :
    DeadHead q (x ++ s) := by
  induction h with
  | emptyLine hf hp hbody =>
    refine .emptyLine (Delimiter.findPair_append hf s) hp ?_
    rw [(take_drop_append hf s).2]
    exact hbody.append s
  | header hf hi hc _ ih =>
    refine .header (Delimiter.findPair_append hf s) hi ?_ ((take_drop_append hf s).2 ▸ ih)
    rwa [(take_drop_append hf s).1]
  | badHeader hf hi hc _ ih =>
    refine .badHeader (Delimiter.findPair_append hf s) hi ?_ ((take_drop_append hf s).2 ▸ ih)
    rwa [(take_drop_append hf s).1]

theorem Doomed.append {c : HttpContext} {x : Bytes} (h : Doomed c x) (s : Bytes) :
    Doomed c (x ++ s) := by
  obtain ⟨q, state⟩ := c
  cases state with
  | kExpectRequestLine =>
    obtain ⟨i, hf, hl⟩ := h
    refine ⟨i, Delimiter.findPair_append hf s, ?_⟩
    rwa [(take_drop_append hf s).1]
  | kExpectHeaders => exact DeadHead.append h s
  | kExpectBody => exact DeadBody.append h s
  | kGotAll => exact h

/-- A call on a body that cannot be completed changes nothing. -/
theorem DeadBody.body_eq {q : HttpRequest} {x : Bytes} (h : DeadBody q x) :
    ∃ ok, ByteStream.body q x = (ok, ⟨q, .kExpectBody⟩, x) := by
  rw [ByteStream.body]
  rcases h with hnum | hlt
  · exact ⟨false, by rw [if_neg (Bool.eq_false_iff.mp hnum)]⟩
  · by_cases hnum : isNum (q.getHeader (ascii "content-length")) = true
    · exact ⟨true, by rw [if_pos hnum, if_pos hlt]⟩
    · exact ⟨false, by rw [if_neg hnum]⟩

theorem DeadHead.exists_evals {q : HttpRequest} {x : Bytes} (h : DeadHead q x) :
    ∃ ok c x', Loop.Evals round (⟨q, .kExpectHeaders⟩, x) (ok, c, x') ∧ Doomed c x' := by
  induction h with
  | @emptyLine q x hf hp hbody =>
    obtain ⟨ok, heq⟩ := hbody.body_eq
    have hstop := Stop.body (q := q) (x := x.drop 2)
    rw [heq] at hstop
    exact ⟨ok, _, _, .next (Next.emptyLine hf hp).round_eq (.stop hstop.round_eq), hbody⟩
  | header hf hi hc _ ih =>
    obtain ⟨ok, c, x', hev, hdoomed⟩ := ih
    exact ⟨ok, c, x', .next (Next.header hf hi hc).round_eq hev, hdoomed⟩
  | badHeader hf hi hc hrest => exact ⟨false, _, _, .stop (Stop.badHeader hf hi hc).round_eq, hrest⟩

/-- **A call where no request can be completed** leads to such a place. -/
theorem Doomed.exists_evals {c : HttpContext} {x : Bytes} (h : Doomed c x) :
    ∃ ok c' x', Loop.Evals round (c, x) (ok, c', x') ∧ Doomed c' x' := by
  obtain ⟨q, state⟩ := c
  cases state with
  | kExpectRequestLine =>
    obtain ⟨i, hf, hl⟩ := h
    rcases hparse : parseRequestLine q (x.take i) with ⟨r, _ | _⟩
    · exact ⟨false, _, _, .stop (Stop.badRequestLine hf hparse).round_eq, i, hf, hl⟩
    · obtain ⟨l, htext, -⟩ := parseRequestLine_eq_true.mp hparse
      exact absurd htext (hl l)
  | kExpectHeaders => exact DeadHead.exists_evals h
  | kExpectBody =>
    obtain ⟨ok, heq⟩ := DeadBody.body_eq h
    have hstop := Stop.body (q := q) (x := x)
    rw [heq] at hstop
    exact ⟨ok, _, _, .stop hstop.round_eq, h⟩
  | kGotAll => exact h.elim

theorem Doomed.gotAll {c : HttpContext} {x : Bytes} (h : Doomed c x) : c.gotAll = false := by
  obtain ⟨q, state⟩ := c
  cases state with
  | kGotAll => exact h.elim
  | _ => rfl

/-! ## What an event does -/

namespace Session

variable {t : Session} {data x : Bytes} {c : HttpContext} {ok : Bool}

/-- What an event makes of the result of the loop. -/
theorem handleRead_of_evals
    (h : Loop.Evals round (t.context, t.inputBuffer.bytes ++ data) (ok, c, x)) :
    (t.handleRead data).inputBuffer.bytes = x ∧ (t.handleRead data).failed = !ok ∧
      if ok = true ∧ c.gotAll = true then (t.handleRead data).handed = t.handed ++ [c.httpRequest]
      else (t.handleRead data).handed = t.handed ∧ (t.handleRead data).context = c := by
  have hview := (evals_handleRead t data).unique h
  rw [handleRead, onMessage]
  rcases hr : t.context.parseRequest (t.inputBuffer.readFd data) with ⟨ok', c', b'⟩
  rw [hr] at hview
  cases hview
  cases ok' with
  | false => simp
  | true => by_cases hgot : c'.gotAll = true <;> simp [hgot]

/-- **No event after that hands over a request.** -/
theorem handed_foldl_of_doomed {segs : List Bytes} (h : Doomed t.context t.inputBuffer.bytes) :
    (segs.foldl handleRead t).handed = t.handed := by
  induction segs generalizing t with
  | nil => rfl
  | cons data segs ih =>
    obtain ⟨ok, c, x, hev, hdoomed⟩ := (h.append data).exists_evals
    obtain ⟨hbytes, -, hif⟩ := handleRead_of_evals hev
    rw [if_neg (by simp [hdoomed.gotAll])] at hif
    rw [List.foldl_cons, ih (by rw [hif.2, hbytes]; exact hdoomed), hif.1]

/-! ## What can still be completed -/

/-- A later event hands over a request. -/
def Completable (t : Session) : Prop :=
  ∃ segs : List Bytes, (segs.foldl handleRead t).handed ≠ t.handed

/-- One event is enough. -/
theorem completable_of_gotAll {q : HttpRequest}
    (h : Loop.Evals round (t.context, t.inputBuffer.bytes ++ data) (true, ⟨q, .kGotAll⟩, x)) :
    t.Completable := by
  obtain ⟨-, -, hif⟩ := handleRead_of_evals h
  rw [if_pos ⟨rfl, rfl⟩] at hif
  refine ⟨[data], ?_⟩
  rw [List.foldl_cons, List.foldl_nil, hif]
  simp

/-- The bytes that are missing from the body arrive. -/
theorem completable_of_body {q : HttpRequest} (h : ¬DeadBody q x)
    (hsteps : Loop.Steps round (t.context, t.inputBuffer.bytes) (⟨q, .kExpectBody⟩, x)) :
    t.Completable := by
  rw [DeadBody, not_or, Bool.not_eq_false, Nat.not_lt] at h
  obtain ⟨hnum, hle⟩ := h
  have hlen : (x ++ List.replicate (announced q - x.length) 0).length = announced q := by
    rw [List.length_append, List.length_replicate]
    omega
  have hstop := Stop.body (q := q) (x := x ++ List.replicate (announced q - x.length) 0)
  rw [ByteStream.body, if_pos hnum, if_neg (by omega), if_pos hlen.symm] at hstop
  exact completable_of_gotAll ((steps_append hsteps _).evals (.stop hstop.round_eq))

/-- What completes a line, and a head with an empty body. -/
def completion : Bytes := COLON :: CR :: LF :: (ascii "content-length:0" ++ [CR, LF, CR, LF])

/-- The bytes end in the middle of a head: any line can be completed, and so can the head. -/
theorem completable_of_noLine {q : HttpRequest} (hf : Delimiter.findPair CR LF x = none)
    (hsteps : Loop.Steps round (t.context, t.inputBuffer.bytes) (⟨q, .kExpectHeaders⟩, x)) :
    t.Completable := by
  -- the line that was open, with a colon at its end
  have hopen : Delimiter.findPair CR LF (x ++ COLON :: []) = none :=
    Delimiter.findPair_append_cons (by decide) (by decide) hf rfl
  have hline : Delimiter.findPair CR LF (x ++ completion) = some (x ++ [COLON]).length := by
    have := Delimiter.findPair_line (by decide) hopen (ascii "content-length:0" ++ [CR, LF, CR, LF])
    rwa [List.append_assoc] at this
  have hsplit : x ++ completion =
      (x ++ [COLON]) ++ CR :: LF :: (ascii "content-length:0" ++ [CR, LF, CR, LF]) := by
    simp [completion]
  obtain ⟨⟨k, v⟩, hcut⟩ : ∃ f, Delimiter.cut COLON (x ++ [COLON]) = some f := by
    rw [← Option.ne_none_iff_exists']
    exact fun hnone => Delimiter.notMem_of_cut hnone (by simp)
  have hfirst : Next (⟨q, .kExpectHeaders⟩, x ++ completion)
      (⟨q.addHeader k v, .kExpectHeaders⟩, ascii "content-length:0" ++ [CR, LF, CR, LF]) := by
    have := Next.header (q := q) hline (by simp) (by rw [hsplit, List.take_left]; exact hcut)
    rw [hsplit, drop_line] at this
    rw [hsplit]
    exact this
  -- then a length of zero, and the empty line
  have hsecond : Next
      (⟨q.addHeader k v, .kExpectHeaders⟩, ascii "content-length:0" ++ [CR, LF, CR, LF])
      (⟨(q.addHeader k v).addHeader (ascii "content-length") (ascii "0"), .kExpectHeaders⟩,
        [CR, LF]) :=
    next_fieldLine (q.addHeader k v) (f := (ascii "content-length", ascii "0"))
      (by decide +kernel) [CR, LF]
  have htwo := (steps_append hsteps completion).trans
    (.next hfirst.round_eq (.single hsecond.round_eq))
  by_cases hp : q.method = .kPost
  · have hlast : Next _ (⟨(q.addHeader k v).addHeader (ascii "content-length") (ascii "0"),
        .kExpectBody⟩, []) := Next.emptyLine (Delimiter.findPair_self []) hp
    have hzero : announced ((q.addHeader k v).addHeader (ascii "content-length") (ascii "0")) = 0 ∧
        isNum (((q.addHeader k v).addHeader (ascii "content-length") (ascii "0")).getHeader
          (ascii "content-length")) = true := by
      rw [announced, HttpRequest.getHeader_addHeader, if_pos (by decide +kernel)]
      decide +kernel
    have hstop := Stop.body
      (q := (q.addHeader k v).addHeader (ascii "content-length") (ascii "0")) (x := [])
    rw [ByteStream.body, if_pos hzero.2, hzero.1, if_neg (by simp), if_pos (by simp)] at hstop
    exact completable_of_gotAll
      ((htwo.trans (.single hlast.round_eq)).evals (.stop hstop.round_eq))
  · have hstop : Stop _ (true, ⟨_, .kGotAll⟩, []) :=
      Stop.emptyLine (q := (q.addHeader k v).addHeader (ascii "content-length") (ascii "0"))
        (Delimiter.findPair_self []) hp
    exact completable_of_gotAll (htwo.evals (.stop hstop.round_eq))

/-- **A head that is not dead can be completed**, whatever lines are dropped on the way. -/
theorem completable_of_head {q : HttpRequest} (h : ¬DeadHead q x)
    (hsteps : Loop.Steps round (t.context, t.inputBuffer.bytes) (⟨q, .kExpectHeaders⟩, x)) :
    t.Completable := by
  induction hn : x.length using Nat.strong_induction_on generalizing t q x with
  | _ n ih =>
    rcases hf : Delimiter.findPair CR LF x with _ | i
    · exact completable_of_noLine hf hsteps
    have hlt : (x.drop (2 + i)).length < n := by
      have := Delimiter.findPair_lt hf
      rw [List.length_drop]
      omega
    by_cases hi : i = 0
    · subst hi
      by_cases hp : q.method = .kPost
      · exact completable_of_body (fun hbody => h (.emptyLine hf hp hbody))
          (hsteps.trans (.single (Next.emptyLine hf hp).round_eq))
      · have hev : Loop.Evals round (t.context, t.inputBuffer.bytes ++ [])
            (true, ⟨q, .kGotAll⟩, x.drop (2 + 0)) := by
          rw [List.append_nil]
          exact hsteps.evals (.stop (Stop.emptyLine hf hp).round_eq)
        exact completable_of_gotAll hev
    · rcases hc : Delimiter.cut COLON (x.take i) with _ | ⟨k, v⟩
      · -- the line is dropped, and the next event goes on behind it
        have hev : Loop.Evals round (t.context, t.inputBuffer.bytes ++ [])
            (false, ⟨q, .kExpectHeaders⟩, x.drop (2 + i)) := by
          rw [List.append_nil]
          exact hsteps.evals (.stop (Stop.badHeader hf hi hc).round_eq)
        obtain ⟨hbytes, -, hif⟩ := handleRead_of_evals hev
        rw [if_neg (by simp)] at hif
        obtain ⟨segs, hsegs⟩ := ih _ hlt (t := t.handleRead [])
          (fun hdead => h (.badHeader hf hi hc hdead)) (by rw [hif.2, hbytes]; exact .refl _) rfl
        exact ⟨[] :: segs, by rwa [List.foldl_cons, ← hif.1]⟩
      · exact ih _ hlt (fun hdead => h (.header hf hi hc hdead))
          (hsteps.trans (.single (Next.header hf hi hc).round_eq)) rfl

/-! ## When an error is final -/

/-- Whatever follows the events `segs`, no further request is handed over. -/
def ErrorFinal (segs : List Bytes) : Prop :=
  ∀ more : List Bytes, (serve (segs ++ more)).handed = (serve segs).handed

theorem serve_append (segs more : List Bytes) :
    serve (segs ++ more) = more.foldl handleRead (serve segs) := by
  rw [serve, serve, List.foldl_append]

/-- An event whose call answers false. -/
theorem exists_of_failed (h : (t.handleRead data).failed = true) :
    ∃ s c x, Stop s (false, c, x) ∧ (t.handleRead data).context = c ∧
      (t.handleRead data).inputBuffer.bytes = x := by
  obtain ⟨⟨ok, c, x⟩, hev⟩ : ∃ r, Loop.Evals round (t.context, t.inputBuffer.bytes ++ data) r :=
    ⟨_, evals_handleRead t data⟩
  obtain ⟨hbytes, hfailed, hif⟩ := handleRead_of_evals hev
  obtain rfl : ok = false := by simpa [h] using hfailed
  rw [if_neg (by simp)] at hif
  obtain ⟨s, -, hstop⟩ := hev.exists_stop
  exact ⟨s, c, x, round_eq_inr_iff.mp hstop, hif.2, hbytes⟩

/-- **After an error that can be repaired** some bytes make a request of what was left. -/
theorem completable_of_failed (hf : (t.handleRead data).failed = true)
    (h : ¬Doomed (t.handleRead data).context (t.handleRead data).inputBuffer.bytes) :
    (t.handleRead data).Completable := by
  obtain ⟨s, c, x, hstop, hcontext, hbytes⟩ := exists_of_failed hf
  rw [hcontext, hbytes] at h
  have hrefl : Loop.Steps round ((t.handleRead data).context, (t.handleRead data).inputBuffer.bytes)
      (c, x) := by
    rw [hcontext, hbytes]
    exact .refl _
  generalize hr : (false, c, x) = r at hstop
  cases hstop with
  | badRequestLine hi hl =>
    cases hr
    exact absurd ⟨_, hi, text_ne_of_refused (congrArg Prod.snd hl)⟩ h
  | badHeader hi hne hc =>
    cases hr
    exact completable_of_head h hrefl
  | body =>
    rw [ByteStream.body] at hr
    split_ifs at hr
    · cases hr
    · cases hr
    · cases hr
      exact completable_of_body h hrefl
    · cases hr
      exact completable_of_body h hrefl
  | _ => cases hr

/-- **When a parse error is final.** For every byte stream and every segmentation of it whose last
event reports an error: no bytes that follow lead to a call of `httpCallback_` if and only if what
the error left cannot be completed. -/
theorem errorFinal_iff {segs : List Bytes} (hf : (serve segs).failed = true) :
    ErrorFinal segs ↔ Doomed (serve segs).context (serve segs).inputBuffer.bytes := by
  constructor
  · intro hfinal
    by_contra hnot
    obtain ⟨init, data, rfl⟩ : ∃ init data, segs = init ++ [data] := by
      rcases List.eq_nil_or_concat' segs with rfl | h
      · cases hf
      · exact h
    rw [serve_concat] at hf hnot
    obtain ⟨more, hmore⟩ := completable_of_failed hf hnot
    have := hfinal more
    rw [serve_append, serve_concat] at this
    exact hmore this
  · intro hdoomed more
    rw [serve_append]
    exact handed_foldl_of_doomed hdoomed

/-- The theorem at work: a request line without a version. -/
theorem errorFinal_iff_refused : ErrorFinal [ascii "GET /" ++ [CR, LF]] := by
  have hbytes : (serve [ascii "GET /" ++ [CR, LF]]).inputBuffer.bytes =
      ascii "GET /" ++ [CR, LF] := by
    decide +kernel
  have hstate : (serve [ascii "GET /" ++ [CR, LF]]).context.state = .kExpectRequestLine := by
    decide +kernel
  refine (errorFinal_iff (by decide +kernel)).mpr ?_
  rw [Doomed, hstate, hbytes]
  exact ⟨5, rfl, text_ne_of_refused (q := .new) (by decide +kernel)⟩

/-- A request with a header line that has no colon, and its empty line in the next event. -/
def brokenHeader : List Bytes :=
  [ascii "GET / HTTP/1.0" ++ [CR, LF] ++ ascii "oops" ++ [CR, LF], [CR, LF]]

/-- **A header line without a colon is forgotten**: the request is handed over after the error. -/
theorem not_errorFinal :
    ¬∀ segs : List Bytes, (serve segs).failed = true → ErrorFinal segs := by
  intro hall
  have hfailed : (serve (brokenHeader.take 1)).failed = true := by decide +kernel
  have hone := congrArg List.length (hall _ hfailed (brokenHeader.drop 1))
  rw [List.take_append_drop] at hone
  have hlen : (serve brokenHeader).handed.length = 1 := by decide +kernel
  have hzero : (serve (brokenHeader.take 1)).handed.length = 0 := by decide +kernel
  omega

end Session

end Http

end Muduo
