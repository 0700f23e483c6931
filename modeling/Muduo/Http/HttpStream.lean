import Muduo.Http.HttpContext

/-! # The parser on the byte stream

`parseRequest` looks at its buffer through the readable bytes only. `ByteStream.round` is the round
of its loop with a byte string in place of the buffer, `ByteStream.Next` and `ByteStream.Stop` say
what such a round can do, and `parseRequest_evals` carries every result about them back to the
buffer.

The fact behind segmentation is `ByteStream.Next.append`: a round that goes on does the same when
more bytes follow. -/

namespace Muduo

namespace Http

/-- What is left of a buffer when only its bytes are looked at. -/
def view (r : Bool × HttpContext × ByteBuffer) : Bool × HttpContext × Bytes :=
  (r.1, r.2.1, r.2.2.bytes)

namespace ByteStream

open HttpContext

/-- `parseRequestBody` on the bytes that are readable. -/
def body (q : HttpRequest) (x : Bytes) : Bool × HttpContext × Bytes :=
  if isNum (q.getHeader (ascii "content-length")) then
    if announced q < x.length then (true, ⟨q, .kExpectBody⟩, x)
    else if announced q = x.length then (true, ⟨q.setBody x, .kGotAll⟩, [])
    else (false, ⟨q, .kExpectBody⟩, x)
  else (false, ⟨q, .kExpectBody⟩, x)

/-- One round on the bytes that are readable. -/
def round : HttpContext × Bytes → Option ((HttpContext × Bytes) ⊕ (Bool × HttpContext × Bytes))
  | (⟨q, .kExpectRequestLine⟩, x) =>
    match Delimiter.findPair CR LF x with
    | none => some (.inr (true, ⟨q, .kExpectRequestLine⟩, x))
    | some i =>
      match parseRequestLine q (x.take i) with
      | (r, true) => some (.inl (⟨r, .kExpectHeaders⟩, x.drop (2 + i)))
      | (r, false) => some (.inr (false, ⟨r, .kExpectRequestLine⟩, x))
  | (⟨q, .kExpectHeaders⟩, x) =>
    match Delimiter.findPair CR LF x with
    | none => some (.inr (true, ⟨q, .kExpectHeaders⟩, x))
    | some i =>
      if i = 0 then
        if q.method = .kPost then some (.inl (⟨q, .kExpectBody⟩, x.drop (2 + i)))
        else some (.inr (true, ⟨q, .kGotAll⟩, x.drop (2 + i)))
      else
        match Delimiter.cut COLON (x.take i) with
        | some (k, v) => some (.inl (⟨q.addHeader k v, .kExpectHeaders⟩, x.drop (2 + i)))
        | none => some (.inr (false, ⟨q, .kExpectHeaders⟩, x.drop (2 + i)))
  | (⟨q, .kExpectBody⟩, x) => some (.inr (body q x))
  | (⟨q, .kGotAll⟩, x) => some (.inr (true, ⟨q, .kGotAll⟩, x))

/-! ## The buffer is seen through its bytes -/

theorem body_eq_view (q : HttpRequest) (b : ByteBuffer) :
    body q b.bytes = view (parseRequestBody ⟨q, .kExpectBody⟩ b) := by
  rw [body, parseRequestBody, b.readableBytes_eq]
  by_cases hnum : isNum (q.getHeader (ascii "content-length"))
  · simp only [if_pos hnum]
    by_cases hlt : announced q < b.bytes.length
    · simp only [if_pos hlt, view]
    · by_cases heq : announced q = b.bytes.length
      · simp only [if_neg hlt, if_pos heq, view, ByteBuffer.bytes_retrieveAll]
      · simp only [if_neg hlt, if_neg heq, view]
  · simp only [if_neg hnum, view]

/-- A round of the parser is a round on the bytes of its buffer. -/
theorem round_bytes (s : HttpContext × ByteBuffer) :
    round (s.1, s.2.bytes) =
      (parseRound s).map (Sum.map (fun t => (t.1, t.2.bytes)) view) := by
  obtain ⟨⟨q, state⟩, b⟩ := s
  cases state with
  | kExpectRequestLine =>
    simp only [round, parseRound, ByteBuffer.findCRLF_eq]
    cases Delimiter.findPair CR LF b.bytes with
    | none => rfl
    | some i =>
      rcases hl : parseRequestLine q (b.bytes.take i) with ⟨r, _ | _⟩ <;>
        simp [hl, view]
  | kExpectHeaders =>
    simp only [round, parseRound, ByteBuffer.findCRLF_eq]
    cases Delimiter.findPair CR LF b.bytes with
    | none => rfl
    | some i =>
      by_cases hi : i = 0
      · by_cases hp : q.method = .kPost <;> simp [hi, hp, view]
      · rcases hc : Delimiter.cut COLON (b.bytes.take i) with _ | ⟨k, v⟩ <;> simp [hi, hc, view]
  | kExpectBody => simp [round, parseRound, body_eq_view]
  | kGotAll => rfl

/-- **`parseRequest` computes the loop on the bytes of its buffer.** -/
theorem parseRequest_evals (c : HttpContext) (b : ByteBuffer) :
    Loop.Evals round (c, b.bytes) (view (c.parseRequest b)) := by
  refine .of_run (n := b.bytes.length + 1) ?_
  rw [Loop.run_map (fun t : HttpContext × ByteBuffer => (t.1, t.2.bytes)) view
    round_bytes (b.bytes.length + 1) (c, b), run_parseRound, Option.map_some]

/-- The result is the one the loop on the bytes has. -/
theorem view_parseRequest_eq {c : HttpContext} {b : ByteBuffer} {r : Bool × HttpContext × Bytes}
    (h : Loop.Evals round (c, b.bytes) r) : view (c.parseRequest b) = r :=
  (parseRequest_evals c b).unique h

/-! ## What a round can do -/

/-- A round that goes on. -/
inductive Next : HttpContext × Bytes → HttpContext × Bytes → Prop
  | requestLine {q r : HttpRequest} {x : Bytes} {i : ℕ} :
      Delimiter.findPair CR LF x = some i → parseRequestLine q (x.take i) = (r, true) →
      Next (⟨q, .kExpectRequestLine⟩, x) (⟨r, .kExpectHeaders⟩, x.drop (2 + i))
  | header {q : HttpRequest} {x k v : Bytes} {i : ℕ} :
      Delimiter.findPair CR LF x = some i → i ≠ 0 → Delimiter.cut COLON (x.take i) = some (k, v) →
      Next (⟨q, .kExpectHeaders⟩, x) (⟨q.addHeader k v, .kExpectHeaders⟩, x.drop (2 + i))
  | emptyLine {q : HttpRequest} {x : Bytes} :
      Delimiter.findPair CR LF x = some 0 → q.method = .kPost →
      Next (⟨q, .kExpectHeaders⟩, x) (⟨q, .kExpectBody⟩, x.drop 2)

/-- A round that leaves the loop. -/
inductive Stop : HttpContext × Bytes → Bool × HttpContext × Bytes → Prop
  | noLine {q : HttpRequest} {state : ParseState} {x : Bytes} :
      state = .kExpectRequestLine ∨ state = .kExpectHeaders →
      Delimiter.findPair CR LF x = none → Stop (⟨q, state⟩, x) (true, ⟨q, state⟩, x)
  | badRequestLine {q r : HttpRequest} {x : Bytes} {i : ℕ} :
      Delimiter.findPair CR LF x = some i → parseRequestLine q (x.take i) = (r, false) →
      Stop (⟨q, .kExpectRequestLine⟩, x) (false, ⟨r, .kExpectRequestLine⟩, x)
  | badHeader {q : HttpRequest} {x : Bytes} {i : ℕ} :
      Delimiter.findPair CR LF x = some i → i ≠ 0 → Delimiter.cut COLON (x.take i) = none →
      Stop (⟨q, .kExpectHeaders⟩, x) (false, ⟨q, .kExpectHeaders⟩, x.drop (2 + i))
  | emptyLine {q : HttpRequest} {x : Bytes} :
      Delimiter.findPair CR LF x = some 0 → q.method ≠ .kPost →
      Stop (⟨q, .kExpectHeaders⟩, x) (true, ⟨q, .kGotAll⟩, x.drop 2)
  | body {q : HttpRequest} {x : Bytes} : Stop (⟨q, .kExpectBody⟩, x) (ByteStream.body q x)
  | gotAll {q : HttpRequest} {x : Bytes} : Stop (⟨q, .kGotAll⟩, x) (true, ⟨q, .kGotAll⟩, x)

theorem Next.round_eq {s s' : HttpContext × Bytes} (h : Next s s') :
    round s = some (.inl s') := by
  cases h with
  | requestLine hf hl => simp [round, hf, hl]
  | header hf hi hc => simp [round, hf, hi, hc]
  | emptyLine hf hp => simp [round, hf, hp]

theorem Stop.round_eq {s : HttpContext × Bytes} {r : Bool × HttpContext × Bytes} (h : Stop s r) :
    round s = some (.inr r) := by
  cases h with
  | noLine hs hf => rcases hs with rfl | rfl <;> simp [round, hf]
  | badRequestLine hf hl => simp [round, hf, hl]
  | badHeader hf hi hc => simp [round, hf, hi, hc]
  | emptyLine hf hp => simp [round, hf, hp]
  | body => rfl
  | gotAll => rfl

/-- Every round goes on or leaves the loop, in one of the ways listed. -/
theorem next_or_stop (s : HttpContext × Bytes) : (∃ s', Next s s') ∨ ∃ r, Stop s r := by
  obtain ⟨⟨q, state⟩, x⟩ := s
  cases state with
  | kExpectRequestLine =>
    cases hf : Delimiter.findPair CR LF x with
    | none => exact .inr ⟨_, .noLine (.inl rfl) hf⟩
    | some i =>
      rcases hl : parseRequestLine q (x.take i) with ⟨r, _ | _⟩
      · exact .inr ⟨_, .badRequestLine hf hl⟩
      · exact .inl ⟨_, .requestLine hf hl⟩
  | kExpectHeaders =>
    cases hf : Delimiter.findPair CR LF x with
    | none => exact .inr ⟨_, .noLine (.inr rfl) hf⟩
    | some i =>
      by_cases hi : i = 0
      · subst hi
        by_cases hp : q.method = .kPost
        · exact .inl ⟨_, .emptyLine hf hp⟩
        · exact .inr ⟨_, .emptyLine hf hp⟩
      · rcases hc : Delimiter.cut COLON (x.take i) with _ | ⟨k, v⟩
        · exact .inr ⟨_, .badHeader hf hi hc⟩
        · exact .inl ⟨_, .header hf hi hc⟩
  | kExpectBody => exact .inr ⟨_, .body⟩
  | kGotAll => exact .inr ⟨_, .gotAll⟩

theorem round_eq_inl_iff {s s' : HttpContext × Bytes} :
    round s = some (.inl s') ↔ Next s s' := by
  refine ⟨fun h => ?_, Next.round_eq⟩
  rcases next_or_stop s with ⟨t, ht⟩ | ⟨r, hr⟩
  · rw [ht.round_eq] at h
    cases h
    exact ht
  · rw [hr.round_eq] at h
    cases h

theorem round_eq_inr_iff {s : HttpContext × Bytes} {r : Bool × HttpContext × Bytes} :
    round s = some (.inr r) ↔ Stop s r := by
  refine ⟨fun h => ?_, Stop.round_eq⟩
  rcases next_or_stop s with ⟨t, ht⟩ | ⟨r', hr⟩
  · rw [ht.round_eq] at h
    cases h
  · rw [hr.round_eq] at h
    cases h
    exact hr

/-! ## More bytes -/

/-- **A round that goes on does the same when more bytes follow.** -/
theorem Next.append {c c' : HttpContext} {x x' : Bytes} (h : Next (c, x) (c', x')) (s : Bytes) :
    Next (c, x ++ s) (c', x' ++ s) := by
  have htake {i : ℕ} (hf : Delimiter.findPair CR LF x = some i) : (x ++ s).take i = x.take i :=
    List.take_append_of_le_length (by have := Delimiter.findPair_lt hf; omega)
  have hdrop {i : ℕ} (hf : Delimiter.findPair CR LF x = some i) :
      x.drop (2 + i) ++ s = (x ++ s).drop (2 + i) :=
    (List.drop_append_of_le_length (by have := Delimiter.findPair_lt hf; omega)).symm
  cases h with
  | requestLine hf hl =>
    rw [hdrop hf]
    exact .requestLine (Delimiter.findPair_append hf s) (by rw [htake hf, hl])
  | header hf hi hc =>
    rw [hdrop hf]
    exact .header (Delimiter.findPair_append hf s) hi (by rw [htake hf, hc])
  | emptyLine hf hp =>
    rw [hdrop hf]
    exact .emptyLine (Delimiter.findPair_append hf s) hp

/-- The rounds that go on do the same when more bytes follow. -/
theorem steps_append {c c' : HttpContext} {x x' : Bytes}
    (h : Loop.Steps round (c, x) (c', x')) (s : Bytes) :
    Loop.Steps round (c, x ++ s) (c', x' ++ s) := by
  generalize ht : (c, x) = t at h
  generalize ht' : (c', x') = t' at h
  induction h generalizing c x with
  | refl =>
    cases ht.trans ht'.symm
    exact .refl _
  | @next t₁ t₂ t₃ hb _ ih =>
    subst ht
    obtain ⟨c₂, x₂⟩ := t₂
    exact .next ((round_eq_inl_iff.mp hb).append s).round_eq (ih rfl ht')

/-! ## The empty line -/

/-- What follows the first empty line. -/
def afterHead (x : Bytes) : Option Bytes := Delimiter.after [CR, LF, CR, LF] x

/-- What a state of the loop says about the first empty line of the bytes `y` read since the request
began. -/
def EmptyLine (y : Bytes) (s : HttpContext × Bytes) : Prop :=
  match s.1.state with
  | .kExpectRequestLine => afterHead s.2 = afterHead y
  | .kExpectHeaders => afterHead (CR :: LF :: s.2) = afterHead y
  | .kExpectBody => afterHead y = some s.2
  | .kGotAll => True

theorem Next.emptyLine_of {y : Bytes} {s s' : HttpContext × Bytes} (h : Next s s')
    (hs : EmptyLine y s) : EmptyLine y s' := by
  cases h with
  | requestLine hf => exact (Delimiter.after_double hf).symm.trans hs
  | header hf hi =>
    refine (Delimiter.after_double hf).symm.trans ?_
    exact (Delimiter.after_double_cons (by decide) hf hi).symm.trans hs
  | @emptyLine q x hf =>
    -- the line is empty: its delimiter and the one before it are the pattern
    obtain ⟨t, rfl⟩ := Delimiter.exists_of_findPair_zero hf
    exact hs.symm.trans (Delimiter.after_self (List.cons_ne_nil _ _) t)

/-- **The body of a request starts after its first empty line.** -/
theorem steps_afterHead {q : HttpRequest} {y : Bytes} {s : HttpContext × Bytes}
    (h : Loop.Steps round (⟨q, .kExpectRequestLine⟩, y) s) : EmptyLine y s :=
  h.invariant (I := EmptyLine y) rfl fun _ _ hs hround =>
    (round_eq_inl_iff.mp hround).emptyLine_of hs

/-! ## Stopping for want of a line -/

/-- The parser is in the middle of a head. -/
def Waiting (c : HttpContext) : Prop :=
  c.state = .kExpectRequestLine ∨ c.state = .kExpectHeaders

/-- A round that leaves the loop found no line, or leaves it also when more bytes follow. -/
theorem Stop.append {c c' : HttpContext} {x x' : Bytes} {ok : Bool} (h : Stop (c, x) (ok, c', x'))
    (s : Bytes) : (Waiting c ∧ Delimiter.findPair CR LF x = none ∧ ok = true ∧ c' = c ∧ x' = x) ∨
      (Waiting c → 2 ≤ x.length) ∧ ∃ r, Stop (c, x ++ s) r := by
  have hlen {i : ℕ} (hf : Delimiter.findPair CR LF x = some i) : 2 ≤ x.length := by
    have := Delimiter.findPair_lt hf
    omega
  have htake {i : ℕ} (hf : Delimiter.findPair CR LF x = some i) : (x ++ s).take i = x.take i :=
    List.take_append_of_le_length (by have := Delimiter.findPair_lt hf; omega)
  generalize hr : (ok, c', x') = r at h
  cases h with
  | noLine hs hf => cases hr; exact .inl ⟨hs, hf, rfl, rfl, rfl⟩
  | badRequestLine hf hl =>
    exact .inr ⟨fun _ => hlen hf, _,
      .badRequestLine (Delimiter.findPair_append hf s) (by rw [htake hf, hl])⟩
  | badHeader hf hi hc =>
    exact .inr ⟨fun _ => hlen hf, _,
      .badHeader (Delimiter.findPair_append hf s) hi (by rw [htake hf, hc])⟩
  | emptyLine hf hp =>
    exact .inr ⟨fun _ => hlen hf, _, .emptyLine (Delimiter.findPair_append hf s) hp⟩
  | body => exact .inr ⟨fun hw => by simp [Waiting] at hw, _, .body⟩
  | gotAll => exact .inr ⟨fun hw => by simp [Waiting] at hw, _, .gotAll⟩

/-- The loop on any bytes has a result. -/
theorem exists_evals (c : HttpContext) (x : Bytes) : ∃ r, Loop.Evals round (c, x) r := by
  have h := parseRequest_evals c (ByteBuffer.new.append x)
  rw [ByteBuffer.bytes_append, ByteBuffer.bytes_new, List.nil_append] at h
  exact ⟨_, h⟩

end ByteStream

end Http

end Muduo
