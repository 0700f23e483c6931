import Muduo.Http.HttpHead
import Muduo.Foundations.Segments

/-! # The body of a POST

`parseRequestBody` takes a body only when exactly the announced number of bytes is readable: with
fewer it reports an error, with more it waits for ever. So a POST that arrives in pieces is read as
it was sent in one case only, and `framesBody_iff` says which: the length fits an `int`, a piece
ends at the last byte of the body, and no piece ends before it but after the head. -/

namespace Muduo

namespace Http

open HttpContext ByteStream

/-! ## The announced length -/

/-- A string of digits is read by `atoi` as the number it writes, cut to an `int`. -/
theorem atoi_digits {d : Bytes} (hd : isNum d = true) :
    atoi d = Int.bmod (min (decimal d : ℤ) (2 ^ 63 - 1)) (2 ^ 32) := by
  rw [atoi, strtol]
  cases d with
  | nil => rfl
  | cons c d =>
    have hall := List.all_eq_true.mp hd
    have hc := hall c List.mem_cons_self
    simp only [Bool.and_eq_true, decide_eq_true_eq] at hc
    -- a digit is neither blank nor sign
    have h1 : ¬isspace c = true := by
      have := UInt8.le_iff_toNat_le.mp hc.1
      simp only [isspace, SP, Bool.or_eq_true, beq_iff_eq, Bool.and_eq_true, decide_eq_true_eq,
        not_or, not_and]
      refine ⟨?_, fun _ => ?_⟩
      · rintro rfl
        exact absurd hc.1 (by decide)
      · intro hle
        have := UInt8.le_iff_toNat_le.mp hle
        simp at *
        omega
    have h2 : c ≠ 45 := by rintro rfl; exact absurd hc.1 (by decide)
    have h3 : c ≠ 43 := by rintro rfl; exact absurd hc.1 (by decide)
    have htake : (c :: d).takeWhile (fun c => 48 ≤ c && c ≤ 57) = c :: d :=
      List.takeWhile_eq_self_iff.mpr hall
    rw [List.dropWhile_cons_of_neg h1]
    simp only [if_neg h2, if_neg h3, htake]

/-- **The announced length is the one written exactly when it fits an `int`.** The other number is
what `-1` becomes in the comparison with `readableBytes()`. -/
theorem sizeT_atoi_eq_iff {d : Bytes} (hd : isNum d = true) :
    sizeT (atoi d) = decimal d ↔ decimal d < 2 ^ 31 ∨ decimal d = 2 ^ 64 - 1 := by
  rw [atoi_digits hd, sizeT, Int.bmod]
  generalize decimal d = n
  rcases le_total (n : ℤ) (2 ^ 63 - 1) with h | h
  · rw [min_eq_left h]
    split_ifs <;> omega
  · rw [min_eq_right h]
    norm_num
    omega

/-! ## Feeding the parser -/

/-- One more fragment runs the loop on what was left and the fragment. -/
theorem evals_feedOne {r : Bool × HttpContext × ByteBuffer} (hok : r.1 = true) (s : Bytes) :
    Loop.Evals round (r.2.1, r.2.2.bytes ++ s) (view (feedOne r s)) := by
  have h := parseRequest_evals r.2.1 (r.2.2.append s)
  rw [ByteBuffer.bytes_append] at h
  rwa [feedOne, if_pos hok]

/-- A run of calls that all answered true ends with a call on what the run before it left. -/
theorem exists_feed_of_concat {c : HttpContext} {b : ByteBuffer} {segs : List Bytes} {s : Bytes}
    (hok : (c.feed b (segs ++ [s])).1 = true) :
    ∃ c₁ x₁, view (c.feed b segs) = (true, c₁, x₁) ∧
      Loop.Evals round (c₁, x₁ ++ s) (view (c.feed b (segs ++ [s]))) := by
  have hfirst : (c.feed b segs).1 = true := by
    rw [feed_concat, feedOne] at hok
    by_contra hf
    rw [if_neg hf] at hok
    exact hf hok
  refine ⟨(c.feed b segs).2.1, (c.feed b segs).2.2.bytes, Prod.ext hfirst rfl, ?_⟩
  rw [feed_concat]
  exact evals_feedOne hfirst s

/-- As long as only rounds that go on have been made, the next fragment continues the loop. -/
theorem evals_feed_concat {c c' : HttpContext} {b : ByteBuffer} {segs : List Bytes} {x' : Bytes}
    (h : view (c.feed b segs) = (true, c', x'))
    (hsteps : Loop.Steps round (c, b.bytes ++ segs.flatten) (c', x')) (s : Bytes) :
    Loop.Evals round (c, b.bytes ++ (segs ++ [s]).flatten) (view (c.feed b (segs ++ [s]))) := by
  have hone := evals_feedOne (congrArg Prod.fst h) s
  have hstate : ((c.feed b segs).2.1, (c.feed b segs).2.2.bytes) = (c', x') :=
    congrArg Prod.snd h
  rw [show (c.feed b segs).2.1 = c' from congrArg Prod.fst hstate,
    show (c.feed b segs).2.2.bytes = x' from congrArg Prod.snd hstate] at hone
  rw [feed_concat, List.flatten_append, List.flatten_singleton, ← List.append_assoc]
  exact (steps_append hsteps s).evals hone

/-- The fragments after a given one are fed to what that one left. -/
theorem feed_append (c : HttpContext) (b : ByteBuffer) (segs segs' : List Bytes) :
    c.feed b (segs ++ segs') = segs'.foldl feedOne (c.feed b segs) := by
  simp [feed]

/-- What a fragment leaves as it is, apart from the buffer, all fragments leave. -/
theorem view_foldl_feedOne {c : HttpContext} {I : Bytes → Prop}
    (hone : ∀ x s, I x → I (x ++ s) ∧ Loop.Evals round (c, x ++ s) (true, c, x ++ s))
    {r : Bool × HttpContext × ByteBuffer} {x : Bytes} (hr : view r = (true, c, x)) (hx : I x)
    (segs : List Bytes) :
    view (segs.foldl feedOne r) = (true, c, x ++ segs.flatten) := by
  induction segs generalizing r x with
  | nil => simpa using hr
  | cons s segs ih =>
    obtain ⟨hI, hev⟩ := hone x s hx
    have h := evals_feedOne (congrArg Prod.fst hr) s
    have hstate : (r.2.1, r.2.2.bytes) = (c, x) := congrArg Prod.snd hr
    rw [show r.2.1 = c from congrArg Prod.fst hstate,
      show r.2.2.bytes = x from congrArg Prod.snd hstate] at h
    have := ih (h.unique hev) hI
    rwa [List.append_assoc, ← List.flatten_cons] at this

/-- Once the request is complete, further bytes stay in the buffer. -/
theorem view_foldl_gotAll {q : HttpRequest} {r : Bool × HttpContext × ByteBuffer} {x : Bytes}
    (hr : view r = (true, ⟨q, .kGotAll⟩, x)) (segs : List Bytes) :
    view (segs.foldl feedOne r) = (true, ⟨q, .kGotAll⟩, x ++ segs.flatten) :=
  view_foldl_feedOne (I := fun _ => True) (fun _ _ _ => ⟨trivial, .stop Stop.gotAll.round_eq⟩) hr
    trivial segs

/-- With more bytes than announced the parser waits for ever. -/
theorem view_foldl_overfull {q : HttpRequest} {r : Bool × HttpContext × ByteBuffer} {x : Bytes}
    (hnum : isNum (q.getHeader (ascii "content-length")) = true) (hx : announced q < x.length)
    (hr : view r = (true, ⟨q, .kExpectBody⟩, x)) (segs : List Bytes) :
    view (segs.foldl feedOne r) = (true, ⟨q, .kExpectBody⟩, x ++ segs.flatten) := by
  refine view_foldl_feedOne (I := fun x => announced q < x.length) ?_ hr hx segs
  intro x s hlt
  have hlt' : announced q < (x ++ s).length := by rw [List.length_append]; omega
  have := (Stop.body (q := q) (x := x ++ s)).round_eq
  rw [body, if_pos hnum, if_pos hlt'] at this
  exact ⟨hlt', .stop this⟩

namespace RequestHead

variable (h : RequestHead) (q : HttpRequest) {b : ByteBuffer} {segs : List Bytes}

/-- **Inside the head** every call answers true and waits. -/
theorem feed_beginning (hb : b.bytes = []) {t : Bytes} (ht : t ≠ [])
    (hsegs : segs.flatten ++ t = h.encode) :
    ∃ c x, view (feed ⟨q, .kExpectRequestLine⟩ b segs) = (true, c, x) ∧ Waiting c ∧
      Loop.Steps round (⟨q, .kExpectRequestLine⟩, b.bytes ++ segs.flatten) (c, x) := by
  induction segs using List.reverseRecOn generalizing t with
  | nil =>
    refine ⟨⟨q, .kExpectRequestLine⟩, [], by simp [view, hb], .inl rfl, ?_⟩
    rw [hb]
    exact .refl _
  | append_singleton segs s ih =>
    have hsegs' : segs.flatten ++ (s ++ t) = h.encode := by
      rw [← hsegs]; simp
    obtain ⟨c, x, hview, -, hsteps⟩ := ih (by simp [ht]) hsegs'
    obtain ⟨c', x', hsteps', hw, hev⟩ := h.steps_beginning q hsegs ht
    have hnext := evals_feed_concat hview hsteps s
    rw [hb, List.nil_append] at hnext ⊢
    exact ⟨c', x', hnext.unique hev, hw, hsteps'⟩

/-- **The call in which the head ends** does what one call on everything does. -/
theorem feed_crossing (hb : b.bytes = []) {s m : Bytes}
    (hlt : segs.flatten.length < h.encode.length)
    (hm : (segs ++ [s]).flatten = h.encode ++ m) :
    Loop.Evals round (⟨q, .kExpectRequestLine⟩, h.encode ++ m)
      (view (feed ⟨q, .kExpectRequestLine⟩ b (segs ++ [s]))) := by
  have hprefix : segs.flatten <+: h.encode ++ m := by
    rw [← hm, List.flatten_append]
    exact List.prefix_append _ _
  obtain ⟨t, hne, ht⟩ := Segments.exists_missing hprefix (List.prefix_append h.encode m) hlt
  obtain ⟨c, x, hview, -, hsteps⟩ := h.feed_beginning q hb hne ht
  have := evals_feed_concat hview hsteps s
  rwa [hb, List.nil_append, hm] at this

/-- After a POST head, the call gives what `parseRequestBody` makes of the rest. -/
theorem feed_crossing_post (hp : h.method = .kPost) (hb : b.bytes = []) {s m : Bytes}
    (hlt : segs.flatten.length < h.encode.length) (hm : (segs ++ [s]).flatten = h.encode ++ m) :
    view (feed ⟨q, .kExpectRequestLine⟩ b (segs ++ [s])) = ByteStream.body (h.fill q) m :=
  (h.feed_crossing q hb hlt hm).unique
    ((h.steps_encode_post q hp m).evals (.stop Stop.body.round_eq))

end RequestHead

/-! ## What framing asks for -/

section

variable (h : RequestHead) (c : HttpContext) (b : ByteBuffer) (body : Bytes) (segs : List Bytes)

/-- The request with head `h` and body `body` is read from the fragments as it was sent: no call
fails; the request is complete from the first call on at which all of the body is readable; then the
body is stored, and the bytes after it stay in the buffer. `done` are the fragments so far. -/
def FramesBody : Prop :=
  ∀ done, done <+: segs →
    (c.feed b done).1 = true ∧
    ((c.feed b done).2.1.state = .kGotAll ↔
      h.encode.length + body.length ≤ done.flatten.length) ∧
    (h.encode.length + body.length ≤ done.flatten.length →
      (c.feed b done).2.1.httpRequest.body = body ∧
      (c.feed b done).2.2.bytes = done.flatten.drop (h.encode.length + body.length))

/-- A fragment ends with the last byte of a body of `n` bytes, and none ends between the end of the
head and there. -/
def CutAtBodyEnd (n : ℕ) : Prop :=
  (∃ done, done <+: segs ∧ done.flatten.length = h.encode.length + n) ∧
    ∀ done, done <+: segs →
      ¬(h.encode.length ≤ done.flatten.length ∧ done.flatten.length < h.encode.length + n)

end

variable {h : RequestHead} {body suffix : Bytes} {segs : List Bytes}

/-- Where the head ends decides whether the body is cut out exactly. -/
theorem cutAtBodyEnd_iff {pre post : List Bytes} {s : Bytes} {n : ℕ}
    (hlt : pre.flatten.length < h.encode.length)
    (hle : h.encode.length ≤ (pre ++ [s]).flatten.length) :
    CutAtBodyEnd h (pre ++ s :: post) n ↔
      (pre ++ [s]).flatten.length = h.encode.length + n := by
  have hpre : pre ++ [s] <+: pre ++ s :: post := ⟨post, by simp⟩
  constructor
  · rintro ⟨⟨done, hdone, hlen⟩, hnone⟩
    have hge := hnone _ hpre
    rcases Segments.prefix_crossing hdone with hd | ⟨post', -, rfl⟩
    · have := Segments.length_flatten_le hd
      omega
    · have hd : pre ++ [s] <+: pre ++ s :: post' := ⟨post', by simp⟩
      have := Segments.length_flatten_le hd
      omega
  · intro heq
    refine ⟨⟨_, hpre, heq⟩, fun done hdone => ?_⟩
    rcases Segments.prefix_crossing hdone with hd | ⟨post', -, rfl⟩
    · have := Segments.length_flatten_le hd
      omega
    · have hd : pre ++ [s] <+: pre ++ s :: post' := ⟨post', by simp⟩
      have := Segments.length_flatten_le hd
      omega

/-- The bytes read once the crossing call was made. -/
theorem flatten_crossing {pre post : List Bytes} {s : Bytes}
    (hsegs : (pre ++ s :: post).flatten = h.encode ++ (body ++ suffix))
    (hle : h.encode.length ≤ (pre ++ [s]).flatten.length) :
    ∃ m, (pre ++ [s]).flatten = h.encode ++ m ∧ m ++ post.flatten = body ++ suffix := by
  have hflat : (pre ++ [s]).flatten ++ post.flatten = h.encode ++ (body ++ suffix) := by
    rw [← hsegs]; simp
  have hprefix : h.encode <+: (pre ++ [s]).flatten :=
    List.prefix_of_prefix_length_le ⟨_, rfl⟩ ⟨_, hflat⟩ hle
  obtain ⟨m, hm⟩ := hprefix
  refine ⟨m, hm.symm, ?_⟩
  rw [← hm, List.append_assoc] at hflat
  exact List.append_cancel_left hflat

/-- What `FramesBody` says of one call, in terms of what the call left. -/
theorem FramesBody.of_view {c : HttpContext} {b : ByteBuffer} (hP : FramesBody h c b body segs)
    {done : List Bytes} (hdone : done <+: segs) {ok : Bool} {c' : HttpContext} {x' : Bytes}
    (hview : view (c.feed b done) = (ok, c', x')) :
    ok = true ∧ (c'.state = .kGotAll ↔ h.encode.length + body.length ≤ done.flatten.length) ∧
      (h.encode.length + body.length ≤ done.flatten.length → c'.httpRequest.body = body) := by
  obtain ⟨hok, hgot, hbody⟩ := hP done hdone
  cases hview
  exact ⟨hok, hgot, fun hle => (hbody hle).1⟩

/-- If the call that ends the head also ends the body, the body is framed. -/
theorem framesBody_of_crossing {q q' : HttpRequest} {b : ByteBuffer} (hb : b.bytes = [])
    {pre post : List Bytes} {s : Bytes} (hlt : pre.flatten.length < h.encode.length)
    (hm : (pre ++ [s]).flatten = h.encode ++ body) (hq : q'.body = body)
    (hview : view (feed ⟨q, .kExpectRequestLine⟩ b (pre ++ [s])) = (true, ⟨q', .kGotAll⟩, [])) :
    FramesBody h ⟨q, .kExpectRequestLine⟩ b body (pre ++ s :: post) := by
  intro done hdone
  rcases Segments.prefix_crossing hdone with hd | ⟨post', -, rfl⟩
  · -- before that call the head is incomplete
    have hlen := Segments.length_flatten_le hd
    have hflat : done.flatten <+: h.encode ++ body := by
      obtain ⟨t, rfl⟩ := hd
      rw [← hm]
      exact ⟨t.flatten ++ s, by simp⟩
    obtain ⟨t, hne, ht⟩ :=
      Segments.exists_missing hflat (List.prefix_append h.encode body) (by omega)
    obtain ⟨c', x', hv, hw, -⟩ := h.feed_beginning q hb hne ht
    have hstate : (feed ⟨q, .kExpectRequestLine⟩ b done).2.1 = c' :=
      congrArg (fun r => r.2.1) hv
    have hnot : c'.state ≠ .kGotAll := by rcases hw with hw | hw <;> simp [hw]
    refine ⟨congrArg Prod.fst hv, ?_, fun hle => absurd hle (by omega)⟩
    rw [hstate]
    exact ⟨fun hg => absurd hg hnot, fun hle => absurd hle (by omega)⟩
  · -- from that call on the request is complete
    have hall := view_foldl_gotAll hview post'
    rw [← feed_append, List.append_assoc, List.singleton_append, List.nil_append] at hall
    have hflat : (pre ++ s :: post').flatten = h.encode ++ body ++ post'.flatten := by
      rw [← hm]; simp
    have hle : h.encode.length + body.length ≤ (pre ++ s :: post').flatten.length := by
      rw [hflat, List.length_append, List.length_append]; omega
    have hstate := congrArg (fun r => r.2.1) hall
    refine ⟨congrArg Prod.fst hall, ?_, fun _ => ⟨?_, ?_⟩⟩
    · rw [show (feed _ b (pre ++ s :: post')).2.1 = _ from hstate]
      exact ⟨fun _ => hle, fun _ => rfl⟩
    · rw [show (feed _ b (pre ++ s :: post')).2.1 = _ from hstate]
      exact hq
    · rw [show (feed _ b (pre ++ s :: post')).2.2.bytes = _ from congrArg (fun r => r.2.2) hall,
        hflat, ← List.length_append, List.drop_left]

/-- If the body is framed, the call that ends the head has exactly the body after it. -/
theorem crossing_of_framesBody {q : HttpRequest} {b : ByteBuffer} {pre post : List Bytes}
    {s m : Bytes} {Q : HttpRequest} (hnum : isNum (Q.getHeader (ascii "content-length")) = true)
    (hm : (pre ++ [s]).flatten = h.encode ++ m)
    (hall : h.encode.length + body.length ≤ (pre ++ s :: post).flatten.length)
    (hview : view (feed ⟨q, .kExpectRequestLine⟩ b (pre ++ [s])) = ByteStream.body Q m)
    (hP : FramesBody h ⟨q, .kExpectRequestLine⟩ b body (pre ++ s :: post)) :
    announced Q = body.length ∧ m.length = body.length := by
  have hpre : pre ++ [s] <+: pre ++ s :: post := ⟨post, by simp⟩
  have hlen : (pre ++ [s]).flatten.length = h.encode.length + m.length := by
    rw [hm, List.length_append]
  rw [ByteStream.body, if_pos hnum] at hview
  split_ifs at hview with hlt heq
  · -- too many bytes: the request would never be complete
    have hlast := view_foldl_overfull hnum hlt hview post
    rw [← feed_append, List.append_assoc, List.singleton_append] at hlast
    have hgot := (hP.of_view List.prefix_rfl hlast).2.1.mpr hall
    cases hgot
  · obtain ⟨-, hgot, hbody⟩ := hP.of_view hpre hview
    have hmb : m = body := hbody (hgot.mp rfl)
    rw [← hmb]
    exact ⟨heq, rfl⟩
  · -- too few bytes: the call fails
    exact absurd (hP.of_view hpre hview).1 Bool.false_ne_true

/-- **When a POST is read as it was sent.** Whatever the fragments in which head, body and further
bytes arrive: the body is framed if and only if the announced length is one that `atoi` and the
comparison with `size_t` keep, and the fragments cut the stream at the end of the body and not
between the end of the head and there. -/
theorem framesBody_iff (hp : h.method = .kPost) {d : Bytes}
    (hd : h.field (ascii "content-length") = some d) (hnum : isNum d = true)
    (hn : decimal d = body.length) (hsegs : segs.flatten = h.encode ++ (body ++ suffix))
    {c : HttpContext} (hc : c.state = .kExpectRequestLine) {b : ByteBuffer} (hb : b.bytes = []) :
    FramesBody h c b body segs ↔
      (decimal d < 2 ^ 31 ∨ decimal d = 2 ^ 64 - 1) ∧ CutAtBodyEnd h segs (decimal d) := by
  obtain ⟨q, state⟩ := c
  cases hc
  have hpos : 0 < h.encode.length := List.length_pos_iff.mpr h.encode_ne_nil
  obtain ⟨pre, s, post, rfl, hlt, hle⟩ := Segments.exists_crossing hpos
    (by rw [hsegs, List.length_append]; omega)
  obtain ⟨m, hm, hrest⟩ := flatten_crossing hsegs hle
  have hcross := h.feed_crossing_post q hp hb hlt hm
  have hlookup := h.getHeader_fill q hd
  have hann : announced (h.fill q) = sizeT (atoi d) := by rw [announced, hlookup]
  have hnum' : isNum ((h.fill q).getHeader (ascii "content-length")) = true := by rwa [hlookup]
  have hlen : (pre ++ [s]).flatten.length = h.encode.length + m.length := by
    rw [hm, List.length_append]
  rw [cutAtBodyEnd_iff hlt hle, ← sizeT_atoi_eq_iff hnum, ← hann, hlen, hn]
  constructor
  · intro hP
    have hall : h.encode.length + body.length ≤ (pre ++ s :: post).flatten.length := by
      rw [hsegs, List.length_append, List.length_append]; omega
    obtain ⟨hA, hmlen⟩ := crossing_of_framesBody hnum' hm hall hcross hP
    exact ⟨hA, by omega⟩
  · rintro ⟨hA, hmlen⟩
    obtain ⟨rfl, -⟩ := List.append_inj hrest (by omega)
    refine framesBody_of_crossing hb hlt hm (rfl : ((h.fill q).setBody m).body = m) ?_
    rw [hcross, ByteStream.body, if_pos hnum', if_neg (by omega), if_pos (by omega)]

/-- The head of a POST that announces five bytes. -/
def loopbackPost : RequestHead where
  method := .kPost
  path := ascii "/loopback"
  query := none
  version := .kHttp11
  headers := [(ascii "Content-Length", ascii " 5")]
  method_known := by decide
  version_known := kHttp11_known
  path_clean := by decide
  query_clean := clean_none
  headers_clean := by decide

/-- Head and body in one fragment, the next request in another. -/
theorem framesBody_loopbackPost :
    FramesBody loopbackPost new .new (ascii "hello")
      [loopbackPost.encode ++ ascii "hello", ascii "GET"] := by
  refine (framesBody_iff (d := ascii "5") (by decide +kernel) (by decide +kernel) (by decide +kernel)
    (by decide +kernel) (by decide +kernel : _ = _ ++ (_ ++ ascii "GET")) rfl
    ByteBuffer.bytes_new).mpr ⟨by decide +kernel, ?_⟩
  exact (cutAtBodyEnd_iff (by decide +kernel : ([] : List Bytes).flatten.length < _)
    (by decide +kernel)).mpr (by decide +kernel)

/-- **A POST whose body arrives after its head is refused.** -/
theorem not_framesBody_split :
    ¬∀ (h : RequestHead) (d body suffix : Bytes) (segs : List Bytes), h.method = .kPost →
      h.field (ascii "content-length") = some d → isNum d = true → decimal d = body.length →
        segs.flatten = h.encode ++ (body ++ suffix) → FramesBody h new .new body segs := by
  intro hall
  have hP := hall loopbackPost (ascii "5") (ascii "hello") [] [loopbackPost.encode, ascii "hello"]
    (by decide +kernel) (by decide +kernel) (by decide +kernel) (by decide +kernel)
    (by decide +kernel)
  have hok := (hP _ List.prefix_rfl).1
  exact absurd hok (by decide +kernel)

end Http

end Muduo
