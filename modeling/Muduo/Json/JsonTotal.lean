import Muduo.Json.JsonGrammar

/-! # When the parser returns

`fromString_returns_iff`: parsing a text ends with a value exactly on the texts of the grammar. On
every other text it fails an assertion, reads behind the terminating NUL, throws, or runs for ever.

`sound` goes from a result to a derivation by induction on the number of steps, `complete` from a
derivation to enough steps. -/

namespace Muduo

namespace Json

/-- A mapped computation ends normally where the computation does. -/
theorem map_eq_ok {α β : Type*} {x : Except Fault α} {f : α → β} {b : β} :
    x.map f = .ok b ↔ ∃ a, x = .ok a ∧ f a = b := by
  cases x with
  | error e => simp [Except.map]
  | ok a => simp [Except.map]

/-- A sequence of two computations ends normally where both do. -/
theorem bind_eq_ok {α β : Type*} {x : Except Fault α} {f : α → Except Fault β} {b : β} :
    x.bind f = .ok b ↔ ∃ a, x = .ok a ∧ f a = .ok b := by
  cases x with
  | error e => simp [Except.bind]
  | ok a => simp [Except.bind]

/-! ## The branches of `parseObject` -/

section

variable {n : ℕ} {s s' : Bytes} (o : JsonValue)

theorem parseObject_brace (h : skipSpace s = LBRACE :: s') :
    parseObject (n + 1) s o = (parseHash n (skipSpace s') []).map fun p =>
      (skipSpace p.1, { o with elements := p.2, type := .kHash }) := by
  simp only [parseObject, h, peek_cons, if_true, List.drop_succ_cons, List.drop_zero]
  cases parseHash n (skipSpace s') [] <;> rfl

theorem parseObject_bracket (h : skipSpace s = LBRACKET :: s') :
    parseObject (n + 1) s o = (parseArray n (skipSpace s') []).map fun p =>
      (skipSpace p.1, { o with elements := p.2, type := .kArray }) := by
  have h1 : LBRACKET ≠ LBRACE := by decide
  simp only [parseObject, h, peek_cons, if_neg h1, if_true, List.drop_succ_cons, List.drop_zero]
  cases parseArray n (skipSpace s') [] <;> rfl

theorem parseObject_quote (h : skipSpace s = QUOTE :: s') :
    parseObject (n + 1) s o = (parseString (QUOTE :: s')).map fun p =>
      (skipSpace p.1, { o with str := p.2, type := .kString }) := by
  have h1 : QUOTE ≠ LBRACE := by decide
  have h2 : QUOTE ≠ LBRACKET := by decide
  simp only [parseObject, h, peek_cons, if_neg h1, if_neg h2, if_true]
  cases parseString (QUOTE :: s') <;> rfl

theorem parseObject_digit {c : UInt8} (h : skipSpace s = c :: s') (hc : isdigit c = true) :
    parseObject (n + 1) s o = (parseNumber (c :: s')).map fun p =>
      (skipSpace p.1, { o with num := p.2.1, type := p.2.2 }) := by
  have h1 : c ≠ LBRACE := by rintro rfl; exact absurd hc (by decide)
  have h2 : c ≠ LBRACKET := by rintro rfl; exact absurd hc (by decide)
  have h3 : c ≠ QUOTE := by rintro rfl; exact absurd hc (by decide)
  simp only [parseObject, h, peek_cons, if_neg h1, if_neg h2, if_neg h3, if_pos hc]
  cases parseNumber (c :: s') <;> rfl

theorem parseObject_true (h : skipSpace s = ascii "true" ++ s') :
    parseObject (n + 1) s o =
      .ok (skipSpace s', { o with num := .boolNum true, type := .kBool }) := by
  simp only [parseObject, h]
  rw [← skipSpace_skipSpace s']
  rfl

theorem parseObject_false (h : skipSpace s = ascii "false" ++ s') :
    parseObject (n + 1) s o =
      .ok (skipSpace s', { o with num := .boolNum false, type := .kBool }) := by
  simp only [parseObject, h]
  rw [← skipSpace_skipSpace s']
  rfl

/-- Where no value begins, nothing is consumed but the blanks, and at most the type changes. -/
theorem parseObject_unread (h : ¬BeginsValue (skipSpace s)) :
    ∃ v, parseObject (n + 1) s o = .ok (skipSpace s, v) ∧ (v = o ∨ v = { o with type := .kNull }) := by
  have hhead : ∀ c, c ≠ 0 → peek (skipSpace s) = c →
      ¬(c = LBRACE ∨ c = LBRACKET ∨ c = QUOTE ∨ isdigit c = true) := by
    intro c hc0 hc hor
    rw [eq_cons_of_peek hc hc0] at h
    exact h (.inl ⟨c, rfl, hor⟩)
  have h1 : peek (skipSpace s) ≠ LBRACE := fun hc => hhead _ (by decide) hc (.inl rfl)
  have h2 : peek (skipSpace s) ≠ LBRACKET := fun hc => hhead _ (by decide) hc (.inr (.inl rfl))
  have h3 : peek (skipSpace s) ≠ QUOTE := fun hc => hhead _ (by decide) hc (.inr (.inr (.inl rfl)))
  have h4 : ¬isdigit (peek (skipSpace s)) = true := by
    intro hd
    refine hhead _ ?_ rfl (.inr (.inr (.inr hd)))
    intro h0
    rw [h0] at hd
    exact absurd hd (by decide)
  have h5 : (skipSpace s).take 4 ≠ ascii "true" := fun ht =>
    h (.inr (.inl (List.prefix_iff_eq_take.mpr ht.symm)))
  have h6 : (skipSpace s).take 5 ≠ ascii "false" := fun ht =>
    h (.inr (.inr (List.prefix_iff_eq_take.mpr ht.symm)))
  simp only [parseObject, if_neg h1, if_neg h2, if_neg h3, if_neg h4, if_neg h5, if_neg h6,
    skipSpace_skipSpace]
  split_ifs
  · exact ⟨_, rfl, .inr rfl⟩
  · exact ⟨_, rfl, .inl rfl⟩

/-- A fresh value stays as it is. -/
theorem parseObject_nothing (h : ¬BeginsValue (skipSpace s)) :
    ∃ v, parseObject (n + 1) s o = .ok (skipSpace s, v) ∧ (o.type = .kNull → v = o) := by
  obtain ⟨v, hv, hor⟩ := parseObject_unread (n := n) o h
  refine ⟨v, hv, fun ho => ?_⟩
  rcases hor with rfl | rfl
  · rfl
  · cases o
    cases ho
    rfl

end

/-! ## Strings -/

theorem copyString_eq_ok {s t str : Bytes} :
    copyString s = .ok (t, str) ↔ s = str ++ QUOTE :: t ∧ QUOTE ∉ str := by
  induction s generalizing str with
  | nil => simp [copyString]
  | cons c s ih =>
    rw [copyString]
    by_cases hc : c = QUOTE
    · subst hc
      rw [if_pos rfl]
      cases str with
      | nil => simp
      | cons b str => simp; rintro rfl; simp
    · rw [if_neg hc]
      constructor
      · intro h
        obtain ⟨⟨t', str'⟩, hp, heq⟩ := map_eq_ok.mp h
        cases heq
        obtain ⟨rfl, hnot⟩ := ih.mp hp
        exact ⟨rfl, by simp [hnot, Ne.symm hc]⟩
      · rintro ⟨heq, hnot⟩
        cases str with
        | nil => simp at heq; exact absurd heq.1 hc
        | cons b str =>
          simp only [List.cons_append, List.cons.injEq] at heq
          obtain ⟨rfl, rfl⟩ := heq
          rw [List.mem_cons, not_or] at hnot
          rw [ih.mpr ⟨rfl, hnot.2⟩]
          rfl

/-- A character that is no blank ends the blanks. -/
theorem skipSpace_append_cons {c : UInt8} (hc : isBlank c = false) (s t : Bytes) :
    skipSpace (s ++ c :: t) = skipSpace s ++ c :: t := by
  obtain ⟨w, hw, hs⟩ := exists_blank s
  have h := noBlank_skipSpace s
  rw [hs, List.append_assoc, skipSpace_append hw, skipSpace_append hw, skipSpace_skipSpace]
  refine skipSpace_of_noBlank ?_
  cases hu : skipSpace s with
  | nil => exact noBlank_cons hc t
  | cons b u =>
    rw [hu] at h
    exact noBlank_cons (h b rfl) _

/-- Skipping blanks brings no character in. -/
theorem notMem_skipSpace {c : UInt8} {s : Bytes} (h : c ∉ s) : c ∉ skipSpace s :=
  fun hm => h ((List.dropWhile_sublist _).subset hm)

/-- A closed string is read without the blanks in front. -/
theorem parseString_closed {str : Bytes} (hnot : QUOTE ∉ str) (u : Bytes) :
    parseString (QUOTE :: (str ++ QUOTE :: u)) = .ok (skipSpace u, skipSpace str) := by
  have hcopy : copyString (skipSpace (str ++ QUOTE :: u)) = .ok (u, skipSpace str) := by
    rw [skipSpace_append_cons (by decide)]
    exact copyString_eq_ok.mpr ⟨rfl, notMem_skipSpace hnot⟩
  rw [parseString, if_pos (peek_cons _ _), List.drop_succ_cons, List.drop_zero, hcopy]
  rfl

/-- **A string is read exactly if it is closed.** -/
theorem parseString_eq_ok {s t : Bytes} :
    (∃ str, parseString s = .ok (t, str)) ↔
      ∃ str u, s = QUOTE :: (str ++ QUOTE :: u) ∧ QUOTE ∉ str ∧ t = skipSpace u := by
  constructor
  · rintro ⟨str, h⟩
    rw [parseString] at h
    split_ifs at h with hq
    obtain ⟨⟨u, str'⟩, hcopy, heq⟩ := map_eq_ok.mp h
    cases heq
    obtain ⟨hsplit, hnot⟩ := copyString_eq_ok.mp hcopy
    obtain ⟨w, hw, hs⟩ := exists_blank (s.drop 1)
    refine ⟨w ++ str', u, ?_, ?_, rfl⟩
    · rw [eq_cons_of_peek hq (by decide), hs, hsplit, List.append_assoc]
    · rw [List.mem_append, not_or]
      exact ⟨fun hm => absurd (hw _ hm) (by decide), hnot⟩
  · rintro ⟨str, u, rfl, hnot, rfl⟩
    exact ⟨skipSpace str, parseString_closed hnot u⟩

/-! ## Numbers -/

theorem isNumChar_of_isdigit {c : UInt8} (h : isdigit c = true) : isNumChar c = true := by
  simp [isNumChar, h]

/-- A run of number characters ends where it was written to end. -/
theorem takeWhile_number {d t : Bytes} (hd : ∀ b ∈ d, isNumChar b = true)
    (ht : ∀ b ∈ t.head?, isNumChar b = false) : (d ++ t).takeWhile isNumChar = d := by
  rw [List.takeWhile_append_of_pos hd]
  cases t with
  | nil => simp
  | cons b t =>
    rw [List.takeWhile_cons_of_neg (by simp [ht b rfl]), List.append_nil]

/-- Every text begins with a run of number characters, possibly empty. -/
theorem exists_number (s : Bytes) : ∃ d u, s = d ++ u ∧ (∀ b ∈ d, isNumChar b = true) ∧
    ∀ b ∈ u.head?, isNumChar b = false := by
  refine ⟨s.takeWhile isNumChar, s.dropWhile isNumChar, List.takeWhile_append_dropWhile.symm,
    fun b hb => List.mem_takeWhile_imp hb, fun b hb => ?_⟩
  have h := List.head?_dropWhile_not isNumChar s
  rw [Option.mem_def.mp hb] at h
  exact h

/-- What `parseNumber` does with a run of number characters. -/
theorem parseNumber_append {c : UInt8} {d u : Bytes} (hc : isdigit c = true)
    (hd : ∀ b ∈ d, isNumChar b = true) (hu : ∀ b ∈ u.head?, isNumChar b = false) :
    parseNumber (c :: (d ++ u)) =
      if DOT ∈ d then .ok (skipSpace u, .floatNum (c :: (d ++ u)), .kFloat)
      else if decimal (c :: d) < 2 ^ 63 then .ok (skipSpace u, .intNum (decimal (c :: d)), .kInt)
      else .error .outOfRange := by
  have htake : (c :: (d ++ u)).takeWhile isNumChar = c :: d := by
    rw [List.takeWhile_cons_of_pos (isNumChar_of_isdigit hc), takeWhile_number hd hu]
  have hdrop : (c :: (d ++ u)).drop (c :: d).length = u := by
    rw [← List.cons_append]
    exact List.drop_left
  rw [parseNumber, htake]
  simp only [hdrop, List.tail_cons]

/-- **A number is read exactly if the grammar has it.** -/
theorem parseNumber_eq_ok {c : UInt8} {s t : Bytes} (hc : isdigit c = true) :
    (∃ p, parseNumber (c :: s) = .ok (t, p)) ↔
      ∃ d u, s = d ++ u ∧ (∀ b ∈ d, isNumChar b = true) ∧ (∀ b ∈ u.head?, isNumChar b = false) ∧
        (DOT ∈ d ∨ decimal (c :: d) < 2 ^ 63) ∧ t = skipSpace u := by
  constructor
  · rintro ⟨p, h⟩
    obtain ⟨d, u, rfl, hd, hu⟩ := exists_number s
    rw [parseNumber_append hc hd hu] at h
    refine ⟨d, u, rfl, hd, hu, ?_⟩
    split_ifs at h with h1 h2
    · cases h
      exact ⟨.inl h1, rfl⟩
    · cases h
      exact ⟨.inr h2, rfl⟩
  · rintro ⟨d, u, rfl, hd, hu, hor, rfl⟩
    rw [parseNumber_append hc hd hu]
    split_ifs with h1 h2
    · exact ⟨_, rfl⟩
    · exact ⟨_, rfl⟩
    · exact absurd hor (not_or.mpr ⟨h1, h2⟩)

/-! ## Between two elements -/

/-- Where the loops of `parseHash` and `parseArray` go on after an element that `u` follows. -/
def nextElement (u : Bytes) : Bytes :=
  if peek (skipSpace u) = COMMA then skipSpace ((skipSpace u).drop 1) else skipSpace u

/-- The test for a comma in the loops. -/
theorem ite_nextElement {α : Type*} (f : Bytes → α) (u : Bytes) :
    (if peek (skipSpace u) = COMMA then f (skipSpace ((skipSpace u).drop 1)) else f (skipSpace u)) =
      f (nextElement u) := by
  rw [nextElement]
  split_ifs <;> rfl

theorem noBlank_nextElement (u : Bytes) : NoBlank (nextElement u) := by
  rw [nextElement]
  split_ifs <;> exact noBlank_skipSpace _

theorem separated_nextElement (u : Bytes) : Separated u (nextElement u) := by
  obtain ⟨w, hw, hu⟩ := exists_blank u
  rw [nextElement]
  by_cases hc : peek (skipSpace u) = COMMA
  · rw [if_pos hc]
    obtain ⟨w', hw', hu'⟩ := exists_blank ((skipSpace u).drop 1)
    have h := Separated.comma hw hw' (s := skipSpace ((skipSpace u).drop 1))
    rwa [← hu', ← eq_cons_of_peek hc (by decide), ← hu] at h
  · rw [if_neg hc]
    have h := Separated.blank hw (s := skipSpace u) fun hh => hc (by
      rw [peek, List.headD_eq_head?_getD, hh]
      rfl)
    rwa [← hu] at h

theorem nextElement_of_separated {u s : Bytes} (h : Separated u s) (hs : NoBlank s) :
    nextElement u = s := by
  cases h with
  | @blank w _ hw hne =>
    have hc : ¬peek s = COMMA := by
      intro hc
      rw [eq_cons_of_peek hc (by decide)] at hne
      exact hne rfl
    rw [nextElement, skipSpace_append hw, skipSpace_of_noBlank hs, if_neg hc]
  | @comma w w' _ hw hw' =>
    have hcomma : skipSpace (w ++ COMMA :: (w' ++ s)) = COMMA :: (w' ++ s) := by
      rw [skipSpace_append hw, skipSpace_of_noBlank (noBlank_cons (by decide) _)]
    rw [nextElement, hcomma, if_pos (peek_cons _ _), List.drop_succ_cons, List.drop_zero,
      skipSpace_append hw', skipSpace_of_noBlank hs]

/-! ## From a result to a derivation -/

/-- `Branch n o s t v`: a branch of `parseObject` that makes `v` of `o`, at a text `s` without
blanks in front, and stops at `t`. -/
inductive Branch (n : ℕ) (o : JsonValue) : Bytes → Bytes → JsonValue → Prop
  | object {s t : Bytes} {es : List JsonValue} : parseHash n (skipSpace s) [] = .ok (t, es) →
      Branch n o (LBRACE :: s) (skipSpace t) { o with elements := es, type := .kHash }
  | array {s t : Bytes} {es : List JsonValue} : parseArray n (skipSpace s) [] = .ok (t, es) →
      Branch n o (LBRACKET :: s) (skipSpace t) { o with elements := es, type := .kArray }
  | string {str t : Bytes} : QUOTE ∉ str →
      Branch n o (QUOTE :: (str ++ QUOTE :: t)) (skipSpace t)
        { o with str := skipSpace str, type := .kString }
  | float {c : UInt8} {d t : Bytes} : isdigit c = true → (∀ b ∈ d, isNumChar b = true) → DOT ∈ d →
      (∀ b ∈ t.head?, isNumChar b = false) →
      Branch n o (c :: d ++ t) (skipSpace t)
        { o with num := .floatNum (c :: d ++ t), type := .kFloat }
  | int {c : UInt8} {d t : Bytes} : isdigit c = true → (∀ b ∈ d, isNumChar b = true) → DOT ∉ d →
      decimal (c :: d) < 2 ^ 63 → (∀ b ∈ t.head?, isNumChar b = false) →
      Branch n o (c :: d ++ t) (skipSpace t)
        { o with num := .intNum (decimal (c :: d)), type := .kInt }
  | litTrue {t : Bytes} :
      Branch n o (ascii "true" ++ t) (skipSpace t) { o with num := .boolNum true, type := .kBool }
  | litFalse {t : Bytes} :
      Branch n o (ascii "false" ++ t) (skipSpace t) { o with num := .boolNum false, type := .kBool }
  | nothing {s : Bytes} {v : JsonValue} : ¬BeginsValue s → (o.type = .kNull → v = o) →
      Branch n o s s v

/-- A result of `parseObject` is the result of a branch. -/
theorem branch_of_parseObject {n : ℕ} {s t : Bytes} {o v : JsonValue}
    (hok : parseObject (n + 1) s o = .ok (t, v)) : Branch n o (skipSpace s) t v := by
  by_cases hb : BeginsValue (skipSpace s)
  · rcases hb with ⟨c, hc, hcase⟩ | ⟨s', hs'⟩ | ⟨s', hs'⟩
    · obtain ⟨s', hs'⟩ : ∃ s', skipSpace s = c :: s' := List.head?_eq_some_iff.mp hc
      rcases hcase with rfl | rfl | rfl | hdigit
      · -- an object
        rw [parseObject_brace o hs'] at hok
        obtain ⟨⟨t', es⟩, hp, heq⟩ := map_eq_ok.mp hok
        cases heq
        rw [hs']
        exact .object hp
      · -- an array
        rw [parseObject_bracket o hs'] at hok
        obtain ⟨⟨t', es⟩, hp, heq⟩ := map_eq_ok.mp hok
        cases heq
        rw [hs']
        exact .array hp
      · -- a string
        rw [parseObject_quote o hs'] at hok
        obtain ⟨⟨t', str'⟩, hp, heq⟩ := map_eq_ok.mp hok
        cases heq
        obtain ⟨str, u, hsplit, hnot, rfl⟩ := parseString_eq_ok.mp ⟨_, hp⟩
        rw [hsplit, parseString_closed hnot] at hp
        cases hp
        rw [hs', hsplit, skipSpace_skipSpace]
        exact .string hnot
      · -- a number
        rw [parseObject_digit o hs' hdigit] at hok
        obtain ⟨⟨t', num, type⟩, hp, heq⟩ := map_eq_ok.mp hok
        cases heq
        obtain ⟨d, u, rfl, hd, hu⟩ := exists_number s'
        rw [parseNumber_append hdigit hd hu] at hp
        rw [hs', ← List.cons_append]
        split_ifs at hp with hdot hlt
        · cases hp
          rw [skipSpace_skipSpace]
          exact .float hdigit hd hdot hu
        · cases hp
          rw [skipSpace_skipSpace]
          exact .int hdigit hd hdot hlt hu
    · -- `true`, and then `false`
      rw [parseObject_true o hs'.symm] at hok
      cases hok
      exact hs' ▸ .litTrue
    · rw [parseObject_false o hs'.symm] at hok
      cases hok
      exact hs' ▸ .litFalse
  · obtain ⟨v', hv', hfresh⟩ := parseObject_nothing (n := n) o hb
    rw [hv'] at hok
    cases hok
    exact .nothing hb hfresh

/-- What a result within `n` steps says about the text. -/
structure SoundAt (n : ℕ) : Prop where
  /-- `parseObject` skips blanks, and a value if one begins there. -/
  object : ∀ s o t v, parseObject n s o = .ok (t, v) →
    ¬BeginsValue (skipSpace s) ∧ t = skipSpace s ∨
      ∃ u, Grammar .value (skipSpace s) u ∧ t = skipSpace u
  /-- The loop of `parseHash` reads members. -/
  members : ∀ s es t es', NoBlank s → parseHash n s es = .ok (t, es') →
    ∃ u, Grammar .members s u ∧ t = skipSpace u
  /-- The loop of `parseArray` reads items. -/
  items : ∀ s es t es', NoBlank s → parseArray n s es = .ok (t, es') →
    ∃ u, Grammar .items s u ∧ t = skipSpace u

theorem SoundAt.object_succ {n : ℕ} (h : SoundAt n) (s : Bytes) (o : JsonValue) (t : Bytes)
    (v : JsonValue) (hok : parseObject (n + 1) s o = .ok (t, v)) :
    ¬BeginsValue (skipSpace s) ∧ t = skipSpace s ∨
      ∃ u, Grammar .value (skipSpace s) u ∧ t = skipSpace u := by
  have hbranch := branch_of_parseObject hok
  generalize skipSpace s = x at hbranch
  cases hbranch with
  | @object s t es hp =>
    obtain ⟨w, hw, hs⟩ := exists_blank s
    obtain ⟨u, hg, rfl⟩ := h.members _ _ _ _ (noBlank_skipSpace s) hp
    refine .inr ⟨u, ?_, skipSpace_skipSpace u⟩
    rw [hs]
    exact .object hw hg
  | @array s t es hp =>
    obtain ⟨w, hw, hs⟩ := exists_blank s
    obtain ⟨u, hg, rfl⟩ := h.items _ _ _ _ (noBlank_skipSpace s) hp
    refine .inr ⟨u, ?_, skipSpace_skipSpace u⟩
    rw [hs]
    exact .array hw hg
  | string hnot => exact .inr ⟨_, .string hnot, rfl⟩
  | float hc hd hdot ht => exact .inr ⟨_, .float hc hd hdot ht, rfl⟩
  | @int c d t hc hd hdot hlt ht =>
    refine .inr ⟨t, .int hc (fun b hb => ?_) hlt ht, rfl⟩
    have := hd b hb
    rw [isNumChar, Bool.or_eq_true, beq_iff_eq] at this
    exact this.resolve_right fun he => hdot (he ▸ hb)
  | litTrue => exact .inr ⟨_, .litTrue, rfl⟩
  | litFalse => exact .inr ⟨_, .litFalse, rfl⟩
  | nothing hnone => exact .inl ⟨hnone, rfl⟩

/-- One member: what a round of `parseHash` that goes on has read. -/
theorem parseHash_round {n : ℕ} {s : Bytes} {es : List JsonValue} {r : Bytes × List JsonValue}
    (hs : peek s ≠ RBRACE) (h : parseHash (n + 1) s es = .ok r) :
    ∃ key u₁ w s₁ t v, s = QUOTE :: (key ++ QUOTE :: u₁) ∧ QUOTE ∉ key ∧ Blank w ∧
      u₁ = w ++ COLON :: s₁ ∧
      parseObject n s₁ { JsonValue.new with key := skipSpace key } = .ok (t, v) ∧
      (if peek t = COMMA then parseHash n (skipSpace (t.drop 1)) (es ++ [v])
        else parseHash n t (es ++ [v])) = .ok r := by
  rw [parseHash, if_neg hs] at h
  cases hp : parseString s with
  | error e => rw [hp] at h; cases h
  | ok p =>
    obtain ⟨t₁, key⟩ := p
    obtain ⟨str, u₁, rfl, hnot, rfl⟩ := parseString_eq_ok.mp ⟨_, hp⟩
    rw [parseString_closed hnot] at hp
    cases hp
    rw [parseString_closed hnot] at h
    replace h : (if peek (skipSpace u₁) = COLON then _ else _) = Except.ok r := h
    split_ifs at h with hcolon
    obtain ⟨w, hw, hu₁⟩ := exists_blank u₁
    cases ho : parseObject n ((skipSpace u₁).drop 1)
        { JsonValue.new with key := skipSpace str } with
    | error e => rw [ho] at h; cases h
    | ok q =>
      rw [ho] at h
      refine ⟨str, u₁, w, (skipSpace u₁).drop 1, q.1, q.2, rfl, hnot, hw, ?_, ho, h⟩
      rw [← eq_cons_of_peek hcolon (by decide)]
      exact hu₁

theorem SoundAt.members_succ {n : ℕ} (h : SoundAt n) (s : Bytes) (es : List JsonValue) (t : Bytes)
    (es' : List JsonValue) (hok : parseHash (n + 1) s es = .ok (t, es')) :
    ∃ u, Grammar .members s u ∧ t = skipSpace u := by
  by_cases hend : peek s = RBRACE
  · rw [parseHash, if_pos hend] at hok
    cases hok
    refine ⟨s.drop 1, ?_, rfl⟩
    rw [eq_cons_of_peek hend (by decide)]
    exact .endMembers
  · -- a round that goes on has read a key and a colon
    obtain ⟨key, u₁, w, s₁, t₁, v, rfl, hnot, hw, rfl, ho, hrest⟩ := parseHash_round hend hok
    obtain ⟨w', hw', hs₁⟩ := exists_blank s₁
    rcases h.object _ _ _ _ ho with ⟨hnone, rfl⟩ | ⟨u₂, hg, rfl⟩
    · -- no value: a comma or the end must follow
      have hsep := separated_nextElement (skipSpace s₁)
      rw [← skipSpace_skipSpace s₁, ite_nextElement (fun x => parseHash n x (es ++ [v]))] at hrest
      obtain ⟨u, hmem, rfl⟩ := h.members _ _ _ _ (noBlank_nextElement _) hrest
      refine ⟨u, ?_, rfl⟩
      rw [hs₁]
      refine .noValue hnot hw hw' ?_ hsep hmem
      by_cases hc : peek (skipSpace s₁) = COMMA
      · rw [eq_cons_of_peek hc (by decide)]
        exact .inl rfl
      · -- members begin with the closing brace or a quote, and a quote begins a value
        right
        rw [nextElement, skipSpace_skipSpace, if_neg hc] at hmem
        generalize skipSpace s₁ = x at hmem hnone
        cases hmem with
        | endMembers => rfl
        | member => exact absurd (.inl ⟨QUOTE, rfl, .inr (.inr (.inl rfl))⟩) hnone
        | noValue => exact absurd (.inl ⟨QUOTE, rfl, .inr (.inr (.inl rfl))⟩) hnone
    · rw [ite_nextElement (fun x => parseHash n x (es ++ [v]))] at hrest
      obtain ⟨u, hmem, rfl⟩ := h.members _ _ _ _ (noBlank_nextElement _) hrest
      refine ⟨u, ?_, rfl⟩
      rw [hs₁]
      exact .member hnot hw hw' hg (separated_nextElement u₂) hmem

theorem SoundAt.items_succ {n : ℕ} (h : SoundAt n) (s : Bytes) (es : List JsonValue) (t : Bytes)
    (es' : List JsonValue) (hs : NoBlank s) (hok : parseArray (n + 1) s es = .ok (t, es')) :
    ∃ u, Grammar .items s u ∧ t = skipSpace u := by
  by_cases hend : peek s = RBRACKET
  · rw [parseArray, if_pos hend] at hok
    cases hok
    refine ⟨s.drop 1, ?_, rfl⟩
    rw [eq_cons_of_peek hend (by decide)]
    exact .endItems
  · rw [parseArray, if_neg hend] at hok
    cases ho : parseObject n s .new with
    | error e => rw [ho] at hok; cases hok
    | ok q =>
      obtain ⟨t₁, v⟩ := q
      rw [ho] at hok
      replace hok : (if peek t₁ = COMMA then parseArray n (skipSpace (t₁.drop 1)) (es ++ [v])
        else parseArray n t₁ (es ++ [v])) = .ok (t, es') := hok
      rcases h.object _ _ _ _ ho with ⟨-, rfl⟩ | ⟨u₂, hg, rfl⟩
      · -- no item: a comma is skipped, and otherwise the loop comes back to the same text
        rw [skipSpace_of_noBlank hs] at hok
        by_cases hc : peek s = COMMA
        · rw [if_pos hc] at hok
          obtain ⟨u, hit, rfl⟩ := h.items _ _ _ _ (noBlank_skipSpace _) hok
          obtain ⟨w, hw, hsplit⟩ := exists_blank (s.drop 1)
          refine ⟨u, ?_, rfl⟩
          rw [eq_cons_of_peek hc (by decide), hsplit]
          exact .noItem hw hit
        · rw [if_neg hc] at hok
          exact h.items _ _ _ _ hs hok
      · rw [ite_nextElement (fun x => parseArray n x (es ++ [v]))] at hok
        obtain ⟨u, hit, rfl⟩ := h.items _ _ _ _ (noBlank_nextElement _) hok
        rw [skipSpace_of_noBlank hs] at hg
        exact ⟨u, .item hg (separated_nextElement u₂) hit, rfl⟩

/-- **Soundness**, by induction on the number of steps. -/
theorem sound (n : ℕ) : SoundAt n := by
  induction n with
  | zero =>
    refine ⟨fun s o t v h => ?_, fun s es t es' _ h => ?_, fun s es t es' _ h => ?_⟩
    · rw [parseObject] at h; cases h
    · rw [parseHash] at h; cases h
    · rw [parseArray] at h; cases h
  | succ n ih =>
    exact ⟨ih.object_succ, fun s es t es' _ h => ih.members_succ s es t es' h,
      fun s es t es' hs h => ih.items_succ s es t es' hs h⟩

/-! ## From a derivation to enough steps -/

/-- The parser reads the part `p` of the text `s` and stops at `t`, given enough steps. -/
def Reads : Part → Bytes → Bytes → Prop
  | .value, s, t => ∃ N, ∀ n, N ≤ n → ∀ o, ∃ v, parseObject n s o = .ok (skipSpace t, v)
  | .members, s, t => ∃ N, ∀ n, N ≤ n → ∀ es, ∃ es', parseHash n s es = .ok (skipSpace t, es')
  | .items, s, t => ∃ N, ∀ n, N ≤ n → ∀ es, ∃ es', parseArray n s es = .ok (skipSpace t, es')

/-- `parseObject` skips blanks first. -/
theorem parseObject_congr {s s' : Bytes} (h : skipSpace s = skipSpace s') (n : ℕ) (o : JsonValue) :
    parseObject n s o = parseObject n s' o := by
  cases n with
  | zero => rw [parseObject, parseObject]
  | succ n => simp only [parseObject, h]

theorem parseHash_end {n : ℕ} (t : Bytes) (es : List JsonValue) :
    parseHash (n + 1) (RBRACE :: t) es = .ok (skipSpace t, es) := by
  rw [parseHash, if_pos (peek_cons _ _), List.drop_succ_cons, List.drop_zero]

theorem parseArray_end {n : ℕ} (t : Bytes) (es : List JsonValue) :
    parseArray (n + 1) (RBRACKET :: t) es = .ok (skipSpace t, es) := by
  rw [parseArray, if_pos (peek_cons _ _), List.drop_succ_cons, List.drop_zero]

/-- A round of `parseHash` at a member: behind the key and the colon `parseObject` reads the
value. -/
theorem parseHash_key {n : ℕ} {key w s : Bytes} (es : List JsonValue) (hnot : QUOTE ∉ key)
    (hw : Blank w) :
    parseHash (n + 1) (QUOTE :: (key ++ QUOTE :: (w ++ COLON :: s))) es =
      (parseObject n s { JsonValue.new with key := skipSpace key }).bind fun p =>
        if peek p.1 = COMMA then parseHash n (skipSpace (p.1.drop 1)) (es ++ [p.2])
        else parseHash n p.1 (es ++ [p.2]) := by
  have hkey := parseString_closed hnot (w ++ COLON :: s)
  rw [skipSpace_append hw, skipSpace_of_noBlank (noBlank_cons (by decide) _)] at hkey
  have hquote : ¬peek (QUOTE :: (key ++ QUOTE :: (w ++ COLON :: s))) = RBRACE := by
    rw [peek_cons]
    decide
  rw [parseHash, if_neg hquote, hkey]
  simp only [bind, Except.bind, peek_cons, if_true, List.drop_succ_cons, List.drop_zero]

/-- One member, read by a round of `parseHash`: the key, the colon, what `parseObject` makes of the
value, and the comma. -/
theorem parseHash_member {n : ℕ} {key w s u : Bytes} {v : JsonValue} (es : List JsonValue)
    (hnot : QUOTE ∉ key) (hw : Blank w)
    (hval : parseObject n s { JsonValue.new with key := skipSpace key } = .ok (skipSpace u, v)) :
    parseHash (n + 1) (QUOTE :: (key ++ QUOTE :: (w ++ COLON :: s))) es =
      parseHash n (nextElement u) (es ++ [v]) := by
  rw [← ite_nextElement (fun x => parseHash n x (es ++ [v])), parseHash_key es hnot hw, hval]
  rfl

/-- A round of `parseArray` that goes on reads a value. -/
theorem parseArray_value {n : ℕ} {s : Bytes} (es : List JsonValue) (hs : peek s ≠ RBRACKET) :
    parseArray (n + 1) s es = (parseObject n s .new).bind fun p =>
      if peek p.1 = COMMA then parseArray n (skipSpace (p.1.drop 1)) (es ++ [p.2])
      else parseArray n p.1 (es ++ [p.2]) := by
  rw [parseArray, if_neg hs]
  rfl

/-- One item, read by a round of `parseArray`. -/
theorem parseArray_item {n : ℕ} {s u : Bytes} {v : JsonValue} (es : List JsonValue)
    (hs : peek s ≠ RBRACKET) (hval : parseObject n s .new = .ok (skipSpace u, v)) :
    parseArray (n + 1) s es = parseArray n (nextElement u) (es ++ [v]) := by
  rw [← ite_nextElement (fun x => parseArray n x (es ++ [v])), parseArray_value es hs, hval]
  rfl

/-- A character that none of the branches of `parseObject` looks for begins no value. -/
theorem not_beginsValue_cons {c : UInt8}
    (hc : ¬(c = LBRACE ∨ c = LBRACKET ∨ c = QUOTE ∨ isdigit c = true))
    (hlit : (ascii "true").head? ≠ some c ∧ (ascii "false").head? ≠ some c) (s : Bytes) :
    ¬BeginsValue (c :: s) := by
  rintro (⟨b, hb, hcase⟩ | ⟨u, hu⟩ | ⟨u, hu⟩)
  · cases hb
    exact hc hcase
  · exact hlit.1 (congrArg List.head? hu)
  · exact hlit.2 (congrArg List.head? hu)

/-- A comma or a closing brace begins no value. -/
theorem not_beginsValue {s : Bytes} (h : s.head? = some COMMA ∨ s.head? = some RBRACE) :
    ¬BeginsValue s := by
  rcases h with h | h
  all_goals
    obtain ⟨u, rfl⟩ := List.head?_eq_some_iff.mp h
    exact not_beginsValue_cons (by decide) (by decide) u

/-- A value does not begin with the bracket that ends an array. -/
theorem Grammar.peek_ne {s t : Bytes} (h : Grammar .value s t) : peek s ≠ RBRACKET := by
  cases h with
  | object => exact (by decide : LBRACE ≠ RBRACKET)
  | array => exact (by decide : LBRACKET ≠ RBRACKET)
  | string => exact (by decide : QUOTE ≠ RBRACKET)
  | float hc => rintro rfl; exact absurd hc (by decide)
  | int hc => rintro rfl; exact absurd hc (by decide)
  | litTrue => exact (by decide : (116 : UInt8) ≠ RBRACKET)
  | litFalse => exact (by decide : (102 : UInt8) ≠ RBRACKET)

/-- A branch of `parseObject` that ends normally ends behind the blanks. -/
theorem eq_ok_of_map {α : Type} {x : Except Fault (Bytes × α)} {f : Bytes × α → JsonValue}
    {r : Except Fault (Bytes × JsonValue)} {t : Bytes} {a : α}
    (h : r = x.map fun p => (skipSpace p.1, f p)) (hx : x = .ok (skipSpace t, a)) :
    r = .ok (skipSpace t, f (skipSpace t, a)) := by
  rw [h, hx, Except.map, skipSpace_skipSpace]

theorem exists_of_map {α : Type} {x : Except Fault (Bytes × α)} {f : Bytes × α → JsonValue}
    {r : Except Fault (Bytes × JsonValue)} {t : Bytes}
    (h : r = x.map fun p => (skipSpace p.1, f p)) (hx : ∃ a, x = .ok (skipSpace t, a)) :
    ∃ v, r = .ok (skipSpace t, v) := by
  obtain ⟨a, ha⟩ := hx
  exact ⟨_, eq_ok_of_map h ha⟩

/-- One of the steps can be taken. -/
theorem exists_step {k n : ℕ} (hn : k + 1 ≤ n) : ∃ m, n = m + 1 ∧ k ≤ m :=
  ⟨n - 1, by omega, by omega⟩

/-- **Completeness**, by induction on the derivation: a part takes one step more than its parts. -/
theorem complete {p : Part} {s t : Bytes} (h : Grammar p s t) : Reads p s t := by
  induction h with
  | @object w s t hw hg ih =>
    obtain ⟨N, hN⟩ := ih
    refine ⟨N + 1, fun n hn o => ?_⟩
    obtain ⟨m, rfl, hm⟩ := exists_step hn
    refine exists_of_map
      (parseObject_brace o (skipSpace_of_noBlank (noBlank_cons (by decide) _))) ?_
    rw [skipSpace_append hw, skipSpace_of_noBlank hg.noBlank]
    exact hN m hm []
  | @array w s t hw hg ih =>
    obtain ⟨N, hN⟩ := ih
    refine ⟨N + 1, fun n hn o => ?_⟩
    obtain ⟨m, rfl, hm⟩ := exists_step hn
    refine exists_of_map
      (parseObject_bracket o (skipSpace_of_noBlank (noBlank_cons (by decide) _))) ?_
    rw [skipSpace_append hw, skipSpace_of_noBlank hg.noBlank]
    exact hN m hm []
  | @string str t hnot =>
    refine ⟨1, fun n hn o => ?_⟩
    obtain ⟨m, rfl, hm⟩ := exists_step hn
    exact exists_of_map (parseObject_quote o (skipSpace_of_noBlank (noBlank_cons (by decide) _)))
      (parseString_eq_ok.mpr ⟨str, t, rfl, hnot, rfl⟩)
  | @float c d t hc hd hdot ht =>
    refine ⟨1, fun n hn o => ?_⟩
    obtain ⟨m, rfl, hm⟩ := exists_step hn
    exact exists_of_map
      (parseObject_digit o (skipSpace_of_noBlank (noBlank_cons (isBlank_of_isdigit hc) _)) hc)
      ((parseNumber_eq_ok hc).mpr ⟨d, t, rfl, hd, ht, .inl hdot, rfl⟩)
  | @int c d t hc hd hlt ht =>
    refine ⟨1, fun n hn o => ?_⟩
    obtain ⟨m, rfl, hm⟩ := exists_step hn
    exact exists_of_map
      (parseObject_digit o (skipSpace_of_noBlank (noBlank_cons (isBlank_of_isdigit hc) _)) hc)
      ((parseNumber_eq_ok hc).mpr
        ⟨d, t, rfl, fun b hb => isNumChar_of_isdigit (hd b hb), ht, .inr hlt, rfl⟩)
  | @litTrue t =>
    refine ⟨1, fun n hn o => ?_⟩
    obtain ⟨m, rfl, hm⟩ := exists_step hn
    exact ⟨_, parseObject_true o (skipSpace_of_noBlank (noBlank_cons (by decide) _))⟩
  | @litFalse t =>
    refine ⟨1, fun n hn o => ?_⟩
    obtain ⟨m, rfl, hm⟩ := exists_step hn
    exact ⟨_, parseObject_false o (skipSpace_of_noBlank (noBlank_cons (by decide) _))⟩
  | @endMembers t =>
    refine ⟨1, fun n hn es => ⟨es, ?_⟩⟩
    obtain ⟨m, rfl, hm⟩ := exists_step hn
    exact parseHash_end t es
  | @member key w w' s s₁ s₂ t hnot hw hw' hval hsep hmem ihval ihmem =>
    obtain ⟨N, hN⟩ := ihval
    obtain ⟨M, hM⟩ := ihmem
    refine ⟨N + M + 1, fun n hn es => ?_⟩
    obtain ⟨m, rfl, hm⟩ := exists_step hn
    obtain ⟨v, hv⟩ := hN m (by omega) { JsonValue.new with key := skipSpace key }
    rw [← parseObject_congr (skipSpace_append hw' s)] at hv
    rw [parseHash_member es hnot hw hv, nextElement_of_separated hsep hmem.noBlank]
    exact hM m (by omega) _
  | @noValue key w w' s s₂ t hnot hw hw' hhead hsep hmem ihmem =>
    -- where no value begins, `parseObject` stays where it is; it needs a step for that
    obtain ⟨M, hM⟩ := ihmem
    have hs : NoBlank s := by
      intro c hc
      rw [Option.mem_def.mp hc, Option.some_inj, Option.some_inj] at hhead
      rcases hhead with rfl | rfl <;> decide
    have hnone : ¬BeginsValue (skipSpace s) := by
      rw [skipSpace_of_noBlank hs]
      exact not_beginsValue hhead
    refine ⟨M + 1 + 1, fun n hn es => ?_⟩
    obtain ⟨m, rfl, hm⟩ := exists_step hn
    obtain ⟨l, rfl, hl⟩ := exists_step hm
    obtain ⟨v, hv, -⟩ :=
      parseObject_nothing (n := l) { JsonValue.new with key := skipSpace key } hnone
    rw [← parseObject_congr (skipSpace_append hw' s)] at hv
    rw [parseHash_member es hnot hw hv, nextElement_of_separated hsep hmem.noBlank]
    exact hM (l + 1) (by omega) _
  | @endItems t =>
    refine ⟨1, fun n hn es => ⟨es, ?_⟩⟩
    obtain ⟨m, rfl, hm⟩ := exists_step hn
    exact parseArray_end t es
  | @item s s₁ s₂ t hval hsep hit ihval ihit =>
    obtain ⟨N, hN⟩ := ihval
    obtain ⟨M, hM⟩ := ihit
    refine ⟨N + M + 1, fun n hn es => ?_⟩
    obtain ⟨m, rfl, hm⟩ := exists_step hn
    obtain ⟨v, hv⟩ := hN m (by omega) .new
    rw [parseArray_item es hval.peek_ne hv, nextElement_of_separated hsep hit.noBlank]
    exact hM m (by omega) _
  | @noItem w s t hw hit ih =>
    obtain ⟨M, hM⟩ := ih
    refine ⟨M + 1 + 1, fun n hn es => ?_⟩
    obtain ⟨m, rfl, hm⟩ := exists_step hn
    obtain ⟨l, rfl, hl⟩ := exists_step hm
    -- the item is empty, and the comma is the one behind it
    have hcomma : skipSpace (COMMA :: (w ++ s)) = COMMA :: (w ++ s) :=
      skipSpace_of_noBlank (noBlank_cons (by decide) _)
    have hsep : Separated (COMMA :: (w ++ s)) s :=
      .comma (w := []) (fun _ h => nomatch h) hw
    obtain ⟨v, hv, -⟩ := parseObject_nothing (n := l) (s := COMMA :: (w ++ s)) .new
      (by rw [hcomma]; exact not_beginsValue (.inl rfl))
    rw [parseArray_item es (by rw [peek_cons]; decide) hv,
      nextElement_of_separated hsep hit.noBlank]
    exact hM (l + 1) (by omega) _

/-! ## The bound on the number of steps -/

/-- A sequence of two computations that has enough steps keeps its result when each of them does. -/
theorem bind_stable {α β : Type} {x x' : Except Fault α} {f f' : α → Except Fault β}
    (hx : x ≠ .error .outOfSteps → x' = x) (hf : ∀ a, f a ≠ .error .outOfSteps → f' a = f a)
    (h : (x >>= f) ≠ .error .outOfSteps) : (x' >>= f') = (x >>= f) := by
  cases x with
  | error e =>
    rw [hx fun he => h (by cases he; rfl)]
    rfl
  | ok a =>
    rw [hx nofun]
    exact hf a h

/-- With one step more than `n`, a result within `n` steps stays. -/
structure StableAt (n : ℕ) : Prop where
  object : ∀ s o, parseObject n s o ≠ .error .outOfSteps →
    parseObject (n + 1) s o = parseObject n s o
  hash : ∀ s es, parseHash n s es ≠ .error .outOfSteps → parseHash (n + 1) s es = parseHash n s es
  array : ∀ s es, parseArray n s es ≠ .error .outOfSteps →
    parseArray (n + 1) s es = parseArray n s es

theorem StableAt.object_succ {n : ℕ} (h : StableAt n) (s : Bytes) (o : JsonValue)
    (hok : parseObject (n + 1) s o ≠ .error .outOfSteps) :
    parseObject (n + 2) s o = parseObject (n + 1) s o := by
  rw [parseObject] at hok ⊢
  rw [parseObject]
  -- only the branches of an object and an array take steps of their own
  split_ifs at hok ⊢
  · exact bind_stable (h.hash _ _) (fun _ _ => rfl) hok
  · exact bind_stable (h.array _ _) (fun _ _ => rfl) hok
  all_goals rfl

theorem StableAt.hash_succ {n : ℕ} (h : StableAt n) (s : Bytes) (es : List JsonValue)
    (hok : parseHash (n + 1) s es ≠ .error .outOfSteps) :
    parseHash (n + 2) s es = parseHash (n + 1) s es := by
  rw [parseHash] at hok ⊢
  rw [parseHash]
  split_ifs at hok ⊢
  · rfl
  · refine bind_stable (fun _ => rfl) (fun p hp => ?_) hok
    dsimp only at hp ⊢
    split_ifs at hp ⊢
    · refine bind_stable (h.object _ _) (fun q hq => ?_) hp
      split_ifs at hq ⊢ <;> exact h.hash _ _ hq
    · rfl

theorem StableAt.array_succ {n : ℕ} (h : StableAt n) (s : Bytes) (es : List JsonValue)
    (hok : parseArray (n + 1) s es ≠ .error .outOfSteps) :
    parseArray (n + 2) s es = parseArray (n + 1) s es := by
  rw [parseArray] at hok ⊢
  rw [parseArray]
  split_ifs at hok ⊢
  · rfl
  · refine bind_stable (h.object _ _) (fun q hq => ?_) hok
    dsimp only at hq ⊢
    split_ifs at hq ⊢ <;> exact h.array _ _ hq

theorem stable (n : ℕ) : StableAt n := by
  induction n with
  | zero =>
    refine ⟨fun s o h => ?_, fun s es h => ?_, fun s es h => ?_⟩
    · exact absurd (by rw [parseObject]) h
    · exact absurd (by rw [parseHash]) h
    · exact absurd (by rw [parseArray]) h
  | succ n ih => exact ⟨ih.object_succ, ih.hash_succ, ih.array_succ⟩

/-- An outcome of `parseObject` within `n` steps is its outcome within more steps. -/
theorem parseObject_mono {n m : ℕ} (hnm : n ≤ m) {s : Bytes} {o : JsonValue}
    (h : parseObject n s o ≠ .error .outOfSteps) : parseObject m s o = parseObject n s o := by
  induction m, hnm using Nat.le_induction with
  | base => rfl
  | succ m _ ih => rw [(stable m).object _ _ (ih ▸ h), ih]

/-- Two numbers of steps do not give two results. -/
theorem parseObject_unique {n m : ℕ} {s : Bytes} {o : JsonValue} {r r' : Bytes × JsonValue}
    (h : parseObject n s o = .ok r) (h' : parseObject m s o = .ok r') : r = r' := by
  rcases le_total n m with hle | hle
  · rw [parseObject_mono hle (by rw [h]; nofun), h] at h'
    exact Except.ok.inj h'
  · rw [parseObject_mono hle (by rw [h']; nofun), h'] at h
    exact (Except.ok.inj h).symm

/-- **The bound does not matter**: an outcome within `n` steps, a value or a fault, is the outcome
within every larger number of steps. -/
theorem fromString_mono {n m : ℕ} (hnm : n ≤ m) {v : JsonValue} {str : CString}
    (h : fromString n v str ≠ .error .outOfSteps) : fromString m v str = fromString n v str := by
  have hp : parseObject n str.1 v ≠ .error .outOfSteps := fun he => h (by rw [fromString, he]; rfl)
  rw [fromString, fromString, parseObject_mono hnm hp]

/-! ## The texts on which the parser returns -/

/-- **When parsing returns.** For every NUL-terminated text and every value that it is read into:
the parser ends with a value, within some number of steps and every larger one, without a failed
assertion, a read behind the terminating NUL or an exception, if and only if the text is accepted by
the grammar. -/
theorem fromString_returns_iff (str : CString) (v : JsonValue) :
    (∃ n r, ∀ m, n ≤ m → fromString m v str = .ok r) ↔ Accepted str.1 := by
  constructor
  · rintro ⟨n, r, h⟩
    obtain ⟨⟨t, r⟩, hp, rfl⟩ := map_eq_ok.mp (h n le_rfl)
    obtain ⟨w, hw, hs⟩ := exists_blank str.1
    refine ⟨w, skipSpace str.1, hs, hw, noBlank_skipSpace str.1, ?_⟩
    -- a text in which no value begins leaves the value as it is
    rcases (sound n).object _ _ _ _ hp with ⟨hnone, -⟩ | ⟨u, hg, -⟩
    · exact .inl hnone
    · exact .inr ⟨u, hg⟩
  · rintro ⟨w, u, hs, hw, hu, hcase⟩
    have hskip : skipSpace str.1 = u := by
      rw [hs, skipSpace_append hw, skipSpace_of_noBlank hu]
    have hreturns : ∃ n t r, parseObject n str.1 v = .ok (t, r) := by
      rcases hcase with hnone | ⟨t, hg⟩
      · obtain ⟨r, hr, -⟩ := parseObject_nothing (n := 0) (s := str.1) v (by rwa [hskip])
        exact ⟨1, _, r, hr⟩
      · obtain ⟨N, hN⟩ := complete hg
        obtain ⟨r, hr⟩ := hN N le_rfl v
        rw [← hskip, parseObject_congr (skipSpace_skipSpace str.1)] at hr
        exact ⟨N, _, r, hr⟩
    obtain ⟨n, t, r, hr⟩ := hreturns
    have hn : fromString n v str = .ok r := map_eq_ok.mpr ⟨_, hr, rfl⟩
    refine ⟨n, r, fun m hm => ?_⟩
    rw [fromString_mono hm (by rw [hn]; nofun), hn]

/-- Members begin with a closing brace or a quote. -/
theorem Grammar.head_members {s t : Bytes} (h : Grammar .members s t) :
    s.head? = some RBRACE ∨ s.head? = some QUOTE := by
  cases h with
  | endMembers => exact .inl rfl
  | member => exact .inr rfl
  | noValue => exact .inr rfl

/-- A value begins as `parseObject` expects. -/
theorem Grammar.beginsValue {s t : Bytes} (h : Grammar .value s t) : BeginsValue s := by
  cases h with
  | object => exact .inl ⟨LBRACE, rfl, .inl rfl⟩
  | array => exact .inl ⟨LBRACKET, rfl, .inr (.inl rfl)⟩
  | string => exact .inl ⟨QUOTE, rfl, .inr (.inr (.inl rfl))⟩
  | float hc => exact .inl ⟨_, rfl, .inr (.inr (.inr hc))⟩
  | int hc => exact .inl ⟨_, rfl, .inr (.inr (.inr hc))⟩
  | litTrue => exact .inr (.inl (List.prefix_append _ _))
  | litFalse => exact .inr (.inr (List.prefix_append _ _))

/-- Items begin with a closing bracket, a comma or a value. -/
theorem Grammar.head_items {s t : Bytes} (h : Grammar .items s t) :
    s.head? = some RBRACKET ∨ s.head? = some COMMA ∨ BeginsValue s := by
  cases h with
  | endItems => exact .inl rfl
  | item hval => exact .inr (.inr hval.beginsValue)
  | noItem => exact .inr (.inl rfl)

/-- An object has members, after blanks. -/
theorem Grammar.of_brace {s t : Bytes} (h : Grammar .value (LBRACE :: s) t) :
    ∃ w u, s = w ++ u ∧ Blank w ∧ Grammar .members u t := by
  generalize hs : LBRACE :: s = x at h
  cases h with
  | @object w u _ hw hg =>
    cases hs
    exact ⟨w, u, rfl, hw, hg⟩
  | array => exact absurd (List.cons.inj hs).1 (by decide)
  | string => exact absurd (List.cons.inj hs).1 (by decide)
  | float hc => cases hs; exact absurd hc (by decide)
  | int hc => cases hs; exact absurd hc (by decide)
  | litTrue => exact absurd (List.cons.inj hs).1 (by decide)
  | litFalse => exact absurd (List.cons.inj hs).1 (by decide)

/-- **A brace and a letter**: the assertion that a key begins with a quote fails. -/
theorem not_fromString_returns :
    ¬∀ (str : CString) (v : JsonValue), ∃ n r, ∀ m, n ≤ m → fromString m v str = .ok r := by
  intro hall
  have hbrace : skipSpace (ascii "\x7ba") = LBRACE :: ascii "a" := by decide
  obtain ⟨n, r, h⟩ := hall ⟨ascii "\x7ba", by decide⟩ .new
  obtain ⟨⟨t, r⟩, hp, rfl⟩ := map_eq_ok.mp (h n le_rfl)
  rcases (sound n).object _ _ _ _ hp with ⟨hnone, -⟩ | ⟨u, hg, -⟩
  · exact hnone (.inl ⟨LBRACE, by rw [hbrace]; rfl, .inl rfl⟩)
  · rw [hbrace] at hg
    obtain ⟨w, m, hsplit, hw, hm⟩ := hg.of_brace
    have hnb : NoBlank (ascii "a") := noBlank_cons (by decide) []
    have hmem := hm.head_members
    rw [← skipSpace_of_noBlank hm.noBlank, ← skipSpace_append hw, ← hsplit,
      skipSpace_of_noBlank hnb] at hmem
    exact absurd hmem (by decide)

end Json

end Muduo
