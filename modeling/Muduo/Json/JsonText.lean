import Muduo.Json.JsonTotal

/-! # The texts of JSON

The concrete syntax of JSON without escapes: objects, arrays, strings, numbers with sign, fraction
and exponent, `true`, `false` and `null`, with the white space between the tokens as part of the
syntax. Any bytes but the quote and NUL may stand in a string, and any digits in a number.

The parser does not consume `null`, a number with a minus sign, or an exponent. The loops of
`parseHash` and `parseArray` do not get past the text that is left then, so it returns only where
such a value stands alone. `fromString_iff` says when it returns, and with which tree. -/

namespace Muduo

namespace Json

/-- White space between two tokens. -/
abbrev Space := { w : Bytes // ∀ c ∈ w, c = SP ∨ c = TAB ∨ c = CR ∨ c = LF }

/-- No white space. -/
def noSpace : Space := ⟨[], nofun⟩

theorem Space.zero_notMem (w : Space) : 0 ∉ w.1 := fun h => absurd (w.2 0 h) (by decide)

theorem Space.blank (w : Space) : Blank w.1 := by
  intro c hc
  rcases w.2 c hc with rfl | rfl | rfl | rfl <;> decide

/-- The characters between two quotes. -/
abbrev Chars := { s : Bytes // QUOTE ∉ s ∧ 0 ∉ s }

namespace Concrete

/-! ## Numbers -/

/-- Some digits. -/
abbrev Digits := { d : Bytes // d ≠ [] ∧ ∀ c ∈ d, isdigit c = true }

/-- The sign of an exponent. -/
inductive Sign
  | plus
  | minus

/-- `'+'`. -/
def PLUS : UInt8 := 43

/-- `'-'`. -/
def MINUS : UInt8 := 45

/-- An exponent. -/
structure Exponent where
  /-- It begins with `E`, and not with `e`. -/
  upper : Bool
  /-- The sign, if there is one. -/
  sign : Option Sign
  /-- The digits. -/
  digits : Digits

/-- A number. -/
structure Number where
  /-- There is a minus sign in front. -/
  minus : Bool
  /-- The digits before the dot. -/
  int : Digits
  /-- The digits behind the dot, if there is one. -/
  frac : Option Digits
  /-- The exponent, if there is one. -/
  exp : Option Exponent

/-- The text of a sign. -/
def Sign.text : Sign → Bytes
  | .plus => [PLUS]
  | .minus => [MINUS]

/-- The text of an exponent. -/
def Exponent.text (e : Exponent) : Bytes :=
  (if e.upper then 69 else 101) :: (e.sign.elim [] Sign.text ++ e.digits.1)

namespace Number

variable (k : Number)

/-- Where the fraction is, with its dot. -/
def fraction : Bytes := k.frac.elim [] fun d => DOT :: d.1

/-- Where the exponent is. -/
def exponent : Bytes := k.exp.elim [] Exponent.text

/-- The text of a number. -/
def text : Bytes := (if k.minus then [MINUS] else []) ++ (k.int.1 ++ (k.fraction ++ k.exponent))

/-- `std::stoll` does not throw: it is not called, or the integer fits. -/
def Fits : Prop := k.minus = true ∨ k.frac.isSome ∨ decimal k.int.1 < 2 ^ 63

/-- The parser consumes the number. -/
def Consumed : Prop := k.minus = false ∧ k.exp = none ∧ k.Fits

end Number

/-! ## Values -/

mutual

/-- A value. -/
inductive Value
  | emptyObject (w : Space)
  | object (w : Space) (members : Members)
  | emptyArray (w : Space)
  | array (w : Space) (items : Items)
  | string (s : Chars)
  | number (k : Number)
  | bool (b : Bool)
  | null

/-- The members of an object that is not empty. -/
inductive Members
  | last (key : Chars) (w₁ w₂ : Space) (value : Value) (w₃ : Space)
  | cons (key : Chars) (w₁ w₂ : Space) (value : Value) (w₃ w₄ : Space) (members : Members)

/-- The items of an array that is not empty. -/
inductive Items
  | last (item : Value) (w₁ : Space)
  | cons (item : Value) (w₁ w₂ : Space) (items : Items)

end

mutual

/-- The text of a value. -/
def Value.text : Value → Bytes
  | .emptyObject w => LBRACE :: (w.1 ++ [RBRACE])
  | .object w members => LBRACE :: (w.1 ++ (members.text ++ [RBRACE]))
  | .emptyArray w => LBRACKET :: (w.1 ++ [RBRACKET])
  | .array w items => LBRACKET :: (w.1 ++ (items.text ++ [RBRACKET]))
  | .string s => QUOTE :: (s.1 ++ [QUOTE])
  | .number k => k.text
  | .bool true => ascii "true"
  | .bool false => ascii "false"
  | .null => ascii "null"

/-- The text of members, up to the closing brace. -/
def Members.text : Members → Bytes
  | .last key w₁ w₂ value w₃ =>
    QUOTE :: (key.1 ++ QUOTE :: (w₁.1 ++ COLON :: (w₂.1 ++ (value.text ++ w₃.1))))
  | .cons key w₁ w₂ value w₃ w₄ members =>
    QUOTE :: (key.1 ++ QUOTE :: (w₁.1 ++ COLON :: (w₂.1 ++
      (value.text ++ (w₃.1 ++ COMMA :: (w₄.1 ++ members.text))))))

/-- The text of items, up to the closing bracket. -/
def Items.text : Items → Bytes
  | .last item w₁ => item.text ++ w₁.1
  | .cons item w₁ w₂ items => item.text ++ (w₁.1 ++ COMMA :: (w₂.1 ++ items.text))

end

/-! ## Trees -/

/-- What `parseObject` makes of a number that the text `t` follows. -/
def Number.store (k : Number) (t : Bytes) (o : JsonValue) : JsonValue :=
  if k.minus then o
  else if k.frac.isSome then { o with num := .floatNum (k.text ++ t), type := .kFloat }
  else { o with num := .intNum (decimal k.int.1), type := .kInt }

mutual

/-- What becomes of `o` when a value that the text `t` follows is read into it, where `f` is what
becomes of the characters of a string. -/
def Value.tree (f : Bytes → Bytes) (t : Bytes) (o : JsonValue) : Value → JsonValue
  | .emptyObject _ => { o with elements := [], type := .kHash }
  | .object _ members => { o with elements := members.trees f (RBRACE :: t), type := .kHash }
  | .emptyArray _ => { o with elements := [], type := .kArray }
  | .array _ items => { o with elements := items.trees f (RBRACKET :: t), type := .kArray }
  | .string s => { o with str := f s.1, type := .kString }
  | .number k => k.store t o
  | .bool b => { o with num := .boolNum b, type := .kBool }
  | .null => { o with type := .kNull }

/-- The trees of members, in their order. -/
def Members.trees (f : Bytes → Bytes) (t : Bytes) : Members → List JsonValue
  | .last key _ _ value w₃ => [value.tree f (w₃.1 ++ t) { JsonValue.new with key := f key.1 }]
  | .cons key _ _ value w₃ w₄ members =>
    value.tree f (w₃.1 ++ COMMA :: (w₄.1 ++ (members.text ++ t)))
      { JsonValue.new with key := f key.1 } :: members.trees f t

/-- The trees of items, in their order. -/
def Items.trees (f : Bytes → Bytes) (t : Bytes) : Items → List JsonValue
  | .last item w₁ => [item.tree f (w₁.1 ++ t) .new]
  | .cons item w₁ w₂ items =>
    item.tree f (w₁.1 ++ COMMA :: (w₂.1 ++ (items.text ++ t))) .new :: items.trees f t

end

mutual

/-- The parser consumes the value, and so everything in it. -/
def Value.Consumed : Value → Prop
  | .object _ members => members.Consumed
  | .array _ items => items.Consumed
  | .number k => k.Consumed
  | .null => False
  | _ => True

/-- The parser consumes the members. -/
def Members.Consumed : Members → Prop
  | .last _ _ _ value _ => value.Consumed
  | .cons _ _ _ value _ _ members => value.Consumed ∧ members.Consumed

/-- The parser consumes the items. -/
def Items.Consumed : Items → Prop
  | .last item _ => item.Consumed
  | .cons item _ _ items => item.Consumed ∧ items.Consumed

end

/-- The parser returns: it consumes the value, or the value is no object and no array, and
`std::stoll` does not throw. -/
def Value.Returns : Value → Prop
  | .number k => k.Fits
  | .null => True
  | v => v.Consumed

mutual

/-- The strings and keys of a value. -/
def Value.strings : Value → List Bytes
  | .object _ members => members.strings
  | .array _ items => items.strings
  | .string s => [s.1]
  | _ => []

/-- The strings and keys of members. -/
def Members.strings : Members → List Bytes
  | .last key _ _ value _ => key.1 :: value.strings
  | .cons key _ _ value _ _ members => key.1 :: (value.strings ++ members.strings)

/-- The strings and keys of items. -/
def Items.strings : Items → List Bytes
  | .last item _ => item.strings
  | .cons item _ _ items => item.strings ++ items.strings

end

/-! ## The text of a document -/

/-- The characters of a number stand behind the blanks. -/
theorem lt_of_isdigit {c : UInt8} (h : isdigit c = true) : 32 < c := by
  simp only [isdigit, Bool.and_eq_true, decide_eq_true_eq] at h
  have hlt : (32 : UInt8) < 48 := by decide
  exact UInt8.lt_of_lt_of_le hlt h.1

theorem Exponent.lt_of_mem {e : Exponent} {c : UInt8} (h : c ∈ e.text) : 32 < c := by
  rw [Exponent.text, List.mem_cons, List.mem_append] at h
  rcases h with rfl | hsign | hdigit
  · split <;> decide
  · cases hs : e.sign with
    | none => rw [hs] at hsign; cases hsign
    | some sign =>
      rw [hs] at hsign
      cases sign <;> (cases List.mem_singleton.mp hsign; decide)
  · exact lt_of_isdigit (e.digits.2.2 c hdigit)

theorem Number.lt_of_mem {k : Number} {c : UInt8} (h : c ∈ k.text) : 32 < c := by
  simp only [Number.text, List.mem_append] at h
  rcases h with hminus | hint | hfrac | hexp
  · split at hminus
    · cases List.mem_singleton.mp hminus
      decide
    · cases hminus
  · exact lt_of_isdigit (k.int.2.2 c hint)
  · rw [Number.fraction] at hfrac
    cases hk : k.frac with
    | none => rw [hk] at hfrac; cases hfrac
    | some d =>
      rw [hk] at hfrac
      rcases List.mem_cons.mp hfrac with rfl | hd
      · decide
      · exact lt_of_isdigit (d.2.2 c hd)
  · rw [Number.exponent] at hexp
    cases hk : k.exp with
    | none => rw [hk] at hexp; cases hexp
    | some e =>
      rw [hk] at hexp
      exact e.lt_of_mem hexp

theorem Number.zero_notMem_text (k : Number) : 0 ∉ k.text :=
  fun h => absurd (k.lt_of_mem h) (by decide)

mutual

theorem Value.zero_notMem_text : ∀ v : Value, 0 ∉ v.text
  | .emptyObject w => by simp [Value.text, LBRACE, RBRACE, w.zero_notMem]
  | .object w members => by
    simp [Value.text, LBRACE, RBRACE, w.zero_notMem, members.zero_notMem_text]
  | .emptyArray w => by simp [Value.text, LBRACKET, RBRACKET, w.zero_notMem]
  | .array w items => by
    simp [Value.text, LBRACKET, RBRACKET, w.zero_notMem, items.zero_notMem_text]
  | .string s => by simp [Value.text, QUOTE, s.2.2]
  | .number k => k.zero_notMem_text
  | .bool true => by decide
  | .bool false => by decide
  | .null => by decide

theorem Members.zero_notMem_text : ∀ members : Members, 0 ∉ members.text
  | .last key w₁ w₂ value w₃ => by
    simp [Members.text, QUOTE, COLON, key.2.2, w₁.zero_notMem, w₂.zero_notMem, w₃.zero_notMem,
      value.zero_notMem_text]
  | .cons key w₁ w₂ value w₃ w₄ members => by
    simp [Members.text, QUOTE, COLON, COMMA, key.2.2, w₁.zero_notMem, w₂.zero_notMem,
      w₃.zero_notMem, w₄.zero_notMem, value.zero_notMem_text, members.zero_notMem_text]

theorem Items.zero_notMem_text : ∀ items : Items, 0 ∉ items.text
  | .last item w₁ => by simp [Items.text, w₁.zero_notMem, item.zero_notMem_text]
  | .cons item w₁ w₂ items => by
    simp [Items.text, COMMA, w₁.zero_notMem, w₂.zero_notMem, item.zero_notMem_text,
      items.zero_notMem_text]

end

/-- A value with white space around it, as the string that is parsed. -/
def document (w : Space) (v : Value) (w' : Space) : CString :=
  ⟨w.1 ++ (v.text ++ w'.1), by simp [w.zero_notMem, w'.zero_notMem, v.zero_notMem_text]⟩

/-! ## Heads -/

/-- The text ends, or white space, a comma or a closing bracket comes next. -/
def Delimited (t : Bytes) : Prop :=
  ∀ c ∈ t.head?, (c = SP ∨ c = TAB ∨ c = CR ∨ c = LF) ∨ c = COMMA ∨ c = RBRACE ∨ c = RBRACKET

theorem Delimited.not_isNumChar {t : Bytes} (ht : Delimited t) :
    ∀ c ∈ t.head?, isNumChar c = false := by
  intro c hc
  rcases ht c hc with (rfl | rfl | rfl | rfl) | rfl | rfl | rfl <;> decide

theorem delimited_cons {c : UInt8} (hc : c = COMMA ∨ c = RBRACE ∨ c = RBRACKET) (t : Bytes) :
    Delimited (c :: t) := by
  intro b hb
  cases hb
  exact .inr hc

/-- What white space stands before a delimiter delimits. -/
theorem delimited_append (w : Space) {t : Bytes} (ht : Delimited t) : Delimited (w.1 ++ t) := by
  intro c hc
  rw [List.head?_append, Option.mem_def, Option.or_eq_some_iff] at hc
  rcases hc with hc | ⟨-, hc⟩
  · exact .inl (w.2 c (List.mem_of_head? hc))
  · exact ht c hc

theorem delimited_space (w : Space) : Delimited w.1 := by
  have h := delimited_append w (t := []) nofun
  rwa [List.append_nil] at h

/-- How the text of a number begins. -/
theorem Number.exists_text_eq_cons (k : Number) :
    ∃ c u, k.text = c :: u ∧ (c = MINUS ∨ isdigit c = true) := by
  rw [Number.text]
  by_cases hm : k.minus = true
  · rw [if_pos hm]
    exact ⟨MINUS, _, rfl, .inl rfl⟩
  · obtain ⟨c, u, hd⟩ := List.exists_cons_of_ne_nil k.int.2.1
    rw [if_neg hm, hd]
    exact ⟨c, _, rfl, .inr (k.int.2.2 c (by simp [hd]))⟩

/-- How the text of a value begins. -/
theorem Value.exists_text_eq_cons (v : Value) :
    ∃ c u, v.text = c :: u ∧ isBlank c = false ∧ c ≠ RBRACKET := by
  cases v with
  | number k =>
    obtain ⟨c, u, hk, rfl | hc⟩ := k.exists_text_eq_cons
    · exact ⟨_, u, hk, by decide, by decide⟩
    · exact ⟨c, u, hk, isBlank_of_isdigit hc, by rintro rfl; exact absurd hc (by decide)⟩
  | bool b => cases b <;> exact ⟨_, _, rfl, by decide, by decide⟩
  | _ => exact ⟨_, _, rfl, by decide, by decide⟩

theorem Value.noBlank_text (v : Value) (t : Bytes) : NoBlank (v.text ++ t) := by
  obtain ⟨c, u, hv, hc, -⟩ := v.exists_text_eq_cons
  rw [hv]
  exact noBlank_cons hc _

theorem Value.skipSpace_text (v : Value) (t : Bytes) : skipSpace (v.text ++ t) = v.text ++ t :=
  skipSpace_of_noBlank (v.noBlank_text t)

theorem Value.peek_text (v : Value) (t : Bytes) : peek (v.text ++ t) ≠ RBRACKET := by
  obtain ⟨c, u, hv, -, hc⟩ := v.exists_text_eq_cons
  rw [hv]
  exact hc

theorem Members.noBlank_text (members : Members) (t : Bytes) : NoBlank (members.text ++ t) := by
  cases members <;> exact noBlank_cons (by decide) _

theorem Items.noBlank_text (items : Items) (t : Bytes) : NoBlank (items.text ++ t) := by
  cases items with
  | last item w =>
    rw [Items.text, List.append_assoc]
    exact item.noBlank_text _
  | cons item w w' items =>
    rw [Items.text, List.append_assoc]
    exact item.noBlank_text _

theorem Value.skipSpace_object (w : Space) (members : Members) (t : Bytes) :
    skipSpace ((Value.object w members).text ++ t) =
      LBRACE :: (w.1 ++ (members.text ++ RBRACE :: t)) := by
  rw [Value.skipSpace_text]
  simp [Value.text]

theorem Value.skipSpace_array (w : Space) (items : Items) (t : Bytes) :
    skipSpace ((Value.array w items).text ++ t) =
      LBRACKET :: (w.1 ++ (items.text ++ RBRACKET :: t)) := by
  rw [Value.skipSpace_text]
  simp [Value.text]

/-- What follows members comes behind the last one's value. -/
theorem Members.last_append (key : Chars) (w₁ w₂ : Space) (value : Value) (w₃ : Space)
    (t : Bytes) : (Members.last key w₁ w₂ value w₃).text ++ t =
      QUOTE :: (key.1 ++ QUOTE :: (w₁.1 ++ COLON :: (w₂.1 ++ (value.text ++ (w₃.1 ++ t))))) := by
  simp [Members.text]

theorem Members.cons_append (key : Chars) (w₁ w₂ : Space) (value : Value) (w₃ w₄ : Space)
    (members : Members) (t : Bytes) :
    (Members.cons key w₁ w₂ value w₃ w₄ members).text ++ t =
      QUOTE :: (key.1 ++ QUOTE :: (w₁.1 ++ COLON :: (w₂.1 ++
        (value.text ++ (w₃.1 ++ COMMA :: (w₄.1 ++ (members.text ++ t))))))) := by
  simp [Members.text]

theorem Items.last_append (item : Value) (w₁ : Space) (t : Bytes) :
    (Items.last item w₁).text ++ t = item.text ++ (w₁.1 ++ t) := by
  simp [Items.text]

theorem Items.cons_append (item : Value) (w₁ w₂ : Space) (items : Items) (t : Bytes) :
    (Items.cons item w₁ w₂ items).text ++ t =
      item.text ++ (w₁.1 ++ COMMA :: (w₂.1 ++ (items.text ++ t))) := by
  simp [Items.text]

/-- Behind the last element the closing bracket is next. -/
theorem nextElement_last (w : Space) {c : UInt8} (hc : isBlank c = false) (hne : c ≠ COMMA)
    (t : Bytes) : nextElement (w.1 ++ c :: t) = c :: t :=
  nextElement_of_separated (.blank w.blank fun h => hne (Option.some_inj.mp h)) (noBlank_cons hc t)

/-- Behind a comma the next element is next. -/
theorem nextElement_comma (w w' : Space) {s : Bytes} (hs : NoBlank s) :
    nextElement (w.1 ++ COMMA :: (w'.1 ++ s)) = s :=
  nextElement_of_separated (.comma w.blank w'.blank) hs

/-! ## Numbers in the parser -/

section

variable {k : Number} {n : ℕ} {t : Bytes}

/-- A number with a minus sign is left where it is. -/
theorem parseObject_minus (hm : k.minus = true) (o : JsonValue) :
    parseObject (n + 1) (k.text ++ t) o = .ok (k.text ++ t, o) := by
  have htext : k.text ++ t = MINUS :: (k.int.1 ++ (k.fraction ++ k.exponent) ++ t) := by
    rw [Number.text, if_pos hm]
    rfl
  have hskip : skipSpace (k.text ++ t) = k.text ++ t := Value.skipSpace_text (.number k) t
  simp only [parseObject, hskip]
  rw [htext]
  rfl

theorem Number.dot_mem_fraction (k : Number) : DOT ∈ k.fraction ↔ k.frac.isSome := by
  rw [Number.fraction]
  cases k.frac with
  | none => simp
  | some d => simp

theorem Number.isNumChar_of_mem_fraction (k : Number) {c : UInt8} (h : c ∈ k.fraction) :
    isNumChar c = true := by
  rw [Number.fraction] at h
  cases hk : k.frac with
  | none => rw [hk] at h; cases h
  | some d =>
    rw [hk] at h
    rcases List.mem_cons.mp h with rfl | hd
    · decide
    · exact isNumChar_of_isdigit (d.2.2 c hd)

/-- The digits end where the exponent begins. -/
theorem Number.not_isNumChar_exponent (k : Number) (ht : Delimited t) :
    ∀ c ∈ (k.exponent ++ t).head?, isNumChar c = false := by
  rw [Number.exponent]
  cases k.exp with
  | none => exact ht.not_isNumChar
  | some e =>
    intro c hc
    cases hc
    split <;> decide

/-- Without a minus sign, the digits and the fraction are read. -/
theorem parseObject_number (hm : k.minus = false) (ht : Delimited t) (o : JsonValue) :
    parseObject (n + 1) (k.text ++ t) o =
      if k.frac.isSome ∨ decimal k.int.1 < 2 ^ 63 then
        .ok (skipSpace (k.exponent ++ t), k.store t o)
      else .error .outOfRange := by
  obtain ⟨c, u, hint⟩ := List.exists_cons_of_ne_nil k.int.2.1
  have hdigit : ∀ b ∈ c :: u, isdigit b = true := hint ▸ k.int.2.2
  rw [List.forall_mem_cons] at hdigit
  have htext : k.text ++ t = c :: ((u ++ k.fraction) ++ (k.exponent ++ t)) := by
    rw [Number.text, hm, hint]
    simp
  have hskip : skipSpace (k.text ++ t) = c :: ((u ++ k.fraction) ++ (k.exponent ++ t)) :=
    (Value.skipSpace_text (.number k) t).trans htext
  have hdot : DOT ∈ u ++ k.fraction ↔ k.frac.isSome := by
    rw [List.mem_append, k.dot_mem_fraction,
      or_iff_right fun h => absurd (hdigit.2 DOT h) (by decide)]
  have hchars : ∀ b ∈ u ++ k.fraction, isNumChar b = true := by
    intro b hb
    rcases List.mem_append.mp hb with hb | hb
    · exact isNumChar_of_isdigit (hdigit.2 b hb)
    · exact k.isNumChar_of_mem_fraction hb
  rw [parseObject_digit o hskip hdigit.1,
    parseNumber_append hdigit.1 hchars (k.not_isNumChar_exponent ht)]
  by_cases hfrac : k.frac.isSome
  · -- the dot is seen
    rw [if_pos (hdot.mpr hfrac), if_pos (.inl hfrac), Number.store, hm, if_neg (by decide),
      if_pos hfrac, htext]
    show Except.ok (skipSpace (skipSpace (k.exponent ++ t)), _) = _
    rw [skipSpace_skipSpace]
  · have hint' : c :: (u ++ k.fraction) = k.int.1 := by
      rw [Number.fraction, Option.not_isSome_iff_eq_none.mp hfrac, hint]
      simp
    rw [if_neg (mt hdot.mp hfrac), hint', if_congr (or_iff_right hfrac) rfl rfl]
    by_cases hlt : decimal k.int.1 < 2 ^ 63
    · rw [if_pos hlt, if_pos hlt, Number.store, hm, if_neg (by decide), if_neg hfrac]
      show Except.ok (skipSpace (skipSpace (k.exponent ++ t)), _) = _
      rw [skipSpace_skipSpace]
    · rw [if_neg hlt, if_neg hlt]
      rfl

end

/-! ## What the parser consumes -/

/-- A number that the parser consumes becomes its tree. -/
theorem parseObject_consumed {k : Number} (hk : k.Consumed) {t : Bytes} (ht : Delimited t) (n : ℕ)
    (o : JsonValue) : parseObject (n + 1) (k.text ++ t) o = .ok (skipSpace t, k.store t o) := by
  obtain ⟨hm, hexp, hfits⟩ := hk
  have hor : k.frac.isSome ∨ decimal k.int.1 < 2 ^ 63 :=
    hfits.resolve_left (by rw [hm]; decide)
  rw [parseObject_number hm ht, if_pos hor, Number.exponent, hexp]
  rfl

mutual

/-- A value is consumed, and becomes its tree with the blanks in front of its strings left out. By
induction on the value; each level takes one step. -/
theorem Value.parse : ∀ (v : Value) (_ : v.Consumed) (t : Bytes), Delimited t →
    ∃ N, ∀ n, N ≤ n → ∀ o, parseObject n (v.text ++ t) o = .ok (skipSpace t, v.tree skipSpace t o)
  | .emptyObject w, _, t, _ => by
    have hs : skipSpace ((Value.emptyObject w).text ++ t) = LBRACE :: (w.1 ++ RBRACE :: t) := by
      rw [Value.skipSpace_text, Value.text, List.cons_append, List.append_assoc]
      rfl
    refine ⟨2, fun n hn o => ?_⟩
    obtain ⟨m, rfl, hm⟩ := exists_step hn
    obtain ⟨l, rfl, -⟩ := exists_step hm
    refine eq_ok_of_map (parseObject_brace _ hs) ?_
    rw [skipSpace_append w.blank, skipSpace_of_noBlank (noBlank_cons (by decide) t)]
    exact parseHash_end t []
  | .object w members, hv, t, _ => by
    obtain ⟨N, hN⟩ := members.parse hv t
    refine ⟨N + 1, fun n hn o => ?_⟩
    obtain ⟨m, rfl, hm⟩ := exists_step hn
    refine eq_ok_of_map (parseObject_brace _ (Value.skipSpace_object w members t)) ?_
    rw [skipSpace_append w.blank, skipSpace_of_noBlank (members.noBlank_text _)]
    exact hN m hm []
  | .emptyArray w, _, t, _ => by
    have hs : skipSpace ((Value.emptyArray w).text ++ t) = LBRACKET :: (w.1 ++ RBRACKET :: t) := by
      rw [Value.skipSpace_text, Value.text, List.cons_append, List.append_assoc]
      rfl
    refine ⟨2, fun n hn o => ?_⟩
    obtain ⟨m, rfl, hm⟩ := exists_step hn
    obtain ⟨l, rfl, -⟩ := exists_step hm
    refine eq_ok_of_map (parseObject_bracket _ hs) ?_
    rw [skipSpace_append w.blank, skipSpace_of_noBlank (noBlank_cons (by decide) t)]
    exact parseArray_end t []
  | .array w items, hv, t, _ => by
    obtain ⟨N, hN⟩ := items.parse hv t
    refine ⟨N + 1, fun n hn o => ?_⟩
    obtain ⟨m, rfl, hm⟩ := exists_step hn
    refine eq_ok_of_map (parseObject_bracket _ (Value.skipSpace_array w items t)) ?_
    rw [skipSpace_append w.blank, skipSpace_of_noBlank (items.noBlank_text _)]
    exact hN m hm []
  | .string s, _, t, _ => by
    have hs : skipSpace ((Value.string s).text ++ t) = QUOTE :: (s.1 ++ QUOTE :: t) := by
      rw [Value.skipSpace_text, Value.text, List.cons_append, List.append_assoc]
      rfl
    refine ⟨1, fun n hn o => ?_⟩
    obtain ⟨m, rfl, -⟩ := exists_step hn
    exact eq_ok_of_map (parseObject_quote _ hs) (parseString_closed s.2.1 t)
  | .number k, hk, t, ht => by
    refine ⟨1, fun n hn o => ?_⟩
    obtain ⟨m, rfl, -⟩ := exists_step hn
    exact parseObject_consumed hk ht m o
  | .bool true, _, t, _ => by
    refine ⟨1, fun n hn o => ?_⟩
    obtain ⟨m, rfl, -⟩ := exists_step hn
    exact parseObject_true _ (skipSpace_of_noBlank ((Value.bool true).noBlank_text t))
  | .bool false, _, t, _ => by
    refine ⟨1, fun n hn o => ?_⟩
    obtain ⟨m, rfl, -⟩ := exists_step hn
    exact parseObject_false _ (skipSpace_of_noBlank ((Value.bool false).noBlank_text t))
  | .null, hv, _, _ => hv.elim

/-- Members are consumed up to the closing brace. -/
theorem Members.parse : ∀ (members : Members) (_ : members.Consumed) (t : Bytes),
    ∃ N, ∀ n, N ≤ n → ∀ es, parseHash n (members.text ++ RBRACE :: t) es =
      .ok (skipSpace t, es ++ members.trees skipSpace (RBRACE :: t))
  | .last key w₁ w₂ value w₃, hv, t => by
    obtain ⟨N, hN⟩ := value.parse hv (w₃.1 ++ RBRACE :: t)
      (delimited_append w₃ (delimited_cons (by decide) t))
    refine ⟨N + 2, fun n hn es => ?_⟩
    obtain ⟨m, rfl, hm⟩ := exists_step hn
    obtain ⟨l, rfl, -⟩ := exists_step hm
    have hvalue := hN (l + 1) (by omega) { JsonValue.new with key := skipSpace key.1 }
    rw [← parseObject_congr (skipSpace_append w₂.blank _)] at hvalue
    have hround := parseHash_member es key.2.1 w₁.blank hvalue
    rw [nextElement_last w₃ (by decide) (by decide), parseHash_end] at hround
    rw [Members.last_append, hround, Members.trees]
  | .cons key w₁ w₂ value w₃ w₄ members, hv, t => by
    obtain ⟨N, hN⟩ := value.parse hv.1 (w₃.1 ++ COMMA :: (w₄.1 ++ (members.text ++ RBRACE :: t)))
      (delimited_append w₃ (delimited_cons (by decide) _))
    obtain ⟨M, hM⟩ := members.parse hv.2 t
    refine ⟨N + M + 1, fun n hn es => ?_⟩
    obtain ⟨m, rfl, hm⟩ := exists_step hn
    have hvalue := hN m (by omega) { JsonValue.new with key := skipSpace key.1 }
    rw [← parseObject_congr (skipSpace_append w₂.blank _)] at hvalue
    have hround := parseHash_member es key.2.1 w₁.blank hvalue
    rw [nextElement_comma w₃ w₄ (members.noBlank_text _), hM m (by omega)] at hround
    rw [Members.cons_append, hround, Members.trees, List.append_assoc]
    rfl

/-- Items are consumed up to the closing bracket. -/
theorem Items.parse : ∀ (items : Items) (_ : items.Consumed) (t : Bytes),
    ∃ N, ∀ n, N ≤ n → ∀ es, parseArray n (items.text ++ RBRACKET :: t) es =
      .ok (skipSpace t, es ++ items.trees skipSpace (RBRACKET :: t))
  | .last item w₁, hv, t => by
    obtain ⟨N, hN⟩ := item.parse hv (w₁.1 ++ RBRACKET :: t)
      (delimited_append w₁ (delimited_cons (by decide) t))
    refine ⟨N + 2, fun n hn es => ?_⟩
    obtain ⟨m, rfl, hm⟩ := exists_step hn
    obtain ⟨l, rfl, -⟩ := exists_step hm
    have hround := parseArray_item es (item.peek_text _) (hN (l + 1) (by omega) .new)
    rw [nextElement_last w₁ (by decide) (by decide), parseArray_end] at hround
    rw [Items.last_append, hround, Items.trees]
  | .cons item w₁ w₂ items, hv, t => by
    obtain ⟨N, hN⟩ := item.parse hv.1 (w₁.1 ++ COMMA :: (w₂.1 ++ (items.text ++ RBRACKET :: t)))
      (delimited_append w₁ (delimited_cons (by decide) _))
    obtain ⟨M, hM⟩ := items.parse hv.2 t
    refine ⟨N + M + 1, fun n hn es => ?_⟩
    obtain ⟨m, rfl, hm⟩ := exists_step hn
    have hround := parseArray_item es (item.peek_text _) (hN m (by omega) .new)
    rw [nextElement_comma w₁ w₂ (items.noBlank_text _), hM m (by omega)] at hround
    rw [Items.cons_append, hround, Items.trees, List.append_assoc]
    rfl

end

/-! ## What the parser does not consume -/

/-- The loops of `parseHash` and `parseArray` do not get past the text. -/
structure Stuck (s : Bytes) : Prop where
  noBlank : NoBlank s
  not_beginsValue : ¬BeginsValue s
  ne_comma : peek s ≠ COMMA
  ne_rbrace : peek s ≠ RBRACE
  ne_rbracket : peek s ≠ RBRACKET

/-- The letters of `null` and of an exponent, and the minus sign, begin nothing. -/
theorem stuck_cons {c : UInt8} (hc : c = 110 ∨ c = MINUS ∨ c = 69 ∨ c = 101) (s : Bytes) :
    Stuck (c :: s) := by
  rcases hc with rfl | rfl | rfl | rfl
  all_goals
    exact ⟨noBlank_cons (by decide) _, not_beginsValue_cons (by decide) (by decide) _,
      by rw [peek_cons]; decide, by rw [peek_cons]; decide, by rw [peek_cons]; decide⟩

namespace Stuck

variable {s : Bytes}

/-- There is no key. -/
theorem not_parseHash (h : Stuck s) (n : ℕ) (es : List JsonValue) (r : Bytes × List JsonValue) :
    parseHash n s es ≠ .ok r := by
  intro hok
  obtain ⟨u, hg, -⟩ := (sound n).members _ es r.1 r.2 h.noBlank hok
  rcases hg.head_members with hhead | hhead
  · obtain ⟨u, rfl⟩ := List.head?_eq_some_iff.mp hhead
    exact h.ne_rbrace rfl
  · exact h.not_beginsValue (.inl ⟨QUOTE, hhead, .inr (.inr (.inl rfl))⟩)

/-- The loop stays where it is. -/
theorem not_parseArray (h : Stuck s) (n : ℕ) (es : List JsonValue) (r : Bytes × List JsonValue) :
    parseArray n s es ≠ .ok r := by
  intro hok
  obtain ⟨u, hg, -⟩ := (sound n).items _ es r.1 r.2 h.noBlank hok
  rcases hg.head_items with hhead | hhead | hvalue
  · obtain ⟨u, rfl⟩ := List.head?_eq_some_iff.mp hhead
    exact h.ne_rbracket rfl
  · obtain ⟨u, rfl⟩ := List.head?_eq_some_iff.mp hhead
    exact h.ne_comma rfl
  · exact h.not_beginsValue hvalue

end Stuck

theorem parseObject_null {n : ℕ} {s t : Bytes} (o : JsonValue)
    (h : skipSpace s = Value.null.text ++ t) :
    parseObject (n + 1) s o = .ok (Value.null.text ++ t, { o with type := .kNull }) := by
  have hskip := Value.null.skipSpace_text t
  simp only [parseObject, h, hskip]
  rfl

/-- A number is left where it is, or at its exponent, or `std::stoll` throws. -/
theorem stuck_number {k : Number} (hk : ¬k.Consumed) {t : Bytes} (ht : Delimited t) {n : ℕ}
    {o : JsonValue} {r : Bytes × JsonValue} (h : parseObject (n + 1) (k.text ++ t) o = .ok r) :
    Stuck r.1 ∧ k.Fits ∧ r.2 = k.store t o := by
  cases hm : k.minus with
  | true =>
    rw [parseObject_minus hm] at h
    cases h
    refine ⟨?_, .inl hm, by rw [Number.store, if_pos hm]⟩
    rw [Number.text, if_pos hm]
    exact stuck_cons (by decide) _
  | false =>
    rw [parseObject_number hm ht] at h
    split_ifs at h with hor
    cases h
    refine ⟨?_, .inr hor, rfl⟩
    show Stuck (skipSpace (k.exponent ++ t))
    cases hexp : k.exp with
    | none => exact absurd ⟨hm, hexp, .inr hor⟩ hk
    | some e =>
      have hstuck : Stuck (k.exponent ++ t) := by
        rw [Number.exponent, hexp]
        refine stuck_cons ?_ _
        cases e.upper <;> decide
      rwa [skipSpace_of_noBlank hstuck.noBlank]

mutual

/-- A value that is not consumed is read only if it is no object and no array, and the loops are
stuck then. -/
theorem Value.stuck : ∀ (v : Value) (_ : ¬v.Consumed) (t : Bytes) (_ : Delimited t) (n : ℕ)
    (o : JsonValue) (r : Bytes × JsonValue), parseObject n (v.text ++ t) o = .ok r →
      Stuck r.1 ∧ v.Returns ∧ r.2 = v.tree skipSpace t o
  | _, _, _, _, 0, _, _, h => by rw [parseObject] at h; cases h
  | .null, _, t, _, n + 1, o, r, h => by
    rw [parseObject_null o (Value.null.skipSpace_text t)] at h
    cases h
    exact ⟨stuck_cons (by decide) _, trivial, rfl⟩
  | .number k, hk, t, ht, n + 1, o, r, h => stuck_number hk ht h
  | .object w members, hv, t, _, n + 1, o, r, h => by
    rw [parseObject_brace o (Value.skipSpace_object w members t), skipSpace_append w.blank,
      skipSpace_of_noBlank (members.noBlank_text _)] at h
    obtain ⟨p, hp, -⟩ := map_eq_ok.mp h
    exact absurd hp (members.not_parse hv t n [] p)
  | .array w items, hv, t, _, n + 1, o, r, h => by
    rw [parseObject_bracket o (Value.skipSpace_array w items t), skipSpace_append w.blank,
      skipSpace_of_noBlank (items.noBlank_text _)] at h
    obtain ⟨p, hp, -⟩ := map_eq_ok.mp h
    exact absurd hp (items.not_parse hv t n [] p)
  | .emptyObject _, hv, _, _, _ + 1, _, _, _ => absurd trivial hv
  | .emptyArray _, hv, _, _, _ + 1, _, _, _ => absurd trivial hv
  | .string _, hv, _, _, _ + 1, _, _, _ => absurd trivial hv
  | .bool _, hv, _, _, _ + 1, _, _, _ => absurd trivial hv

/-- An object in which something is not consumed is not read: behind it a key is missing. -/
theorem Members.not_parse : ∀ (members : Members) (_ : ¬members.Consumed) (t : Bytes) (n : ℕ)
    (es : List JsonValue) (r : Bytes × List JsonValue),
    parseHash n (members.text ++ RBRACE :: t) es ≠ .ok r
  | _, _, _, 0, _, _ => by rw [parseHash]; nofun
  | .last key w₁ w₂ value w₃, hv, t, n + 1, es, r => by
    intro h
    rw [Members.last_append, parseHash_key es key.2.1 w₁.blank,
      parseObject_congr (skipSpace_append w₂.blank _)] at h
    obtain ⟨p, hp, hrest⟩ := bind_eq_ok.mp h
    have hend : Delimited (w₃.1 ++ RBRACE :: t) := delimited_append w₃ (delimited_cons (by decide) t)
    have hstuck := (value.stuck hv _ hend _ _ _ hp).1
    rw [if_neg hstuck.ne_comma] at hrest
    exact hstuck.not_parseHash _ _ _ hrest
  | .cons key w₁ w₂ value w₃ w₄ members, hv, t, n + 1, es, r => by
    intro h
    rw [Members.cons_append, parseHash_key es key.2.1 w₁.blank,
      parseObject_congr (skipSpace_append w₂.blank _)] at h
    obtain ⟨p, hp, hrest⟩ := bind_eq_ok.mp h
    have ht : Delimited (w₃.1 ++ COMMA :: (w₄.1 ++ (members.text ++ RBRACE :: t))) :=
      delimited_append w₃ (delimited_cons (by decide) _)
    by_cases hvalue : value.Consumed
    · -- it is in the other members
      obtain ⟨N, hN⟩ := value.parse hvalue _ ht
      obtain rfl := parseObject_unique hp (hN N le_rfl _)
      rw [ite_nextElement (fun x => parseHash n x (es ++ [_])),
        nextElement_comma w₃ w₄ (members.noBlank_text _)] at hrest
      exact members.not_parse (fun hm => hv ⟨hvalue, hm⟩) t n _ r hrest
    · have hstuck := (value.stuck hvalue _ ht _ _ _ hp).1
      rw [if_neg hstuck.ne_comma] at hrest
      exact hstuck.not_parseHash _ _ _ hrest

/-- An array in which something is not consumed is not read: the loop stays there. -/
theorem Items.not_parse : ∀ (items : Items) (_ : ¬items.Consumed) (t : Bytes) (n : ℕ)
    (es : List JsonValue) (r : Bytes × List JsonValue),
    parseArray n (items.text ++ RBRACKET :: t) es ≠ .ok r
  | _, _, _, 0, _, _ => by rw [parseArray]; nofun
  | .last item w₁, hv, t, n + 1, es, r => by
    intro h
    rw [Items.last_append, parseArray_value es (item.peek_text _)] at h
    obtain ⟨p, hp, hrest⟩ := bind_eq_ok.mp h
    have hstuck := (item.stuck hv _ (delimited_append w₁ (delimited_cons (by decide) t)) _ _ _ hp).1
    rw [if_neg hstuck.ne_comma] at hrest
    exact hstuck.not_parseArray _ _ _ hrest
  | .cons item w₁ w₂ items, hv, t, n + 1, es, r => by
    intro h
    rw [Items.cons_append, parseArray_value es (item.peek_text _)] at h
    obtain ⟨p, hp, hrest⟩ := bind_eq_ok.mp h
    have ht : Delimited (w₁.1 ++ COMMA :: (w₂.1 ++ (items.text ++ RBRACKET :: t))) :=
      delimited_append w₁ (delimited_cons (by decide) _)
    by_cases hitem : item.Consumed
    · obtain ⟨N, hN⟩ := item.parse hitem _ ht
      obtain rfl := parseObject_unique hp (hN N le_rfl _)
      rw [ite_nextElement (fun x => parseArray n x (es ++ [_])),
        nextElement_comma w₁ w₂ (items.noBlank_text _)] at hrest
      exact items.not_parse (fun hi => hv ⟨hitem, hi⟩) t n _ r hrest
    · have hstuck := (item.stuck hitem _ ht _ _ _ hp).1
      rw [if_neg hstuck.ne_comma] at hrest
      exact hstuck.not_parseArray _ _ _ hrest

end

/-! ## When the parser returns -/

/-- A value that is consumed, or `null` or a number for which `std::stoll` does not throw, is
read. -/
theorem Value.exists_parse {v : Value} (hv : v.Returns) {t : Bytes} (ht : Delimited t) :
    ∃ N, ∀ n, N ≤ n → ∀ o, ∃ s, parseObject n (v.text ++ t) o = .ok (s, v.tree skipSpace t o) := by
  by_cases hconsumed : v.Consumed
  · obtain ⟨N, hN⟩ := v.parse hconsumed t ht
    exact ⟨N, fun n hn o => ⟨_, hN n hn o⟩⟩
  · refine ⟨1, fun n hn o => ?_⟩
    obtain ⟨m, rfl, -⟩ := exists_step hn
    cases v with
    | null => exact ⟨_, parseObject_null o (Value.null.skipSpace_text t)⟩
    | number k =>
      cases hm : k.minus with
      | true =>
        refine ⟨k.text ++ t, ?_⟩
        rw [Value.text, parseObject_minus hm, Value.tree, Number.store, if_pos hm]
      | false =>
        have hor : k.frac.isSome ∨ decimal k.int.1 < 2 ^ 63 :=
          Or.resolve_left hv (by rw [hm]; decide)
        exact ⟨_, (parseObject_number hm ht o).trans (if_pos hor)⟩
    | _ => exact absurd hv hconsumed

/-- A value that is read is one that `Returns` describes, and becomes its tree. -/
theorem Value.returns_of_parse {v : Value} {t : Bytes} (ht : Delimited t) {n : ℕ} {o : JsonValue}
    {r : Bytes × JsonValue} (h : parseObject n (v.text ++ t) o = .ok r) :
    v.Returns ∧ r.2 = v.tree skipSpace t o := by
  by_cases hconsumed : v.Consumed
  · obtain ⟨N, hN⟩ := v.parse hconsumed t ht
    obtain rfl := parseObject_unique h (hN N le_rfl o)
    refine ⟨?_, rfl⟩
    cases v with
    | number k => exact hconsumed.2.2
    | null => trivial
    | _ => exact hconsumed
  · exact (v.stuck hconsumed t ht n o r h).2

/-- **When the parser returns, and with what.** For every JSON text without escapes and every value
`o` that it is read into: within some number of steps and every larger one, parsing ends with the
value `r`, if and only if everything in the text is consumed, or it is `null` or one number alone,
and `r` is the tree of the text. -/
theorem fromString_iff (w : Space) (v : Value) (w' : Space) (o r : JsonValue) :
    (∃ N, ∀ n, N ≤ n → fromString n o (document w v w') = .ok r) ↔
      v.Returns ∧ r = v.tree skipSpace w'.1 o := by
  constructor
  · rintro ⟨N, hN⟩
    obtain ⟨p, hp, rfl⟩ := map_eq_ok.mp (hN N le_rfl)
    rw [document, parseObject_congr (skipSpace_append w.blank _)] at hp
    exact Value.returns_of_parse (delimited_space w') hp
  · rintro ⟨hv, rfl⟩
    obtain ⟨N, hN⟩ := Value.exists_parse hv (delimited_space w')
    refine ⟨N, fun n hn => ?_⟩
    obtain ⟨s, hs⟩ := hN n hn o
    rw [document, fromString, parseObject_congr (skipSpace_append w.blank _), hs]
    rfl

end Concrete

end Json

end Muduo
