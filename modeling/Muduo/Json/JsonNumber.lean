import Muduo.Json.JsonTotal

/-! # Numbers in `JsonValue`

A number goes through `std::stoll`, a 64-bit union member and the 32-bit accessor `toInt`, which has
an overload for `const` values that returns a reference. A token is a digit followed by digits and
dots.

`scanNumber` is the loop of `parseNumber` step by step, and `parseNumber_eq_scan` says that it finds
the token and its dots. **`readsFaithfully_iff`**: a token is read and given back faithfully exactly
if it has a dot, or is worth less than `2 ^ 31` and the value is not `const`. -/

namespace Muduo

namespace Json

/-- The loop of `parseNumber`, with `isFloat` so far: the characters that it passes, where it ends,
and `isFloat`. The dot is looked for one character ahead. -/
def scanNumber : Bytes → Bool → Bytes × Bytes × Bool
  | [], isFloat => ([], [], isFloat)
  | c :: s, isFloat =>
    if isNumChar c then
      let (numStr, rest, isFloat) := scanNumber s (isFloat || peek s == DOT)
      (c :: numStr, rest, isFloat)
    else ([], c :: s, isFloat)

/-- The value of a `long long` as an `int`. -/
def toInt32 (n : ℤ) : ℤ := n.bmod (2 ^ 32)

/-- `int toInt()`, where the integer is what was written to the union last. -/
def JsonValue.toInt (v : JsonValue) : Option ℤ :=
  match v.num with
  | .intNum n => some (toInt32 n)
  | _ => none

/-- What a reference is bound to. -/
inductive Referent
  /-- A member of the value. -/
  | member (n : ℤ)
  /-- A temporary of the function that returns the reference. -/
  | temporary (n : ℤ)

/-- What can be read through the reference after the call: a temporary has ended. -/
def Referent.read : Referent → Option ℤ
  | .member n => some n
  | .temporary _ => none

/-- `const int& toInt()const`: `intNum_` is a `long long`, so the reference is bound to the `int` that
it is converted to. -/
def JsonValue.toIntConst (v : JsonValue) : Option Referent := v.toInt.map .temporary

/-- The result of `toInt()` on a value that is `const` or not. -/
def JsonValue.toIntOn (isConst : Bool) (v : JsonValue) : Option ℤ :=
  if isConst then v.toIntConst.bind Referent.read else v.toInt

/-- A digit, followed by digits and dots. -/
structure Token where
  /-- The digit. -/
  digit : UInt8
  /-- What follows it. -/
  rest : Bytes
  /-- It is one. -/
  isdigit_digit : isdigit digit = true
  /-- They are digits and dots. -/
  isNumChar_rest : ∀ c ∈ rest, isNumChar c = true

namespace Token

/-- The characters. -/
def text (k : Token) : Bytes := k.digit :: k.rest

/-- A text that goes on with `t` has the token `k` in front: no digit or dot follows. -/
def Before (t : Bytes) : Prop := ∀ c ∈ t.head?, isNumChar c = false

theorem before_cons {c : UInt8} (hc : isNumChar c = false) (t : Bytes) : Before (c :: t) := by
  intro b hb
  cases hb
  exact hc

end Token

/-! ## The loop -/

/-- The loop passes the digits and dots in front, and looks for a dot behind the first character. -/
theorem scanNumber_eq (s : Bytes) (isFloat : Bool) :
    scanNumber s isFloat = (s.takeWhile isNumChar, s.dropWhile isNumChar,
      isFloat || decide (DOT ∈ (s.takeWhile isNumChar).tail)) := by
  induction s generalizing isFloat with
  | nil => simp [scanNumber]
  | cons c s ih =>
    rw [scanNumber]
    by_cases hc : isNumChar c = true
    · rw [if_pos hc, ih, List.takeWhile_cons_of_pos hc, List.dropWhile_cons_of_pos hc]
      -- the dot ahead is the first of the characters that are passed next
      have hdot : (peek s == DOT || decide (DOT ∈ (s.takeWhile isNumChar).tail)) =
          decide (DOT ∈ s.takeWhile isNumChar) := by
        cases s with
        | nil => rfl
        | cons d s =>
          by_cases hd : isNumChar d = true
          · rw [List.takeWhile_cons_of_pos hd, peek_cons, List.tail_cons, Bool.eq_iff_iff,
              Bool.or_eq_true, beq_iff_eq, decide_eq_true_eq, decide_eq_true_eq, List.mem_cons,
              eq_comm]
          · have hne : d ≠ DOT := by
              rintro rfl
              exact hd rfl
            rw [List.takeWhile_cons_of_neg hd, peek_cons]
            simp [hne]
      refine Prod.ext rfl (Prod.ext rfl ?_)
      show ((isFloat || peek s == DOT) || decide (DOT ∈ (s.takeWhile isNumChar).tail)) = _
      rw [Bool.or_assoc, hdot]
      rfl
    · rw [if_neg hc, List.takeWhile_cons_of_neg hc, List.dropWhile_cons_of_neg hc]
      simp

/-- `parseNumber` as its loop leaves it. -/
theorem parseNumber_eq_scan (s : Bytes) : parseNumber s =
    let (numStr, rest, isFloat) := scanNumber s false
    if isFloat = true then .ok (skipSpace rest, .floatNum s, .kFloat)
    else if decimal numStr < 2 ^ 63 then .ok (skipSpace rest, .intNum (decimal numStr), .kInt)
    else .error .outOfRange := by
  have hrest : s.drop (s.takeWhile isNumChar).length = s.dropWhile isNumChar := by
    rw [List.dropWhile_eq_drop_findIdx_not, List.takeWhile_eq_take_findIdx_not, List.length_take,
      Nat.min_eq_left List.findIdx_le_length]
  rw [scanNumber_eq, parseNumber, hrest]
  simp only [Bool.false_or, decide_eq_true_eq]

/-! ## The accessor -/

/-- **An `int` holds what is less than `2 ^ 31`.** -/
theorem toInt32_natCast_eq_iff {n : ℕ} : toInt32 n = n ↔ n < 2 ^ 31 := by
  rw [toInt32]
  constructor
  · intro h
    have hlt : (n : ℤ).bmod (2 ^ 32) < (2 ^ 32 + 1) / 2 := Int.bmod_lt (by decide)
    rw [h] at hlt
    omega
  · intro h
    exact Int.bmod_eq_of_le (by omega) (by omega)

/-- **The overload for `const` values gives nothing**, whatever the value. -/
@[simp] theorem toIntOn_true (v : JsonValue) : v.toIntOn true = none := by
  simp only [JsonValue.toIntOn, JsonValue.toIntConst, if_true]
  cases v.toInt <;> rfl

@[simp] theorem toIntOn_false (v : JsonValue) : v.toIntOn false = v.toInt := rfl

/-! ## Tokens -/

/-- The token in front of `t` is read faithfully: `parseNumber` returns, behind the token and the
blanks after it, with the type `kFloat` exactly if there is a dot; and without a dot the stored
integer, and the result of `toInt()` after `parseObject` has read the token into any value, which is
`const` then or not, is what the token is worth, or `std::out_of_range` is thrown. -/
structure ReadsFaithfully (k : Token) (t : Bytes) (isConst : Bool) : Prop where
  returns : ∃ num type, parseNumber (k.text ++ t) = .ok (skipSpace t, num, type) ∧
    (type = .kInt ∨ type = .kFloat) ∧ (type = .kFloat ↔ DOT ∈ k.text)
  stored : DOT ∉ k.text → parseNumber (k.text ++ t) = .error .outOfRange ∨
    parseNumber (k.text ++ t) = .ok (skipSpace t, .intNum (decimal k.text), .kInt) ∧
      ∀ n v, ∃ v', parseObject (n + 1) (k.text ++ t) v = .ok (skipSpace t, v') ∧
        v'.toIntOn isConst = some (decimal k.text : ℤ)

namespace Token

variable {k : Token} {t : Bytes}

/-- The digit is no dot. -/
theorem dot_mem_text : DOT ∈ k.text ↔ DOT ∈ k.rest := by
  have hne : DOT ≠ k.digit := by
    intro h
    exact absurd (h ▸ k.isdigit_digit) (by decide)
  rw [text, List.mem_cons, or_iff_right hne]

/-- What `parseNumber` makes of a token. -/
theorem parseNumber_text (ht : Before t) : parseNumber (k.text ++ t) =
    if DOT ∈ k.text then .ok (skipSpace t, .floatNum (k.text ++ t), .kFloat)
    else if decimal k.text < 2 ^ 63 then .ok (skipSpace t, .intNum (decimal k.text), .kInt)
    else .error .outOfRange := by
  rw [if_congr dot_mem_text rfl rfl]
  exact parseNumber_append k.isdigit_digit k.isNumChar_rest ht

/-- What `parseObject` makes of a token that fits. -/
theorem parseObject_text (ht : Before t) (hdot : DOT ∉ k.text) (hlt : decimal k.text < 2 ^ 63)
    (n : ℕ) (v : JsonValue) : parseObject (n + 1) (k.text ++ t) v =
      .ok (skipSpace t, { v with num := .intNum (decimal k.text), type := .kInt }) := by
  have hskip : skipSpace (k.text ++ t) = k.digit :: (k.rest ++ t) :=
    skipSpace_of_noBlank (noBlank_cons (isBlank_of_isdigit k.isdigit_digit) _)
  have hparse := parseNumber_text (k := k) ht
  rw [if_neg hdot, if_pos hlt] at hparse
  rw [parseObject_digit v hskip k.isdigit_digit]
  show (parseNumber (k.text ++ t)).map _ = _
  rw [hparse]
  show Except.ok (skipSpace (skipSpace t), _) = _
  rw [skipSpace_skipSpace]

/-- **The tokens that are read faithfully** are those with a dot and, where the value is not `const`,
those worth less than `2 ^ 31`. From there to `2 ^ 63` the accessor cuts the number off; above,
`std::stoll` throws. The accessor of a `const` value returns a reference to nothing. -/
theorem readsFaithfully_iff (ht : Before t) (isConst : Bool) :
    ReadsFaithfully k t isConst ↔
      DOT ∈ k.text ∨ isConst = false ∧ decimal k.text < 2 ^ 31 := by
  have hparse := parseNumber_text (k := k) ht
  constructor
  · rintro ⟨⟨num, type, hok, -⟩, hstored⟩
    by_contra hnot
    obtain ⟨hdot, hge⟩ := not_or.mp hnot
    rcases hstored hdot with herr | ⟨hint, hto⟩
    · -- the exception is no return
      rw [herr] at hok
      cases hok
    · -- the stored integer is right, and the accessor gives another one
      have hlt : decimal k.text < 2 ^ 63 := by
        by_contra hlt
        rw [if_neg hdot, if_neg hlt, hint] at hparse
        cases hparse
      obtain ⟨v', hv', hto'⟩ := hto 0 .new
      rw [parseObject_text ht hdot hlt] at hv'
      cases hv'
      cases isConst with
      | true =>
        rw [toIntOn_true] at hto'
        cases hto'
      | false => exact hge ⟨rfl, toInt32_natCast_eq_iff.mp (Option.some.inj hto')⟩
  · intro hor
    by_cases hdot : DOT ∈ k.text
    · rw [if_pos hdot] at hparse
      exact ⟨⟨_, _, hparse, .inr rfl, iff_of_true rfl hdot⟩, fun h => absurd hdot h⟩
    · obtain ⟨rfl, hlt⟩ := hor.resolve_left hdot
      have hlt' : decimal k.text < 2 ^ 63 := Nat.lt_trans hlt (by decide)
      rw [if_neg hdot, if_pos hlt'] at hparse
      refine ⟨⟨_, _, hparse, .inl rfl, iff_of_false (by decide) hdot⟩, fun _ => .inr ⟨hparse, ?_⟩⟩
      intro n v
      exact ⟨_, parseObject_text ht hdot hlt' n v, congrArg some (toInt32_natCast_eq_iff.mpr hlt)⟩

/-- The token of a string of digits. -/
def ofDigits (c : UInt8) (s : Bytes) (h : isdigit c = true ∧ ∀ b ∈ s, isNumChar b = true) : Token :=
  ⟨c, s, h.1, h.2⟩

/-- `2147483647`. -/
def intMax : Token :=
  ofDigits 50 (ascii "147483647") ⟨by decide, List.all_eq_true.mp (by decide)⟩

/-- `2147483648`. -/
def intMaxSucc : Token :=
  ofDigits 50 (ascii "147483648") ⟨by decide, List.all_eq_true.mp (by decide)⟩

/-- `5`. -/
def five : Token := ofDigits 53 [] ⟨by decide, nofun⟩

/-- The theorem at work at the end of the range of an `int`, and on a `const` value. -/
theorem readsFaithfully_iff_intMax : ReadsFaithfully intMax [SP] false ∧
    ¬ ReadsFaithfully intMaxSucc [SP] false ∧ ¬ ReadsFaithfully five [SP] true :=
  have ht : Before [SP] := before_cons (by decide) []
  ⟨(readsFaithfully_iff ht false).mpr (.inr (by decide)),
    fun h => absurd ((readsFaithfully_iff ht false).mp h) (by decide),
    fun h => absurd ((readsFaithfully_iff ht true).mp h) (by decide)⟩

/-- `2147483648` is parsed without a complaint, and `toInt()` is `-2147483648`. -/
theorem not_readsFaithfully_intMaxSucc :
    (∃ v, parseObject 1 (intMaxSucc.text ++ [SP]) .new = .ok ([], v) ∧ v.toInt = some (-2147483648)) ∧
      ¬ ReadsFaithfully intMaxSucc [SP] false := by
  have ht : Before [SP] := before_cons (by decide) []
  have hdot : DOT ∉ intMaxSucc.text := by decide
  have hto := parseObject_text (k := intMaxSucc) ht hdot (by decide) 0 .new
  refine ⟨⟨_, hto, by decide⟩, fun h => ?_⟩
  rcases h.stored hdot with herr | ⟨-, hto'⟩
  · exact absurd herr (by rw [parseNumber_text ht, if_neg hdot]; decide)
  · obtain ⟨v', hv', hint⟩ := hto' 0 .new
    cases hto.symm.trans hv'
    exact absurd hint (by decide)

end Token

end Json

end Muduo
