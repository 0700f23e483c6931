import Muduo.Foundations.Brackets
import Muduo.Json.JsonReachable

/-! # `serialize` inside its containers

The loops of `serilizeImpl` read `elements_[i]` also behind the loop, where `i` need not be an index
of the vector. The elements are owned by pointers that neither the parser nor an insertion leaves
null.

What is printed is read again as a text with brackets and quotes. **`printsInside_iff`**: a value
that parsing and inserting can make is printed from inside its containers, with balanced brackets
and one value for each element, exactly if it is `null` itself or no element is, no object or array
is empty or has more than `2 ^ 31` elements, and no string or key has a quote. -/

namespace Muduo

namespace Json

/-! ## Reading what is printed -/

/-- The brackets and quotes of a JSON text. -/
def brackets : Brackets UInt8 where
  quote := QUOTE
  closer c := if c = LBRACE then some RBRACE else if c = LBRACKET then some RBRACKET else none
  isCloser c := c == RBRACE || c == RBRACKET

/-- A character of a number or a literal: a digit, a letter, a sign or a dot. -/
def isWordChar (c : UInt8) : Bool :=
  isdigit c || (97 ≤ c && c ≤ 122) || (65 ≤ c && c ≤ 90) || c == 43 || c == 45 || c == 46

/-- A number or a literal. -/
def IsWord (text : Bytes) : Prop := text ≠ [] ∧ ∀ c ∈ text, isWordChar c = true

/-- A string with its quotes. -/
def inQuotes (s : Bytes) : Bytes := QUOTE :: (s ++ [QUOTE])

/-- The text is exactly one value: a number or a literal, or a string, an object or an array in one
piece. -/
def IsValue (text : Bytes) : Prop :=
  IsWord text ∨ (∃ c ∈ text.head?, c = QUOTE ∨ c = LBRACE ∨ c = LBRACKET) ∧ brackets.Piece text

/-- An object or an array. -/
def JsonValue.IsContainer (v : JsonValue) : Prop := v.type = .kHash ∨ v.type = .kArray

/-- The value is printed as exactly one value, and so is each of its elements; the keys of an object
are printed as one string each. -/
inductive Valued (floatText : Bytes → Bytes) : ℕ → JsonValue → Prop
  | intro {tabNum : ℕ} {v : JsonValue} {out : Bytes} :
      serilizeImpl floatText tabNum v = some out → IsValue out →
      (v.type = .kHash → ∀ e ∈ v.elements, brackets.Piece (inQuotes e.key)) →
      (v.IsContainer → ∀ e ∈ v.elements, Valued floatText (tabNum + 1) e) →
      Valued floatText tabNum v

/-- `serialize` ends and reads its containers inside their bounds, its output has balanced brackets,
and has one value for the value and each element; `null` alone is printed as nothing. -/
def PrintsInside (floatText : Bytes → Bytes) (v : JsonValue) : Prop :=
  ∃ out, serialize floatText v = some out ∧ brackets.Balanced out ∧
    (v.type = .kNull ∨ Valued floatText 0 v)

/-- No `null` is in the tree, its objects and arrays have at least one element and no more than an
`int` counts, and its strings and keys have no quote. -/
inductive Printable : JsonValue → Prop
  | intro {v : JsonValue} : v.type ≠ .kNull → (v.type = .kString → QUOTE ∉ v.str) →
      (v.IsContainer → v.elements ≠ [] ∧ v.elements.length ≤ 2 ^ 31) →
      (v.type = .kHash → ∀ e ∈ v.elements, QUOTE ∉ e.key) →
      (v.IsContainer → ∀ e ∈ v.elements, Printable e) → Printable v

/-! ## Pieces -/

theorem plain_of_ne {c : UInt8} (hquote : c ≠ QUOTE) (h1 : c ≠ LBRACE) (h2 : c ≠ LBRACKET)
    (h3 : c ≠ RBRACE) (h4 : c ≠ RBRACKET) : brackets.Plain c := by
  refine ⟨hquote, ?_, ?_⟩
  · show (if c = LBRACE then some RBRACE else if c = LBRACKET then some RBRACKET else none) = none
    rw [if_neg h1, if_neg h2]
  · show (c == RBRACE || c == RBRACKET) = false
    rw [beq_false_of_ne h3, beq_false_of_ne h4]
    rfl

theorem plain_of_isWordChar {c : UInt8} (h : isWordChar c = true) : brackets.Plain c := by
  refine plain_of_ne ?_ ?_ ?_ ?_ ?_
  all_goals
    rintro rfl
    exact absurd h (by decide)

theorem closes_brace : brackets.Closes LBRACE RBRACE := by
  constructor <;> decide

theorem closes_bracket : brackets.Closes LBRACKET RBRACKET := by
  constructor <;> decide

theorem plain_tab (tabNum : ℕ) : ∀ c ∈ tab tabNum, brackets.Plain c := by
  intro c hc
  rw [List.eq_of_mem_replicate hc]
  constructor <;> decide

theorem balanced_singleton {c : UInt8} (h : brackets.Plain c) : brackets.Balanced [c] :=
  Brackets.balanced_plain (List.forall_mem_singleton.mpr h)

theorem plain_LF : brackets.Plain LF := by
  constructor <;> decide

theorem balanced_separator : brackets.Balanced [COMMA, LF] := by decide

theorem IsValue.balanced {text : Bytes} (h : IsValue text) : brackets.Balanced text := by
  rcases h with ⟨-, hword⟩ | ⟨-, hpiece⟩
  · exact Brackets.balanced_plain fun c hc => plain_of_isWordChar (hword c hc)
  · exact hpiece.balanced

/-- **A string is printed as one value** exactly if it has no quote. -/
theorem isValue_inQuotes_iff {s : Bytes} : IsValue (inQuotes s) ↔ QUOTE ∉ s := by
  constructor
  · rintro (⟨-, hword⟩ | ⟨-, hpiece⟩)
    · exact absurd (hword QUOTE List.mem_cons_self) (by decide)
    · exact Brackets.piece_quoted_iff.mp hpiece
  · intro h
    exact .inr ⟨⟨QUOTE, rfl, .inl rfl⟩, Brackets.piece_quoted_iff.mpr h⟩

/-- The text of an object or an array is one value if its parts are balanced. -/
theorem isValue_container {o c : UInt8} (h : brackets.Closes o c) (ho : o = LBRACE ∨ o = LBRACKET)
    {bs : List Bytes} (hbs : ∀ b ∈ bs, brackets.Balanced b) (tabNum : ℕ) :
    IsValue ([o, LF] ++ [COMMA, LF].intercalate bs ++ [LF] ++ tab tabNum ++ [c]) := by
  have hbody : brackets.Balanced
      ([LF] ++ [COMMA, LF].intercalate bs ++ [LF] ++ tab tabNum) :=
    Brackets.balanced_append (Brackets.balanced_append (Brackets.balanced_append
      (balanced_singleton plain_LF) (Brackets.balanced_intercalate balanced_separator hbs))
        (balanced_singleton plain_LF)) (Brackets.balanced_plain (plain_tab tabNum))
  exact .inr ⟨⟨o, rfl, .inr ho⟩, Brackets.piece_enclosed h hbody⟩

/-! ## From the condition to the output -/

section

variable {floatText : Bytes → Bytes} {tabNum : ℕ}

theorem Valued.exists_text {v : JsonValue} (h : Valued floatText tabNum v) :
    ∃ out, serilizeImpl floatText tabNum v = some out ∧ IsValue out := by
  obtain ⟨hout, hvalue, -, -⟩ := h
  exact ⟨_, hout, hvalue⟩

/-- An object whose elements are printed as values is printed as a value. -/
theorem valued_hash {es : List JsonValue} {str key : Bytes} {num : Num} (hne : es ≠ [])
    (hlen : es.length ≤ 2 ^ 31) (hkeys : ∀ e ∈ es, QUOTE ∉ e.key)
    (hes : ∀ e ∈ es, Valued floatText (tabNum + 1) e) :
    Valued floatText tabNum ⟨es, str, key, num, .kHash⟩ := by
  obtain ⟨bs, hbs, hbal⟩ := loop_map (Q := brackets.Balanced) hne hlen
    (f := fun e => (serilizeImpl floatText (tabNum + 1) e).map fun value =>
      tab tabNum ++ [TAB, QUOTE] ++ e.key ++ [QUOTE, COLON] ++ value) fun e he => by
    obtain ⟨out, hout, hvalue⟩ := (hes e he).exists_text
    have hkey := (isValue_inQuotes_iff.mpr (hkeys e he)).balanced
    have heq : tab tabNum ++ [TAB, QUOTE] ++ e.key ++ [QUOTE, COLON] ++ out =
        tab tabNum ++ ([TAB] ++ (inQuotes e.key ++ ([COLON] ++ out))) := by simp [inQuotes]
    refine ⟨_, by rw [hout]; rfl, ?_⟩
    show brackets.Balanced (tab tabNum ++ [TAB, QUOTE] ++ e.key ++ [QUOTE, COLON] ++ out)
    rw [heq]
    exact Brackets.balanced_append (Brackets.balanced_plain (plain_tab tabNum))
      (Brackets.balanced_append (by decide) (Brackets.balanced_append hkey
        (Brackets.balanced_append (by decide) hvalue.balanced)))
  have hprint : serilizeImpl floatText tabNum ⟨es, str, key, num, .kHash⟩ =
      some ([LBRACE, LF] ++ [COMMA, LF].intercalate bs ++ [LF] ++ tab tabNum ++ [RBRACE]) := by
    rw [serilizeImpl, hashParts_eq_map, hbs]
    rfl
  exact .intro hprint (isValue_container closes_brace (.inl rfl) hbal tabNum)
    (fun _ e he => Brackets.piece_quoted_iff.mpr (hkeys e he)) fun _ => hes

/-- An array whose elements are printed as values is printed as a value. -/
theorem valued_array {es : List JsonValue} {str key : Bytes} {num : Num} (hne : es ≠ [])
    (hlen : es.length ≤ 2 ^ 31) (hes : ∀ e ∈ es, Valued floatText (tabNum + 1) e) :
    Valued floatText tabNum ⟨es, str, key, num, .kArray⟩ := by
  obtain ⟨bs, hbs, hbal⟩ := loop_map (Q := brackets.Balanced) hne hlen
    (f := fun e => (serilizeImpl floatText (tabNum + 1) e).map fun value =>
      tab tabNum ++ [TAB] ++ value) fun e he => by
    obtain ⟨out, hout, hvalue⟩ := (hes e he).exists_text
    refine ⟨_, by rw [hout]; rfl, ?_⟩
    exact Brackets.balanced_append (Brackets.balanced_append
      (Brackets.balanced_plain (plain_tab tabNum)) (by decide)) hvalue.balanced
  have hprint : serilizeImpl floatText tabNum ⟨es, str, key, num, .kArray⟩ =
      some ([LBRACKET, LF] ++ [COMMA, LF].intercalate bs ++ [LF] ++ tab tabNum ++ [RBRACKET]) := by
    rw [serilizeImpl, arrayParts_eq_map, hbs]
    rfl
  have hhash : JType.kArray ≠ .kHash := by decide
  exact .intro hprint (isValue_container closes_bracket (.inr rfl) hbal tabNum)
    (fun h => absurd h hhash) fun _ => hes

/-- A value that is no container is printed as it is. -/
theorem valued_leaf {es : List JsonValue} {str key out : Bytes} {num : Num} {type : JType}
    (hleaf : ¬ (type = .kHash ∨ type = .kArray))
    (hout : serilizeImpl floatText tabNum ⟨es, str, key, num, type⟩ = some out)
    (hvalue : IsValue out) : Valued floatText tabNum ⟨es, str, key, num, type⟩ :=
  .intro hout hvalue (fun h => absurd (.inl h) hleaf) fun h => absurd h hleaf

end

theorem isWord_of_all {text : Bytes} (h : (!text.isEmpty && text.all isWordChar) = true) :
    IsWord text := by
  rw [Bool.and_eq_true, Bool.not_eq_true', List.isEmpty_eq_false_iff] at h
  exact ⟨h.1, List.all_eq_true.mp h.2⟩

/-- `std::to_string` writes a number. -/
theorem isWord_toString (n : ℤ) : IsWord (ascii (toString n)) := by
  have hdigits : ∀ (m : ℕ), ∀ c ∈ ascii (toString (m : ℤ)), isWordChar c = true := by
    intro m c hc
    rw [isWordChar, isdigit_of_mem_toString hc]
    rfl
  cases n with
  | ofNat m => exact ⟨toString_ne_nil m, hdigits m⟩
  | negSucc m =>
    have heq : ascii (toString (Int.negSucc m)) = 45 :: ascii (toString ((m + 1 : ℕ) : ℤ)) := by
      have h : toString (Int.negSucc m) = "-" ++ toString ((m + 1 : ℕ) : ℤ) := rfl
      rw [h, ascii, String.toList_append, List.map_append]
      rfl
    rw [heq]
    exact ⟨List.cons_ne_nil _ _, List.forall_mem_cons.mpr ⟨by decide, hdigits (m + 1)⟩⟩

/-- **What is printable is printed as a value**, by induction on the tree. -/
theorem Printable.valued {floatText : Bytes → Bytes} (hfloat : ∀ text, IsWord (floatText text))
    {v : JsonValue} (hp : Printable v) (ht : Typed v) (tabNum : ℕ) : Valued floatText tabNum v := by
  induction hp generalizing tabNum with
  | @intro v hnull hstr hsize hkeys _ ih =>
    obtain ⟨elements, str, key, num, type⟩ := v
    have hm := ht.matches
    cases type with
    | kHash =>
      obtain ⟨hne, hlen⟩ := hsize (.inl rfl)
      exact valued_hash hne hlen (hkeys rfl) fun e he =>
        ih (.inl rfl) e he (ht.elements e he) (tabNum + 1)
    | kArray =>
      obtain ⟨hne, hlen⟩ := hsize (.inr rfl)
      exact valued_array hne hlen fun e he =>
        ih (.inr rfl) e he (ht.elements e he) (tabNum + 1)
    | kInt =>
      obtain ⟨n, rfl⟩ : ∃ n, num = .intNum n := hm
      exact valued_leaf (by decide) (by rw [serilizeImpl]) (.inl (isWord_toString n))
    | kFloat =>
      obtain ⟨text, rfl⟩ : ∃ text, num = .floatNum text := hm
      exact valued_leaf (by decide) (by rw [serilizeImpl]) (.inl (hfloat text))
    | kBool =>
      obtain ⟨b, rfl⟩ : ∃ b, num = .boolNum b := hm
      cases b
      · exact valued_leaf (by decide) (by rw [serilizeImpl]) (.inl (isWord_of_all (by decide)))
      · exact valued_leaf (by decide) (by rw [serilizeImpl]) (.inl (isWord_of_all (by decide)))
    | kString =>
      have hprint : serilizeImpl floatText tabNum ⟨elements, str, key, num, .kString⟩ =
          some (inQuotes str) := by
        rw [serilizeImpl]
        rfl
      exact valued_leaf (by decide) hprint (isValue_inQuotes_iff.mpr (hstr rfl))
    | kNull => exact absurd rfl hnull

/-- **What is printed as a value is printable**, by induction on how it is printed. -/
theorem Valued.printable {floatText : Bytes → Bytes} {tabNum : ℕ} {v : JsonValue}
    (h : Valued floatText tabNum v) : Printable v := by
  induction h with
  | @intro tabNum v out hout hvalue hkeys _ ih =>
    obtain ⟨elements, str, key, num, type⟩ := v
    refine .intro ?_ ?_ ?_ (fun hhash e he => Brackets.piece_quoted_iff.mp (hkeys hhash e he)) ih
    · -- nothing is printed of `null`
      rintro rfl
      rw [serilizeImpl] at hout
      cases hout
      rcases hvalue with ⟨hne, -⟩ | ⟨-, hpiece⟩
      · exact hne rfl
      · exact hpiece.ne_nil rfl
    · rintro rfl
      rw [serilizeImpl] at hout
      cases hout
      exact isValue_inQuotes_iff.mp hvalue
    · rintro (rfl | rfl)
      · rw [serilizeImpl] at hout
        obtain ⟨body, hbody, -⟩ := Option.map_eq_some_iff.mp hout
        obtain ⟨hne, hlen⟩ := length_of_loop hbody
        rw [hashParts_eq_map] at hne hlen
        exact ⟨mt List.map_eq_nil_iff.mpr hne, by rwa [List.length_map] at hlen⟩
      · rw [serilizeImpl] at hout
        obtain ⟨body, hbody, -⟩ := Option.map_eq_some_iff.mp hout
        obtain ⟨hne, hlen⟩ := length_of_loop hbody
        rw [arrayParts_eq_map] at hne hlen
        exact ⟨mt List.map_eq_nil_iff.mpr hne, by rwa [List.length_map] at hlen⟩

/-- **The values that are printed from inside their containers.** For everything that parsing and
inserting can make: `serialize` ends, reads no element outside of a vector, and prints balanced
brackets and one value for each element, if and only if the value is `null`, or no `null` is in the
tree, its objects and arrays are not empty and their indices fit into an `int`, and its strings and
keys have no quote. -/
theorem printsInside_iff {floatText : Bytes → Bytes} (hfloat : ∀ text, IsWord (floatText text))
    {v : JsonValue} (hv : v.Reachable) :
    PrintsInside floatText v ↔ v.type = .kNull ∨ Printable v := by
  constructor
  · rintro ⟨out, -, -, hnull | hvalued⟩
    · exact .inl hnull
    · exact .inr hvalued.printable
  · rintro (hnull | hp)
    · obtain ⟨elements, str, key, num, type⟩ := v
      obtain rfl : type = .kNull := hnull
      exact ⟨[], by rw [serialize, serilizeImpl], Brackets.balanced_nil, .inl rfl⟩
    · have hvalued := hp.valued hfloat hv.typed 0
      obtain ⟨out, hout, hvalue⟩ := hvalued.exists_text
      exact ⟨out, hout, hvalue.balanced, .inr hvalued⟩

/-- The theorem at work on an array of three numbers. -/
theorem printsInside_iff_ones : PrintsInside (fun _ => ascii "0.000000") (intArray [1, 1, 1]) := by
  obtain ⟨N, hN⟩ := fromString_onesText 2
  have hreachable : (intArray [1, 1, 1]).Reachable := .fromString .new (hN N le_rfl)
  refine (printsInside_iff (fun _ => isWord_of_all (by decide)) hreachable).mpr (.inr ?_)
  refine .intro nofun nofun (fun _ => ⟨nofun, by decide⟩) nofun fun _ e he => ?_
  obtain ⟨n, -, rfl⟩ := List.mem_map.mp he
  exact .intro nofun nofun nofun nofun nofun

/-- **An empty object**: the text is parsed, and printing it reads `elements_[0]` of an empty
vector. -/
theorem not_printsInside_empty : ∃ v, fromString 2 .new ⟨ascii "\x7b\x7d", by decide⟩ = .ok v ∧
    v.Reachable ∧ ∀ floatText, serialize floatText v = none ∧ ¬ PrintsInside floatText v := by
  have hparse : fromString 2 .new ⟨ascii "\x7b\x7d", by decide⟩ =
      .ok { JsonValue.new with type := .kHash } := rfl
  refine ⟨_, hparse, .fromString .new hparse, fun floatText => ?_⟩
  have hnone : serialize floatText { JsonValue.new with type := .kHash } = none := by
    rw [serialize, JsonValue.new, serilizeImpl, hashParts, loop_eq (by decide)]
    rfl
  refine ⟨hnone, ?_⟩
  rintro ⟨out, hout, -⟩
  cases hnone.symm.trans hout

end Json

end Muduo
