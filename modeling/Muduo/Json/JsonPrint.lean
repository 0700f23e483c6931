import Muduo.Base.Decimal
import Muduo.Base.SizeT
import Muduo.Json.JsonDocument

/-! # Printing a value

`serialize` and `serilizeImpl`, which write a value over several lines, with a tab for each level.
The loops have the index that the code has: an `int`, compared with the `size_t`
`elements_.size()-1`, and used once more behind the loop. (`tabNum` is an `int` as well, but it
counts calls that wait for each other.)

A tree that the parser makes of a text, without floats, `null` and empty objects and arrays, is
printed as the text of a document, which the parser understands, unless an index does not fit into
an `int`. **`comesBack_iff`**: parsing undoes printing on these trees exactly if no object and no
array has more than `2 ^ 31` elements.

`Parsed` are the trees that the parser makes of a text. Their strings have no quote and no NUL and
do not begin with a blank, which is why the parser loses nothing of them. -/

namespace Muduo

namespace Json

/-! ## The code -/

/-- `std::string tab(tabNum,'\t')`. -/
def tab (tabNum : ℕ) : Bytes := List.replicate tabNum TAB

/-- The loop over `elements_`, with the element behind it. `parts` is what is appended for each
element, and `i` the index. Reading outside of the vector and counting beyond an `int` have no
result. -/
def serilizeLoop (parts : List (Option Bytes)) (i : ℕ) : Option Bytes :=
  if i < sizeT ((parts.length : ℤ) - 1) then
    match _h : parts[i]? with
    | some (some part) =>
      if i + 1 < 2 ^ 31 then
        (serilizeLoop parts (i + 1)).map fun rest => part ++ [COMMA, LF] ++ rest
      else none
    | _ => none
  else (parts[i]?).join
termination_by parts.length - i
decreasing_by
  have := (List.getElem?_eq_some_iff.mp _h).1
  omega

section

-- `std::to_string` of the `double` that `std::strtod` reads from a text
variable (floatText : Bytes → Bytes)

mutual

/-- `serilizeImpl(output, tabNum)`: what is appended to `output`. -/
def serilizeImpl (tabNum : ℕ) : JsonValue → Option Bytes
  | ⟨elements, str, _, num, type⟩ =>
    match type with
    | .kHash => (serilizeLoop (hashParts tabNum elements) 0).map fun body =>
        [LBRACE, LF] ++ body ++ [LF] ++ tab tabNum ++ [RBRACE]
    | .kArray => (serilizeLoop (arrayParts tabNum elements) 0).map fun body =>
        [LBRACKET, LF] ++ body ++ [LF] ++ tab tabNum ++ [RBRACKET]
    | .kInt =>
      match num with
      | .intNum n => some (ascii (toString n))
      | _ => none
    | .kFloat =>
      match num with
      | .floatNum text => some (floatText text)
      | _ => none
    | .kBool =>
      match num with
      | .boolNum true => some (ascii "true")
      | .boolNum false => some (ascii "false")
      | _ => none
    | .kString => some ([QUOTE] ++ str ++ [QUOTE])
    | .kNull => some []

/-- What is appended for each element of an object. -/
def hashParts (tabNum : ℕ) : List JsonValue → List (Option Bytes)
  | [] => []
  | element :: elements => ((serilizeImpl (tabNum + 1) element).map fun value =>
      tab tabNum ++ [TAB, QUOTE] ++ element.key ++ [QUOTE, COLON] ++ value) ::
        hashParts tabNum elements

/-- What is appended for each element of an array. -/
def arrayParts (tabNum : ℕ) : List JsonValue → List (Option Bytes)
  | [] => []
  | element :: elements => ((serilizeImpl (tabNum + 1) element).map fun value =>
      tab tabNum ++ [TAB] ++ value) :: arrayParts tabNum elements

end

/-- `serialize()`. -/
def serialize (v : JsonValue) : Option Bytes := serilizeImpl floatText 0 v

end

/-! ## The loop -/

/-- The parts with a separator between them. -/
def joined : List (Option Bytes) → Option Bytes
  | [] => none
  | [part] => part
  | part :: parts => part.bind fun p => (joined parts).map fun rest => p ++ [COMMA, LF] ++ rest

theorem joined_cons (part : Option Bytes) {parts : List (Option Bytes)} (h : parts ≠ []) :
    joined (part :: parts) = part.bind fun p =>
      (joined parts).map fun rest => p ++ [COMMA, LF] ++ rest := by
  obtain ⟨part', parts, rfl⟩ := List.exists_cons_of_ne_nil h
  rfl

theorem sizeT_pred {n : ℕ} (h : 0 < n) : sizeT ((n : ℤ) - 1) = n - 1 := by
  have h1 : sizeT ((n : ℤ) - (1 : ℕ)) = n - 1 := sizeT_sub h
  simpa using h1

/-- Behind the last element there is nothing to read. -/
theorem loop_behind {parts : List (Option Bytes)} {i : ℕ} (h : parts.length ≤ i) :
    serilizeLoop parts i = none := by
  have hget : parts[i]? = none := List.getElem?_eq_none h
  rw [serilizeLoop]
  by_cases hlt : i < sizeT ((parts.length : ℤ) - 1)
  · rw [if_pos hlt]
    split
    · next heq => cases hget.symm.trans heq
    · rfl
  · rw [if_neg hlt, hget]
    rfl

/-- The last element is the one behind the loop. -/
theorem loop_last {parts : List (Option Bytes)} {i : ℕ} (h : i < parts.length)
    (hlast : ¬ i < parts.length - 1) : serilizeLoop parts i = parts[i] := by
  rw [serilizeLoop, sizeT_pred (by omega), if_neg hlast, List.getElem?_eq_getElem h]
  rfl

/-- A round of the loop. -/
theorem loop_round {parts : List (Option Bytes)} {i : ℕ} (h : i < parts.length)
    (hround : i < parts.length - 1) : serilizeLoop parts i = parts[i].bind fun part =>
      if i + 1 < 2 ^ 31 then
        (serilizeLoop parts (i + 1)).map fun rest => part ++ [COMMA, LF] ++ rest
      else none := by
  have hget : parts[i]? = some parts[i] := List.getElem?_eq_getElem h
  rw [serilizeLoop, sizeT_pred (by omega), if_pos hround]
  split
  · next part heq =>
    rw [Option.some.inj (hget.symm.trans heq)]
    rfl
  · next hne =>
    cases hpart : parts[i] with
    | none => rfl
    | some part => exact absurd (hget.trans (congrArg some hpart)) (hne part)

/-- **What the loop does**: it joins the parts from the index on, if the vector is not empty and its
indices fit into an `int`. -/
theorem loop_eq {parts : List (Option Bytes)} {i : ℕ} (hi : i < 2 ^ 31) :
    serilizeLoop parts i = if parts.length ≤ 2 ^ 31 then joined (parts.drop i) else none := by
  induction hn : parts.length - i generalizing i with
  | zero =>
    have hlen : parts.length ≤ i := by omega
    rw [loop_behind hlen, List.drop_of_length_le hlen, joined, ite_self]
  | succ n ih =>
    have hlt : i < parts.length := by omega
    rw [List.drop_eq_getElem_cons hlt]
    by_cases hround : i < parts.length - 1
    · have hrest : parts.drop (i + 1) ≠ [] := by
        rw [Ne, List.drop_eq_nil_iff]
        omega
      rw [loop_round hlt hround, joined_cons _ hrest]
      by_cases hnext : i + 1 < 2 ^ 31
      · rw [ih hnext (by omega)]
        cases parts[i] <;> split_ifs <;> rfl
      · -- the index cannot be counted up to the last element
        have hwide : ¬ parts.length ≤ 2 ^ 31 := by omega
        simp only [if_neg hnext, if_neg hwide, Option.bind_fun_none]
    · rw [loop_last hlt hround, if_pos (by omega), List.drop_of_length_le (by omega)]
      rfl

/-- Joined parts. -/
theorem joined_eq_some {parts : List (Option Bytes)} {out : Bytes} : joined parts = some out ↔
    ∃ bs, bs ≠ [] ∧ parts = bs.map some ∧ out = [COMMA, LF].intercalate bs := by
  induction parts generalizing out with
  | nil =>
    refine iff_of_false nofun ?_
    rintro ⟨bs, hne, hmap, -⟩
    exact hne (List.map_eq_nil_iff.mp hmap.symm)
  | cons part parts ih =>
    cases parts with
    | nil =>
      rw [joined]
      constructor
      · rintro rfl
        exact ⟨[out], nofun, rfl, by simp⟩
      · rintro ⟨bs, -, hmap, rfl⟩
        obtain ⟨b, hb, rfl⟩ : ∃ b, part = some b ∧ bs = [b] := by
          cases bs with
          | nil => cases hmap
          | cons b bs =>
            obtain ⟨hpart, hnil⟩ := List.cons.inj hmap
            exact ⟨b, hpart, by rw [List.map_eq_nil_iff.mp hnil.symm]⟩
        rw [hb]
        simp
    | cons part' parts =>
      rw [joined_cons _ (List.cons_ne_nil part' parts), Option.bind_eq_some_iff]
      constructor
      · rintro ⟨p, rfl, h⟩
        obtain ⟨rest, hrest, rfl⟩ := Option.map_eq_some_iff.mp h
        obtain ⟨bs, hne, hmap, rfl⟩ := ih.mp hrest
        obtain ⟨b, bs, rfl⟩ := List.exists_cons_of_ne_nil hne
        exact ⟨p :: b :: bs, nofun, by rw [hmap]; rfl, by simp⟩
      · rintro ⟨bs, -, hmap, rfl⟩
        match bs, hmap with
        | b :: b' :: bs, hmap =>
          obtain ⟨hpart, hparts⟩ := List.cons.inj hmap
          have hrest := ih.mpr ⟨b' :: bs, nofun, hparts, rfl⟩
          exact ⟨b, hpart, Option.map_eq_some_iff.mpr ⟨_, hrest, by simp⟩⟩

/-- The parts that are appended, if every element is printed. -/
theorem exists_map_some {α : Type*} {f : α → Option Bytes} {Q : Bytes → Prop} {es : List α}
    (h : ∀ e ∈ es, ∃ b, f e = some b ∧ Q b) : ∃ bs : List Bytes, es.map f = bs.map some ∧
      ∀ b ∈ bs, Q b := by
  induction es with
  | nil => exact ⟨[], rfl, nofun⟩
  | cons e es ih =>
    rw [List.forall_mem_cons] at h
    obtain ⟨b, hb, hQ⟩ := h.1
    obtain ⟨bs, hbs, hall⟩ := ih h.2
    exact ⟨b :: bs, by rw [List.map_cons, hb, hbs]; rfl, List.forall_mem_cons.mpr ⟨hQ, hall⟩⟩

section

variable {floatText : Bytes → Bytes} {tabNum : ℕ}

theorem hashParts_eq_map (es : List JsonValue) : hashParts floatText tabNum es = es.map fun e =>
    (serilizeImpl floatText (tabNum + 1) e).map fun value =>
      tab tabNum ++ [TAB, QUOTE] ++ e.key ++ [QUOTE, COLON] ++ value := by
  induction es with
  | nil => rfl
  | cons e es ih => rw [hashParts, ih, List.map_cons]

theorem arrayParts_eq_map (es : List JsonValue) : arrayParts floatText tabNum es = es.map fun e =>
    (serilizeImpl floatText (tabNum + 1) e).map fun value => tab tabNum ++ [TAB] ++ value := by
  induction es with
  | nil => rfl
  | cons e es ih => rw [arrayParts, ih, List.map_cons]

end

/-- The loop over a vector ends well only if it is not empty and not too long. -/
theorem length_of_loop {parts : List (Option Bytes)} {out : Bytes}
    (h : serilizeLoop parts 0 = some out) : parts ≠ [] ∧ parts.length ≤ 2 ^ 31 := by
  rw [loop_eq (by decide), Option.ite_none_right_eq_some] at h
  refine ⟨?_, h.1⟩
  rintro rfl
  cases h.2

/-- The loop over elements that are printed joins what is printed of them. -/
theorem loop_map {f : JsonValue → Option Bytes} {Q : Bytes → Prop} {es : List JsonValue}
    (hne : es ≠ []) (hlen : es.length ≤ 2 ^ 31) (h : ∀ e ∈ es, ∃ b, f e = some b ∧ Q b) :
    ∃ bs, serilizeLoop (es.map f) 0 = some ([COMMA, LF].intercalate bs) ∧ ∀ b ∈ bs, Q b := by
  obtain ⟨bs, hbs, hQ⟩ := exists_map_some h
  have hne' : bs ≠ [] := by
    rintro rfl
    exact hne (List.map_eq_nil_iff.mp hbs)
  refine ⟨bs, ?_, hQ⟩
  rw [loop_eq (by decide), List.length_map, if_pos hlen, hbs]
  exact joined_eq_some.mpr ⟨bs, hne', rfl, rfl⟩

section

variable {floatText : Bytes → Bytes} {tabNum : ℕ} {es : List JsonValue}

theorem hashParts_ne_nil (h : es ≠ []) : hashParts floatText tabNum es ≠ [] := by
  rw [hashParts_eq_map]
  exact mt List.map_eq_nil_iff.mp h

theorem arrayParts_ne_nil (h : es ≠ []) : arrayParts floatText tabNum es ≠ [] := by
  rw [arrayParts_eq_map]
  exact mt List.map_eq_nil_iff.mp h

theorem serilizeLoop_hashParts (h : es.length ≤ 2 ^ 31) :
    serilizeLoop (hashParts floatText tabNum es) 0 = joined (hashParts floatText tabNum es) := by
  rw [loop_eq (by decide), if_pos (by rwa [hashParts_eq_map, List.length_map]), List.drop_zero]

theorem serilizeLoop_arrayParts (h : es.length ≤ 2 ^ 31) :
    serilizeLoop (arrayParts floatText tabNum es) 0 = joined (arrayParts floatText tabNum es) := by
  rw [loop_eq (by decide), if_pos (by rwa [arrayParts_eq_map, List.length_map]), List.drop_zero]

end

/-- If the loop ends well, the vector is not too long, and every element has been printed. -/
theorem printed_of_loop {f : JsonValue → Option Bytes} {es : List JsonValue} {out : Bytes}
    (h : serilizeLoop (es.map f) 0 = some out) :
    es.length ≤ 2 ^ 31 ∧ ∀ e ∈ es, ∃ part, f e = some part := by
  rw [loop_eq (by decide), Option.ite_none_right_eq_some, List.length_map, List.drop_zero,
    joined_eq_some] at h
  obtain ⟨hlen, bs, -, hmap, -⟩ := h
  refine ⟨hlen, fun e he => ?_⟩
  have hmem : f e ∈ bs.map some := hmap ▸ List.mem_map_of_mem he
  obtain ⟨b, -, hb⟩ := List.mem_map.mp hmem
  exact ⟨b, hb.symm⟩

example (floatText : Bytes → Bytes) : serialize floatText ⟨[⟨[], [], ascii "a", .intNum 10, .kInt⟩,
    ⟨[⟨[], ascii "x", [], .unset, .kString⟩], [], ascii "b", .unset, .kArray⟩],
    [], [], .unset, .kHash⟩ =
      some (ascii "\x7b\n\t\"a\":10,\n\t\"b\":[\n\t\t\"x\"\n\t]\n\x7d") := by
  simp only [serialize, serilizeImpl, hashParts, arrayParts, loop_eq (by decide : 0 < 2 ^ 31)]
  rfl

/-! ## Integers -/

/-- `std::to_string(n)`. -/
def digits (n : ℕ) (h : n < 2 ^ 63) : Digits :=
  ⟨ascii (toString (n : ℤ)), toString_ne_nil n, fun _ hc => isdigit_of_mem_toString hc, by
    rwa [decimal_toString]⟩

/-! ## What the parser makes of a text -/

/-- A string that the parser reads as it stands. -/
structure Clean (s : Bytes) : Prop where
  noQuote : QUOTE ∉ s
  noZero : 0 ∉ s
  noBlank : NoBlank s

/-- The trees that the parser makes of a text. -/
inductive Parsed : JsonValue → Prop
  | hash {es : List JsonValue} {key : Bytes} : (∀ e ∈ es, Clean e.key) → (∀ e ∈ es, Parsed e) →
      Parsed { JsonValue.new with key := key, elements := es, type := .kHash }
  | array {es : List JsonValue} {key : Bytes} : (∀ e ∈ es, e.key = []) → (∀ e ∈ es, Parsed e) →
      Parsed { JsonValue.new with key := key, elements := es, type := .kArray }
  | string {str key : Bytes} : Clean str →
      Parsed { JsonValue.new with key := key, str := str, type := .kString }
  | int {n : ℕ} {key : Bytes} : n < 2 ^ 63 →
      Parsed { JsonValue.new with key := key, num := .intNum n, type := .kInt }
  | float {text key : Bytes} :
      Parsed { JsonValue.new with key := key, num := .floatNum text, type := .kFloat }
  | bool {b : Bool} {key : Bytes} :
      Parsed { JsonValue.new with key := key, num := .boolNum b, type := .kBool }
  | null {key : Bytes} : Parsed { JsonValue.new with key := key }

theorem clean_skipSpace {s : Bytes} (hquote : QUOTE ∉ s) (hzero : 0 ∉ s) : Clean (skipSpace s) where
  noQuote := notMem_skipSpace hquote
  noZero := notMem_skipSpace hzero
  noBlank := noBlank_skipSpace s

/-- What the results within `n` steps are, at a text without NUL. -/
structure ParsedAt (n : ℕ) : Prop where
  /-- `parseObject` makes a tree of a fresh value. -/
  object : ∀ s key t v, 0 ∉ s →
    parseObject n s { JsonValue.new with key := key } = .ok (t, v) →
      0 ∉ t ∧ v.key = key ∧ Parsed v
  /-- The loop of `parseHash` appends trees under clean keys. -/
  hash : ∀ s es t es', 0 ∉ s → parseHash n s es = .ok (t, es') →
    0 ∉ t ∧ ((∀ e ∈ es, Clean e.key ∧ Parsed e) → ∀ e ∈ es', Clean e.key ∧ Parsed e)
  /-- The loop of `parseArray` appends trees without a key. -/
  array : ∀ s es t es', 0 ∉ s → parseArray n s es = .ok (t, es') →
    0 ∉ t ∧ ((∀ e ∈ es, e.key = [] ∧ Parsed e) → ∀ e ∈ es', e.key = [] ∧ Parsed e)

theorem ParsedAt.object_succ {n : ℕ} (h : ParsedAt n) (s key t : Bytes) (v : JsonValue)
    (hs : 0 ∉ s) (hok : parseObject (n + 1) s { JsonValue.new with key := key } = .ok (t, v)) :
    0 ∉ t ∧ v.key = key ∧ Parsed v := by
  have hbranch := branch_of_parseObject hok
  have hskip := notMem_skipSpace hs
  generalize skipSpace s = x at hbranch hskip
  cases hbranch with
  | object hp =>
    rw [List.mem_cons, not_or] at hskip
    obtain ⟨ht, hes⟩ := h.hash _ _ _ _ (notMem_skipSpace hskip.2) hp
    have hes := hes nofun
    exact ⟨notMem_skipSpace ht, rfl,
      .hash (fun e he => (hes e he).1) (fun e he => (hes e he).2)⟩
  | array hp =>
    rw [List.mem_cons, not_or] at hskip
    obtain ⟨ht, hes⟩ := h.array _ _ _ _ (notMem_skipSpace hskip.2) hp
    have hes := hes nofun
    exact ⟨notMem_skipSpace ht, rfl,
      .array (fun e he => (hes e he).1) (fun e he => (hes e he).2)⟩
  | string hnot =>
    simp only [List.mem_cons, List.mem_append, not_or] at hskip
    exact ⟨notMem_skipSpace hskip.2.2.2, rfl, .string (clean_skipSpace hnot hskip.2.1)⟩
  | float =>
    rw [List.mem_append, not_or] at hskip
    exact ⟨notMem_skipSpace hskip.2, rfl, .float⟩
  | int _ _ _ hlt =>
    rw [List.mem_append, not_or] at hskip
    exact ⟨notMem_skipSpace hskip.2, rfl, .int hlt⟩
  | litTrue =>
    rw [List.mem_append, not_or] at hskip
    exact ⟨notMem_skipSpace hskip.2, rfl, .bool⟩
  | litFalse =>
    rw [List.mem_append, not_or] at hskip
    exact ⟨notMem_skipSpace hskip.2, rfl, .bool⟩
  | nothing _ hfresh =>
    obtain rfl := hfresh rfl
    exact ⟨hskip, rfl, .null⟩

theorem ParsedAt.hash_succ {n : ℕ} (h : ParsedAt n) (s : Bytes) (es : List JsonValue) (t : Bytes)
    (es' : List JsonValue) (hs : 0 ∉ s) (hok : parseHash (n + 1) s es = .ok (t, es')) :
    0 ∉ t ∧ ((∀ e ∈ es, Clean e.key ∧ Parsed e) → ∀ e ∈ es', Clean e.key ∧ Parsed e) := by
  by_cases hend : peek s = RBRACE
  · rw [parseHash, if_pos hend] at hok
    cases hok
    exact ⟨notMem_skipSpace fun hm => hs (List.mem_of_mem_drop hm), id⟩
  · obtain ⟨key, u₁, w, s₁, t₁, v, rfl, hnot, hw, rfl, ho, hrest⟩ := parseHash_round hend hok
    simp only [List.mem_cons, List.mem_append, not_or] at hs
    obtain ⟨ht₁, hkey, hv⟩ := h.object _ _ _ _ hs.2.2.2.2.2 ho
    have hclean : Clean v.key := hkey ▸ clean_skipSpace hnot hs.2.1
    -- with or without a comma, the loop goes on behind the value
    obtain ⟨u, hu, hnext⟩ : ∃ u, 0 ∉ u ∧ parseHash n u (es ++ [v]) = .ok (t, es') := by
      split_ifs at hrest
      · exact ⟨_, notMem_skipSpace fun hm => ht₁ (List.mem_of_mem_drop hm), hrest⟩
      · exact ⟨_, ht₁, hrest⟩
    obtain ⟨ht, hes⟩ := h.hash _ _ _ _ hu hnext
    refine ⟨ht, fun hall => hes ?_⟩
    exact List.forall_mem_append.mpr ⟨hall, List.forall_mem_singleton.mpr ⟨hclean, hv⟩⟩

theorem ParsedAt.array_succ {n : ℕ} (h : ParsedAt n) (s : Bytes) (es : List JsonValue) (t : Bytes)
    (es' : List JsonValue) (hs : 0 ∉ s) (hok : parseArray (n + 1) s es = .ok (t, es')) :
    0 ∉ t ∧ ((∀ e ∈ es, e.key = [] ∧ Parsed e) → ∀ e ∈ es', e.key = [] ∧ Parsed e) := by
  by_cases hend : peek s = RBRACKET
  · rw [parseArray, if_pos hend] at hok
    cases hok
    exact ⟨notMem_skipSpace fun hm => hs (List.mem_of_mem_drop hm), id⟩
  · rw [parseArray_value es hend] at hok
    obtain ⟨⟨t₁, v⟩, ho, hrest⟩ := bind_eq_ok.mp hok
    obtain ⟨ht₁, hkey, hv⟩ := h.object s [] t₁ v hs ho
    obtain ⟨u, hu, hnext⟩ : ∃ u, 0 ∉ u ∧ parseArray n u (es ++ [v]) = .ok (t, es') := by
      split_ifs at hrest
      · exact ⟨_, notMem_skipSpace fun hm => ht₁ (List.mem_of_mem_drop hm), hrest⟩
      · exact ⟨_, ht₁, hrest⟩
    obtain ⟨ht, hes⟩ := h.array _ _ _ _ hu hnext
    refine ⟨ht, fun hall => hes ?_⟩
    exact List.forall_mem_append.mpr ⟨hall, List.forall_mem_singleton.mpr ⟨hkey, hv⟩⟩

/-- Parsing makes trees, by induction on the number of steps. -/
theorem parsedAt (n : ℕ) : ParsedAt n := by
  induction n with
  | zero =>
    refine ⟨fun s key t v _ h => ?_, fun s es t es' _ h => ?_, fun s es t es' _ h => ?_⟩
    · rw [parseObject] at h; cases h
    · rw [parseHash] at h; cases h
    · rw [parseArray] at h; cases h
  | succ n ih => exact ⟨ih.object_succ, ih.hash_succ, ih.array_succ⟩

/-! ## What is printed -/

/-- No float and no `null` in the tree, and no empty object or array. -/
inductive Solid : JsonValue → Prop
  | intro {v : JsonValue} : v.type ≠ .kFloat → v.type ≠ .kNull →
      (v.type = .kHash ∨ v.type = .kArray → v.elements ≠ []) → (∀ e ∈ v.elements, Solid e) → Solid v

/-- No vector in the tree is longer than an `int` counts. -/
inductive Counted : JsonValue → Prop
  | intro {v : JsonValue} : v.elements.length ≤ 2 ^ 31 → (∀ e ∈ v.elements, Counted e) → Counted v

/-- The line break in front of an element of a value at depth `tabNum`. -/
def newline (tabNum : ℕ) : Space :=
  ⟨LF :: tab tabNum, by
    intro c hc
    rcases List.mem_cons.mp hc with rfl | hc
    · exact .inr (.inr (.inr rfl))
    · exact .inr (.inl (List.eq_of_mem_replicate hc))⟩

theorem tab_succ (tabNum : ℕ) : tab (tabNum + 1) = tab tabNum ++ [TAB] := List.replicate_succ'

section

variable {floatText : Bytes → Bytes}

/-- The document `d` is what is printed of `v`, and the parser reads `v` in it. -/
structure Prints (floatText : Bytes → Bytes) (tabNum : ℕ) (v : JsonValue) (d : Doc) : Prop where
  text : serilizeImpl floatText tabNum v = some d.text
  nullFree : d.NullFree
  tree : d.tree skipSpace v.key = v

/-- The elements of an object are printed as members. -/
theorem exists_members {tabNum : ℕ} {es : List JsonValue} (hne : es ≠ [])
    (hclean : ∀ e ∈ es, Clean e.key) (hes : ∀ e ∈ es, ∃ d, Prints floatText (tabNum + 1) e d) :
    ∃ (members : Members) (body : Bytes), joined (hashParts floatText tabNum es) =
      some (tab (tabNum + 1) ++ body) ∧ members.text = body ++ (newline tabNum).1 ∧
      members.NullFree ∧ members.trees skipSpace = es := by
  induction es with
  | nil => exact absurd rfl hne
  | cons e es ih =>
    rw [List.forall_mem_cons] at hclean hes
    obtain ⟨d, hd⟩ := hes.1
    let key : Chars := ⟨e.key, hclean.1.noQuote, hclean.1.noZero⟩
    have htree : d.tree skipSpace (skipSpace e.key) = e := by
      rw [skipSpace_of_noBlank hclean.1.noBlank, hd.tree]
    rw [hashParts, hd.text, Option.map_some]
    by_cases hlast : es = []
    · subst hlast
      refine ⟨.last key noSpace noSpace d (newline tabNum),
        QUOTE :: (e.key ++ QUOTE :: COLON :: d.text), ?_, ?_, hd.nullFree, ?_⟩
      · rw [hashParts, joined, tab_succ]
        simp
      · simp [Members.text, key, noSpace]
      · rw [Members.trees, htree]
    · obtain ⟨members, body, hbody, htext, hnull, htrees⟩ := ih hlast hclean.2 hes.2
      refine ⟨.cons key noSpace noSpace d noSpace (newline (tabNum + 1)) members,
        QUOTE :: (e.key ++ QUOTE :: COLON ::
          (d.text ++ COMMA :: ((newline (tabNum + 1)).1 ++ body))),
        ?_, ?_, ⟨hd.nullFree, hnull⟩, ?_⟩
      · rw [joined_cons _ (hashParts_ne_nil hlast), hbody, tab_succ]
        simp [newline, tab_succ]
      · simp [Members.text, key, noSpace, htext]
      · rw [Members.trees, htree, htrees]

/-- The elements of an array are printed as items. -/
theorem exists_items {tabNum : ℕ} {es : List JsonValue} (hne : es ≠ [])
    (hkey : ∀ e ∈ es, e.key = []) (hes : ∀ e ∈ es, ∃ d, Prints floatText (tabNum + 1) e d) :
    ∃ (items : Items) (body : Bytes), joined (arrayParts floatText tabNum es) =
      some (tab (tabNum + 1) ++ body) ∧ items.text = body ++ (newline tabNum).1 ∧
      items.NullFree ∧ items.trees skipSpace = es := by
  induction es with
  | nil => exact absurd rfl hne
  | cons e es ih =>
    rw [List.forall_mem_cons] at hkey hes
    obtain ⟨d, hd⟩ := hes.1
    have htree : d.tree skipSpace [] = e := by
      rw [← hkey.1, hd.tree]
    rw [arrayParts, hd.text, Option.map_some]
    by_cases hlast : es = []
    · subst hlast
      refine ⟨.last d (newline tabNum), d.text, ?_, rfl, hd.nullFree, ?_⟩
      · rw [arrayParts, joined, tab_succ]
      · rw [Items.trees, htree]
    · obtain ⟨items, body, hbody, htext, hnull, htrees⟩ := ih hlast hkey.2 hes.2
      refine ⟨.cons d noSpace (newline (tabNum + 1)) items,
        d.text ++ COMMA :: ((newline (tabNum + 1)).1 ++ body), ?_, ?_, ⟨hd.nullFree, hnull⟩, ?_⟩
      · rw [joined_cons _ (arrayParts_ne_nil hlast), hbody, tab_succ]
        simp [newline, tab_succ]
      · simp [Items.text, noSpace, htext]
      · rw [Items.trees, htree, htrees]

/-- A solid tree that the parser made is printed as a document if its indices fit into an `int`, by
induction on the tree. -/
theorem Parsed.exists_prints {v : JsonValue} (hp : Parsed v) (hv : Solid v) (hc : Counted v)
    (tabNum : ℕ) : ∃ d, Prints floatText tabNum v d := by
  induction hp generalizing tabNum with
  | @hash es key hclean _ ih =>
    obtain ⟨-, -, hne, hes⟩ := hv
    obtain ⟨hlen, hcs⟩ := hc
    obtain ⟨members, body, hbody, htext, hnull, htrees⟩ := exists_members (hne (.inl rfl)) hclean
      fun e he => ih e he (hes e he) (hcs e he) (tabNum + 1)
    refine ⟨.object (newline (tabNum + 1)) members, ?_, hnull, ?_⟩
    · rw [serilizeImpl, serilizeLoop_hashParts hlen, hbody]
      simp [Doc.text, htext, newline]
    · rw [Doc.tree, htrees]
  | @array es key hkey _ ih =>
    obtain ⟨-, -, hne, hes⟩ := hv
    obtain ⟨hlen, hcs⟩ := hc
    obtain ⟨items, body, hbody, htext, hnull, htrees⟩ := exists_items (hne (.inr rfl)) hkey
      fun e he => ih e he (hes e he) (hcs e he) (tabNum + 1)
    refine ⟨.array (newline (tabNum + 1)) items, ?_, hnull, ?_⟩
    · rw [serilizeImpl, serilizeLoop_arrayParts hlen, hbody]
      simp [Doc.text, htext, newline]
    · rw [Doc.tree, htrees]
  | @string str key hclean =>
    refine ⟨.string ⟨str, hclean.noQuote, hclean.noZero⟩, ?_, trivial, ?_⟩
    · rw [serilizeImpl]
      rfl
    · rw [Doc.tree, skipSpace_of_noBlank hclean.noBlank]
  | @int n key hlt =>
    refine ⟨.number (digits n hlt), ?_, trivial, ?_⟩
    · rw [serilizeImpl]
      rfl
    · rw [Doc.tree, digits, decimal_toString]
  | float =>
    obtain ⟨hfloat, -⟩ := hv
    exact absurd rfl hfloat
  | @bool b key =>
    refine ⟨.bool b, ?_, trivial, rfl⟩
    cases b <;> rw [serilizeImpl] <;> rfl
  | null =>
    obtain ⟨-, hnull, -⟩ := hv
    exact absurd rfl hnull

/-- **A tree that is printed is counted**, by induction on the tree. -/
theorem Parsed.counted {v : JsonValue} (hp : Parsed v) {tabNum : ℕ} {out : Bytes}
    (h : serilizeImpl floatText tabNum v = some out) : Counted v := by
  induction hp generalizing tabNum out with
  | @hash es key _ _ ih =>
    rw [serilizeImpl] at h
    obtain ⟨body, hbody, -⟩ := Option.map_eq_some_iff.mp h
    rw [hashParts_eq_map] at hbody
    obtain ⟨hlen, hprinted⟩ := printed_of_loop hbody
    refine .intro hlen fun e he => ?_
    obtain ⟨part, hpart⟩ := hprinted e he
    obtain ⟨value, hvalue, -⟩ := Option.map_eq_some_iff.mp hpart
    exact ih e he hvalue
  | @array es key _ _ ih =>
    rw [serilizeImpl] at h
    obtain ⟨body, hbody, -⟩ := Option.map_eq_some_iff.mp h
    rw [arrayParts_eq_map] at hbody
    obtain ⟨hlen, hprinted⟩ := printed_of_loop hbody
    refine .intro hlen fun e he => ?_
    obtain ⟨part, hpart⟩ := hprinted e he
    obtain ⟨value, hvalue, -⟩ := Option.map_eq_some_iff.mp hpart
    exact ih e he hvalue
  | string | int | float | bool | null => exact .intro (Nat.zero_le _) nofun

end

/-- Printing the value and parsing the text into a fresh value gives the same tree, within some
number of steps and every larger one. -/
def ComesBack (floatText : Bytes → Bytes) (v : JsonValue) : Prop :=
  ∃ out : CString, serialize floatText v = some out.1 ∧
    ∃ N, ∀ m, N ≤ m → fromString m .new out = .ok v

/-- **Parsing undoes printing.** Let parsing a text into a fresh value end with a tree without
floats, `null` and empty objects and arrays. Then the tree is printed, what is printed contains no
NUL, and parsing that into a fresh value ends with the same tree, if and only if no object and no
array of the tree has more than `2 ^ 31` elements. -/
theorem comesBack_iff (floatText : Bytes → Bytes) {n : ℕ} {str : CString} {v : JsonValue}
    (hparse : fromString n .new str = .ok v) (hv : Solid v) :
    ComesBack floatText v ↔ Counted v := by
  obtain ⟨⟨t, v⟩, hp, rfl⟩ := map_eq_ok.mp hparse
  obtain ⟨-, hkey, hparsed⟩ := (parsedAt n).object str.1 [] t v str.2 hp
  constructor
  · rintro ⟨out, hout, -⟩
    exact hparsed.counted hout
  · intro hcounted
    obtain ⟨d, hd⟩ : ∃ d, Prints floatText 0 v d := hparsed.exists_prints hv hcounted 0
    refine ⟨document noSpace d noSpace, ?_, ?_⟩
    · rw [serialize, hd.text, document]
      simp [noSpace]
    · obtain ⟨N, hN⟩ := Doc.fromString_document hd.nullFree noSpace noSpace
      rw [← hkey, hd.tree] at hN
      exact ⟨N, hN⟩

/-- The value that the parser makes of an integer in an array. -/
def intItem (n : ℕ) : JsonValue := { JsonValue.new with num := .intNum n, type := .kInt }

theorem solid_intItem (n : ℕ) : Solid (intItem n) := .intro nofun nofun nofun nofun

/-- An array of integers. -/
def intArray (ns : List ℕ) : JsonValue :=
  { JsonValue.new with elements := ns.map intItem, type := .kArray }

theorem solid_intArray {ns : List ℕ} (hne : ns ≠ []) : Solid (intArray ns) :=
  .intro nofun nofun (fun _ => mt List.map_eq_nil_iff.mp hne) fun e he => by
    obtain ⟨n, -, rfl⟩ := List.mem_map.mp he
    exact solid_intItem n

/-- `n + 1` items that are the digit 1. -/
def ones : ℕ → Items
  | 0 => .last (.number (digits 1 (by decide))) noSpace
  | n + 1 => .cons (.number (digits 1 (by decide))) noSpace noSpace (ones n)

theorem nullFree_ones (n : ℕ) : (ones n).NullFree := by
  induction n with
  | zero => trivial
  | succ n ih => exact ⟨trivial, ih⟩

theorem trees_ones (n : ℕ) :
    (ones n).trees skipSpace = (List.replicate (n + 1) 1).map intItem := by
  have hone : (Doc.number (digits 1 (by decide))).tree skipSpace [] = intItem 1 := by
    rw [Doc.tree, digits, decimal_toString]
    rfl
  induction n with
  | zero => rw [ones, Items.trees, hone]; rfl
  | succ n ih =>
    rw [ones, Items.trees, hone, ih]
    rfl

/-- The text `[1,1,...,1]` with `n + 1` numbers. -/
def onesText (n : ℕ) : CString := document noSpace (.array noSpace (ones n)) noSpace

/-- It is parsed. -/
theorem fromString_onesText (n : ℕ) :
    ∃ N, ∀ m, N ≤ m → fromString m .new (onesText n) = .ok (intArray (List.replicate (n + 1) 1)) := by
  obtain ⟨N, hN⟩ := Doc.fromString_document (d := .array noSpace (ones n)) (nullFree_ones n)
    noSpace noSpace
  refine ⟨N, fun m hm => (hN m hm).trans ?_⟩
  rw [Doc.tree, trees_ones]
  rfl

/-- The theorem at work on an array of three numbers. -/
theorem comesBack_iff_ones : ComesBack id (intArray [1, 1, 1]) := by
  obtain ⟨N, hN⟩ := fromString_onesText 2
  refine (comesBack_iff id (hN N le_rfl) (solid_intArray nofun)).mpr ?_
  refine .intro (by decide) fun e he => ?_
  obtain ⟨n, -, rfl⟩ := List.mem_map.mp he
  exact .intro (Nat.zero_le _) nofun

/-- **An array that an `int` does not count**: the index of the loop overflows. -/
theorem not_comesBack_wide : ∃ n v,
    fromString n .new (onesText (2 ^ 31)) = .ok v ∧ Solid v ∧ ¬ ComesBack id v := by
  obtain ⟨N, hN⟩ := fromString_onesText (2 ^ 31)
  refine ⟨N, _, hN N le_rfl, ?_, ?_⟩
  · exact solid_intArray (by rw [List.replicate_succ]; exact List.cons_ne_nil _ _)
  rintro ⟨out, hout, -⟩
  rw [serialize, intArray, JsonValue.new, serilizeImpl] at hout
  obtain ⟨body, hbody, -⟩ := Option.map_eq_some_iff.mp hout
  have hlen := (length_of_loop hbody).2
  rw [arrayParts_eq_map, List.length_map, List.length_map, List.length_replicate] at hlen
  exact absurd hlen (Nat.not_succ_le_self _)

end Json

end Muduo
