import Muduo.Json.JsonText

/-! # `fromFile`

The file is copied through `std::istream_iterator<char>`, which reads with `>>` and so skips the
white space in front of every character. `fromFile_document` says that a JSON text is read as the
text without any white space, in its strings and keys too.

**`sameTree_iff`**: the tree is the one that `fromString` makes of the contents exactly if no string
and no key has white space behind its leading blanks, which `parseString` skips anyway. -/

namespace Muduo

namespace Json

/-! ## The code -/

/-- `isspace(c)` in the C locale. -/
def isspace (c : UInt8) : Bool := c == SP || (TAB ≤ c && c ≤ CR)

/-- `stream >> c` on a stream of characters: the character and what is left, if there is one. -/
def extract (stream : Bytes) : Option (UInt8 × Bytes) :=
  match stream.dropWhile isspace with
  | [] => none
  | c :: rest => some (c, rest)

theorem length_of_extract {stream rest : Bytes} {c : UInt8} (h : extract stream = some (c, rest)) :
    rest.length < stream.length := by
  have hle : (stream.dropWhile isspace).length ≤ stream.length :=
    (List.dropWhile_suffix isspace).length_le
  rw [extract] at h
  split at h
  · cases h
  · next heq =>
    cases h
    rw [heq, List.length_cons] at hle
    omega

/-- `std::copy` from `std::istream_iterator<char>` to the end of the stream. -/
def copy (stream : Bytes) : Bytes :=
  match _h : extract stream with
  | none => []
  | some (c, rest) => c :: copy rest
termination_by stream.length
decreasing_by exact length_of_extract _h

/-- What `c_str()` points to. -/
def CString.ofBytes (s : Bytes) : CString :=
  ⟨s.takeWhile (· ≠ 0), fun h => absurd (List.mem_takeWhile_imp h) (by decide)⟩

/-- `fromFile(fname)` on the value `v`, within `n` steps, for a file with these contents. -/
def fromFile (n : ℕ) (v : JsonValue) (contents : Bytes) : Except Fault JsonValue :=
  fromString n v (CString.ofBytes (copy contents))

/-! ## Trees with doubles -/

/-- A number as it is stored: `strtod` gives the bytes of the `double` that is read from a text. -/
def Num.stored (strtod : Bytes → Bytes) : Num → Num
  | .floatNum text => .floatNum (strtod text)
  | num => num

mutual

/-- A tree with its doubles as they are stored. -/
def JsonValue.stored (strtod : Bytes → Bytes) : JsonValue → JsonValue
  | ⟨elements, str, key, num, type⟩ =>
    ⟨storedList strtod elements, str, key, num.stored strtod, type⟩

/-- Trees with their doubles as they are stored. -/
def storedList (strtod : Bytes → Bytes) : List JsonValue → List JsonValue
  | [] => []
  | v :: vs => v.stored strtod :: storedList strtod vs

end

/-- On the file with these contents `fromFile` ends with the tree with which `fromString` ends on
the contents, both within some number of steps and every larger one. -/
def SameTree (strtod : Bytes → Bytes) (o : JsonValue) (contents : CString) : Prop :=
  ∃ N r r', (∀ n, N ≤ n → fromString n o contents = .ok r ∧ fromFile n o contents.1 = .ok r') ∧
    r.stored strtod = r'.stored strtod

/-! ## What is copied -/

/-- What is left of a stream without its white space, and of one that `>>` is used on. -/
theorem filter_dropWhile_isspace (stream : Bytes) :
    (stream.dropWhile isspace).filter (fun c => !isspace c) =
      stream.filter fun c => !isspace c := by
  induction stream with
  | nil => rfl
  | cons c stream ih =>
    by_cases hc : isspace c = true
    · rw [List.dropWhile_cons_of_pos hc, ih, List.filter_cons_of_neg (by simp [hc])]
    · rw [List.dropWhile_cons_of_neg hc]

/-- The copy is the stream without its white space. -/
theorem copy_eq_filter (stream : Bytes) : copy stream = stream.filter fun c => !isspace c := by
  induction hn : stream.length using Nat.strong_induction_on generalizing stream with
  | _ n ih =>
    rw [copy, ← filter_dropWhile_isspace]
    split
    · next h =>
      rw [extract] at h
      split at h
      · next hdrop => rw [hdrop]; rfl
      · cases h
    · next c rest h =>
      have hlt := length_of_extract h
      rw [extract] at h
      split at h
      · cases h
      · next hdrop =>
        cases h
        have hc : isspace c = false := by
          have hhead := List.head?_dropWhile_not isspace stream
          rw [hdrop] at hhead
          exact hhead
        rw [hdrop, List.filter_cons_of_pos (by simp [hc]), ih rest.length (by omega) rest rfl]

/-- The text of a document has no NUL. -/
theorem CString.ofBytes_of_zero_notMem {s : Bytes} (h : 0 ∉ s) : (CString.ofBytes s).1 = s := by
  refine List.takeWhile_eq_self_iff.mpr fun c hc => ?_
  rw [decide_eq_true_eq]
  rintro rfl
  exact h hc

/-! ## A text without white space -/

namespace Concrete

/-- The characters that are copied. -/
def squeeze (s : Bytes) : Bytes := s.filter fun c => !isspace c

/-- A string without its white space. -/
def compact (s : Chars) : Chars :=
  ⟨squeeze s.1, fun h => s.2.1 (List.mem_filter.mp h).1, fun h => s.2.2 (List.mem_filter.mp h).1⟩

mutual

/-- A value without any white space. -/
def Value.compact : Value → Value
  | .emptyObject _ => .emptyObject noSpace
  | .object _ members => .object noSpace members.compact
  | .emptyArray _ => .emptyArray noSpace
  | .array _ items => .array noSpace items.compact
  | .string s => .string (Concrete.compact s)
  | v => v

/-- Members without any white space. -/
def Members.compact : Members → Members
  | .last key _ _ value _ => .last (Concrete.compact key) noSpace noSpace value.compact noSpace
  | .cons key _ _ value _ _ members =>
    .cons (Concrete.compact key) noSpace noSpace value.compact noSpace noSpace members.compact

/-- Items without any white space. -/
def Items.compact : Items → Items
  | .last item _ => .last item.compact noSpace
  | .cons item _ _ items => .cons item.compact noSpace noSpace items.compact

end

theorem squeeze_append (s t : Bytes) : squeeze (s ++ t) = squeeze s ++ squeeze t :=
  List.filter_append ..

theorem squeeze_cons {c : UInt8} (hc : isspace c = false) (s : Bytes) :
    squeeze (c :: s) = c :: squeeze s :=
  List.filter_cons_of_pos (by simp [hc])

theorem squeeze_nil : squeeze [] = [] := rfl

theorem squeeze_space (w : Space) : squeeze w.1 = [] := by
  refine List.filter_eq_nil_iff.mpr fun c hc => ?_
  rcases w.2 c hc with rfl | rfl | rfl | rfl <;> decide

theorem isspace_of_lt {c : UInt8} (hc : 32 < c) : isspace c = false := by
  have hlt : 32 < c.toNat := UInt8.lt_iff_toNat_lt.mp hc
  rw [isspace, Bool.or_eq_false_iff, Bool.and_eq_false_iff, beq_eq_false_iff_ne]
  refine ⟨?_, .inr (decide_eq_false fun hle => ?_)⟩
  · rintro rfl
    exact absurd hlt (by decide)
  · have hle' : c.toNat ≤ 13 := UInt8.le_iff_toNat_le.mp hle
    omega

/-- There is no white space in a number. -/
theorem squeeze_number (k : Number) : squeeze k.text = k.text :=
  List.filter_eq_self.mpr fun c hc => by rw [isspace_of_lt (k.lt_of_mem hc)]; rfl

mutual

/-- What is copied of a value. -/
theorem Value.squeeze_text : ∀ v : Value, squeeze v.text = v.compact.text
  | .emptyObject w => by
    simp (disch := decide) only [Value.text, Value.compact, squeeze_cons, squeeze_append,
      squeeze_space, squeeze_nil, noSpace]
  | .object w members => by
    simp (disch := decide) only [Value.text, Value.compact, squeeze_cons, squeeze_append,
      squeeze_space, squeeze_nil, noSpace, members.squeeze_text]
  | .emptyArray w => by
    simp (disch := decide) only [Value.text, Value.compact, squeeze_cons, squeeze_append,
      squeeze_space, squeeze_nil, noSpace]
  | .array w items => by
    simp (disch := decide) only [Value.text, Value.compact, squeeze_cons, squeeze_append,
      squeeze_space, squeeze_nil, noSpace, items.squeeze_text]
  | .string s => by
    simp (disch := decide) only [Value.text, Value.compact, squeeze_cons, squeeze_append,
      squeeze_nil, Concrete.compact]
  | .number k => squeeze_number k
  | .bool true => by decide
  | .bool false => by decide
  | .null => by decide

theorem Members.squeeze_text : ∀ members : Members, squeeze members.text = members.compact.text
  | .last key w₁ w₂ value w₃ => by
    simp (disch := decide) only [Members.text, Members.compact, squeeze_cons, squeeze_append,
      squeeze_space, noSpace, value.squeeze_text, Concrete.compact, List.nil_append,
      List.append_nil]
  | .cons key w₁ w₂ value w₃ w₄ members => by
    simp (disch := decide) only [Members.text, Members.compact, squeeze_cons, squeeze_append,
      squeeze_space, noSpace, value.squeeze_text, members.squeeze_text, Concrete.compact,
      List.nil_append]

theorem Items.squeeze_text : ∀ items : Items, squeeze items.text = items.compact.text
  | .last item w₁ => by
    simp only [Items.text, Items.compact, squeeze_append, squeeze_space, noSpace,
      item.squeeze_text]
  | .cons item w₁ w₂ items => by
    simp (disch := decide) only [Items.text, Items.compact, squeeze_cons, squeeze_append,
      squeeze_space, noSpace, item.squeeze_text, items.squeeze_text, List.nil_append]

end

/-- **What is read of a file** with a JSON text is the text without any white space. -/
theorem fromFile_document (n : ℕ) (o : JsonValue) (w : Space) (v : Value) (w' : Space) :
    fromFile n o (document w v w').1 = fromString n o (document noSpace v.compact noSpace) := by
  have htext : copy (document w v w').1 = (document noSpace v.compact noSpace).1 := by
    rw [copy_eq_filter]
    show squeeze (w.1 ++ (v.text ++ w'.1)) = [] ++ (v.compact.text ++ [])
    rw [squeeze_append, squeeze_append, squeeze_space, squeeze_space, v.squeeze_text]
  refine congrArg (fromString n o) (Subtype.ext ?_)
  rw [CString.ofBytes_of_zero_notMem (htext ▸ (document noSpace v.compact noSpace).2), htext]

/-! ## When it is read -/

mutual

theorem Value.consumed_compact : ∀ v : Value, v.compact.Consumed ↔ v.Consumed
  | .emptyObject _ => Iff.rfl
  | .object _ members => members.consumed_compact
  | .emptyArray _ => Iff.rfl
  | .array _ items => items.consumed_compact
  | .string _ => Iff.rfl
  | .number _ => Iff.rfl
  | .bool _ => Iff.rfl
  | .null => Iff.rfl

theorem Members.consumed_compact : ∀ members : Members, members.compact.Consumed ↔ members.Consumed
  | .last _ _ _ value _ => value.consumed_compact
  | .cons _ _ _ value _ _ members => and_congr value.consumed_compact members.consumed_compact

theorem Items.consumed_compact : ∀ items : Items, items.compact.Consumed ↔ items.Consumed
  | .last item _ => item.consumed_compact
  | .cons item _ _ items => and_congr item.consumed_compact items.consumed_compact

end

/-- White space has no part in whether the parser returns. -/
theorem Value.returns_compact (v : Value) : v.compact.Returns ↔ v.Returns := by
  cases v with
  | object _ members => exact members.consumed_compact
  | array _ items => exact items.consumed_compact
  | _ => exact Iff.rfl

/-! ## When the trees are the same -/

/-- White space stands at the front of the text only, among blanks. -/
def Tight (s : Bytes) : Prop := ∃ w u, s = w ++ u ∧ Blank w ∧ ∀ c ∈ u, isspace c = false

theorem isBlank_of_isspace {c : UInt8} (h : isspace c = true) : isBlank c = true := by
  rw [isspace, Bool.or_eq_true, Bool.and_eq_true, beq_iff_eq, decide_eq_true_eq,
    decide_eq_true_eq] at h
  rcases h with rfl | ⟨hlo, hhi⟩
  · decide
  · have hlo' : 9 ≤ c.toNat := UInt8.le_iff_toNat_le.mp hlo
    have hhi' : c.toNat ≤ 13 := UInt8.le_iff_toNat_le.mp hhi
    have hle : c ≤ 32 := UInt8.le_iff_toNat_le.mpr (le_trans hhi' (by decide))
    have hne : c ≠ 0 := by
      rintro rfl
      exact absurd hlo' (by decide)
    simp [isBlank, hne, hle]

/-- Without white space a string is read as with it, if there is none behind the leading blanks. -/
theorem skipSpace_squeeze_iff (s : Bytes) : skipSpace s = skipSpace (squeeze s) ↔ Tight s := by
  -- what is left behind the leading blanks loses its white space
  have hsqueeze : skipSpace (squeeze s) = squeeze (skipSpace s) := by
    obtain ⟨w, hw, hs⟩ := exists_blank s
    have hblank : Blank (squeeze w) := fun c hc => hw c (List.mem_filter.mp hc).1
    have hhead : NoBlank (squeeze (skipSpace s)) := by
      cases hu : skipSpace s with
      | nil => nofun
      | cons c u =>
        have hc : isBlank c = false := noBlank_skipSpace s c (by rw [hu]; rfl)
        have hspace : isspace c = false := by
          by_contra h
          rw [isBlank_of_isspace (by simpa using h)] at hc
          cases hc
        rw [squeeze_cons hspace]
        exact noBlank_cons hc _
    rw [hs, squeeze_append, skipSpace_append hblank, ← hs, skipSpace_of_noBlank hhead]
  rw [hsqueeze, eq_comm, squeeze, List.filter_eq_self]
  simp only [Bool.not_eq_eq_eq_not]
  constructor
  · intro h
    obtain ⟨w, hw, hs⟩ := exists_blank s
    exact ⟨w, skipSpace s, hs, hw, by simpa using h⟩
  · rintro ⟨w, u, rfl, hw, hu⟩ c hc
    rw [skipSpace_append hw] at hc
    simpa using hu c ((List.dropWhile_sublist _).subset hc)

/-- `std::strtod` reads a number up to its end: a character that ends a number in a JSON text is not
part of the text of any `double`. -/
def ReadsNumbers (strtod : Bytes → Bytes) : Prop :=
  ∀ (k : Number) (t : Bytes), k.minus = false → k.frac.isSome → Delimited t →
    strtod (k.text ++ t) = strtod k.text

section

variable {strtod : Bytes → Bytes} {t t' : Bytes}

/-- What is stored of a number does not depend on what follows. -/
theorem Number.stored_store (hstrtod : ReadsNumbers strtod) (k : Number) (ht : Delimited t)
    (ht' : Delimited t') (o : JsonValue) (key key' : Bytes) :
    (k.store t { o with key := key }).stored strtod =
      (k.store t' { o with key := key' }).stored strtod ↔ key = key' := by
  obtain ⟨elements, str, key₀, num, type⟩ := o
  simp only [Number.store]
  cases hm : k.minus with
  | true => simp [JsonValue.stored]
  | false =>
    cases hfrac : k.frac.isSome with
    | false => simp [JsonValue.stored]
    | true =>
      have h := (hstrtod k t hm hfrac ht).trans (hstrtod k t' hm hfrac ht').symm
      simp [JsonValue.stored, Num.stored, h]

mutual

/-- The two trees of a value are the same if its strings and keys are read alike. -/
theorem Value.stored_tree_iff (hstrtod : ReadsNumbers strtod) (o : JsonValue) :
    ∀ (v : Value) {t t' : Bytes} (_ : Delimited t) (_ : Delimited t') (key key' : Bytes),
      (v.tree skipSpace t { o with key := key }).stored strtod =
        (v.compact.tree skipSpace t' { o with key := key' }).stored strtod ↔
        key = key' ∧ ∀ s ∈ v.strings, Tight s
  | .emptyObject _, t, t', _, _, key, key' => by
    simp [Value.compact, Value.tree, Value.strings, JsonValue.stored]
  | .object _ members, t, t', ht, ht', key, key' => by
    simp [Value.compact, Value.tree, Value.strings, JsonValue.stored,
      members.stored_trees_iff hstrtod (delimited_cons (.inr (.inl rfl)) t)
        (delimited_cons (.inr (.inl rfl)) t'), and_comm]
  | .emptyArray _, t, t', _, _, key, key' => by
    simp [Value.compact, Value.tree, Value.strings, JsonValue.stored]
  | .array _ items, t, t', ht, ht', key, key' => by
    simp [Value.compact, Value.tree, Value.strings, JsonValue.stored,
      items.stored_trees_iff hstrtod (delimited_cons (.inr (.inr rfl)) t)
        (delimited_cons (.inr (.inr rfl)) t'), and_comm]
  | .string s, t, t', _, _, key, key' => by
    simp [Value.compact, Value.tree, Value.strings, JsonValue.stored, Concrete.compact,
      skipSpace_squeeze_iff, and_comm]
  | .number k, t, t', ht, ht', key, key' => by
    simp [Value.compact, Value.tree, Value.strings, k.stored_store hstrtod ht ht']
  | .bool _, t, t', _, _, key, key' => by
    simp [Value.compact, Value.tree, Value.strings, JsonValue.stored]
  | .null, t, t', _, _, key, key' => by
    simp [Value.compact, Value.tree, Value.strings, JsonValue.stored]

theorem Members.stored_trees_iff (hstrtod : ReadsNumbers strtod) :
    ∀ (members : Members) {t t' : Bytes} (_ : Delimited t) (_ : Delimited t'),
      storedList strtod (members.trees skipSpace t) =
        storedList strtod (members.compact.trees skipSpace t') ↔ ∀ s ∈ members.strings, Tight s
  | .last key _ _ value w₃, t, t', ht, ht' => by
    simp [Members.compact, Members.trees, Members.strings, storedList, Concrete.compact,
      value.stored_tree_iff hstrtod _ (delimited_append w₃ ht) (delimited_append noSpace ht'),
      skipSpace_squeeze_iff]
  | .cons key _ _ value w₃ w₄ members, t, t', ht, ht' => by
    simp [Members.compact, Members.trees, Members.strings, storedList, Concrete.compact,
      value.stored_tree_iff hstrtod _ (delimited_append w₃ (delimited_cons (.inl rfl) _))
        (delimited_append noSpace (delimited_cons (.inl rfl) _)),
      members.stored_trees_iff hstrtod ht ht', skipSpace_squeeze_iff, or_imp, forall_and,
      and_assoc]

theorem Items.stored_trees_iff (hstrtod : ReadsNumbers strtod) :
    ∀ (items : Items) {t t' : Bytes} (_ : Delimited t) (_ : Delimited t'),
      storedList strtod (items.trees skipSpace t) =
        storedList strtod (items.compact.trees skipSpace t') ↔ ∀ s ∈ items.strings, Tight s
  | .last item w₁, t, t', ht, ht' => by
    have h : (item.tree skipSpace (w₁.1 ++ t) .new).stored strtod =
        (item.compact.tree skipSpace (noSpace.1 ++ t') .new).stored strtod ↔
          ∀ s ∈ item.strings, Tight s :=
      (item.stored_tree_iff hstrtod .new (delimited_append w₁ ht) (delimited_append noSpace ht')
        [] []).trans (and_iff_right rfl)
    simp [Items.compact, Items.trees, Items.strings, storedList, h]
  | .cons item w₁ w₂ items, t, t', ht, ht' => by
    have h : (item.tree skipSpace (w₁.1 ++ COMMA :: (w₂.1 ++ (items.text ++ t))) .new).stored
        strtod = (item.compact.tree skipSpace
          (noSpace.1 ++ COMMA :: (noSpace.1 ++ (items.compact.text ++ t'))) .new).stored strtod ↔
          ∀ s ∈ item.strings, Tight s :=
      (item.stored_tree_iff hstrtod .new (delimited_append w₁ (delimited_cons (.inl rfl) _))
        (delimited_append noSpace (delimited_cons (.inl rfl) _)) [] []).trans (and_iff_right rfl)
    simp [Items.compact, Items.trees, Items.strings, storedList, h,
      items.stored_trees_iff hstrtod ht ht', or_imp, forall_and]

end

/-- The two trees that are read into one value. -/
theorem Value.stored_tree_eq_iff (hstrtod : ReadsNumbers strtod) (v : Value) (ht : Delimited t)
    (ht' : Delimited t') (o : JsonValue) :
    (v.tree skipSpace t o).stored strtod = (v.compact.tree skipSpace t' o).stored strtod ↔
      ∀ s ∈ v.strings, Tight s := by
  cases o with
  | mk elements str key num type =>
    exact (v.stored_tree_iff hstrtod ⟨elements, str, key, num, type⟩ ht ht' key key).trans
      (and_iff_right rfl)

end

/-- **When `fromFile` agrees with `fromString`.** For every JSON text without escapes on which
`fromString` returns, and every value that it is read into: reading a file with the text gives the
same tree, if and only if no string and no key has white space behind its leading blanks. -/
theorem sameTree_iff {strtod : Bytes → Bytes} (hstrtod : ReadsNumbers strtod) {w : Space}
    {v : Value} {w' : Space} {o : JsonValue}
    (hreturns : ∃ n r, fromString n o (document w v w') = .ok r) :
    SameTree strtod o (document w v w') ↔ ∀ s ∈ v.strings, Tight s := by
  have hfile (N : ℕ) (r' : JsonValue)
      (h : ∀ n, N ≤ n → fromFile n o (document w v w').1 = .ok r') :
      r' = v.compact.tree skipSpace noSpace.1 o :=
    ((fromString_iff noSpace v.compact noSpace o r').mp
      ⟨N, fun n hn => (fromFile_document ..).symm.trans (h n hn)⟩).2
  constructor
  · rintro ⟨N, r, r', h, heq⟩
    obtain ⟨-, rfl⟩ := (fromString_iff w v w' o r).mp ⟨N, fun n hn => (h n hn).1⟩
    obtain rfl := hfile N r' fun n hn => (h n hn).2
    exact (v.stored_tree_eq_iff hstrtod (delimited_space w') (delimited_space noSpace) o).mp heq
  · intro hs
    obtain ⟨n, r, hr⟩ := hreturns
    obtain ⟨hv, -⟩ := (fromString_iff w v w' o r).mp
      ⟨n, fun m hm => (fromString_mono hm (by rw [hr]; nofun)).trans hr⟩
    obtain ⟨N, hN⟩ := (fromString_iff w v w' o _).mpr ⟨hv, rfl⟩
    obtain ⟨M, hM⟩ := (fromString_iff noSpace v.compact noSpace o _).mpr
      ⟨v.returns_compact.mpr hv, rfl⟩
    have heq :=
      (v.stored_tree_eq_iff hstrtod (delimited_space w') (delimited_space noSpace) o).mpr hs
    refine ⟨max N M, _, _, fun n hn => ⟨hN n (le_trans (le_max_left N M) hn), ?_⟩, heq⟩
    exact (fromFile_document ..).trans (hM n (le_trans (le_max_right N M) hn))

/-- An array with `0.5` and `"a"`. -/
def halfArray : Value :=
  let zero : Digits := ⟨ascii "0", by decide, List.all_eq_true.mp (by decide)⟩
  let five : Digits := ⟨ascii "5", by decide, List.all_eq_true.mp (by decide)⟩
  let space : Space := ⟨[SP], List.forall_mem_singleton.mpr (.inl rfl)⟩
  .array noSpace (.cons (.number ⟨false, zero, some five, none⟩) noSpace space
    (.last (.string ⟨ascii "a", by decide⟩) noSpace))

/-- The theorem at work on the array, where `std::strtod` reads the `double` 0.5. -/
theorem sameTree_iff_halfArray :
    SameTree (fun _ => [0, 0, 0, 0, 0, 0, 224, 63]) .new (document noSpace halfArray noSpace) := by
  have hconsumed : halfArray.Consumed := ⟨⟨rfl, rfl, .inr (.inl rfl)⟩, trivial⟩
  obtain ⟨N, hN⟩ := (fromString_iff noSpace halfArray noSpace .new _).mpr ⟨hconsumed, rfl⟩
  refine (sameTree_iff (fun _ _ _ _ _ => rfl) ⟨N, _, hN N le_rfl⟩).mpr ?_
  exact List.forall_mem_singleton.mpr ⟨[], ascii "a", rfl, List.forall_mem_nil _, by decide +kernel⟩

/-- A string with a space in it. -/
def spaced : Value := .string ⟨ascii "a b", by decide⟩

/-- **A space in a string** is lost on the way through the file. -/
theorem not_sameTree_spaced :
    (∃ v, fromString 1 .new (document noSpace spaced noSpace) = .ok v ∧ v.str = ascii "a b") ∧
      (∃ v, fromFile 1 .new (document noSpace spaced noSpace).1 = .ok v ∧ v.str = ascii "ab") ∧
      ∀ strtod, ¬ SameTree strtod .new (document noSpace spaced noSpace) := by
  refine ⟨⟨_, rfl, rfl⟩, ⟨_, fromFile_document .., rfl⟩, ?_⟩
  rintro strtod ⟨N, r, r', h, heq⟩
  obtain ⟨-, rfl⟩ := (fromString_iff _ _ _ _ r).mp ⟨N, fun n hn => (h n hn).1⟩
  obtain ⟨-, rfl⟩ := (fromString_iff noSpace spaced.compact noSpace .new r').mp
    ⟨N, fun n hn => (fromFile_document ..).symm.trans (h n hn).2⟩
  have hstr : ascii "a b" = ascii "ab" := congrArg JsonValue.str heq
  exact absurd hstr (by decide)

end Concrete

end Json

end Muduo
