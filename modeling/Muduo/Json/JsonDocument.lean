import Muduo.Json.JsonText

/-! # The documents that the parser understands

`Doc` is the concrete syntax of JSON without escapes, fractions and exponents: objects, arrays,
strings, integers below `2 ^ 63`, `true`, `false` and `null`, with the white space between the
tokens as part of the syntax. Any bytes but the quote and NUL may stand in a string. `text` writes a
document down, and `denote` is the tree it stands for.

The parser fails a document in two ways. It does not consume `null`: an array with one is never
left, and in an object the next key is missing. And it skips blanks behind the opening quote, where
it takes the bytes from 128 on for blanks. `fromString_document_iff` says that nothing else is
wrong: `tree skipSpace` is what the parser makes of a document, `tree id` what the document
denotes. -/

namespace Muduo

namespace Json

/-- The digits of an integer below `2 ^ 63`. -/
abbrev Digits := { d : Bytes // d ≠ [] ∧ (∀ c ∈ d, isdigit c = true) ∧ decimal d < 2 ^ 63 }

mutual

/-- A value. -/
inductive Doc
  | emptyObject (w : Space)
  | object (w : Space) (members : Members)
  | emptyArray (w : Space)
  | array (w : Space) (items : Items)
  | string (s : Chars)
  | number (d : Digits)
  | bool (b : Bool)
  | null

/-- The members of an object that is not empty. White space stands before and behind the colon, and
before and behind the comma. -/
inductive Members
  | last (key : Chars) (w₁ w₂ : Space) (value : Doc) (w₃ : Space)
  | cons (key : Chars) (w₁ w₂ : Space) (value : Doc) (w₃ w₄ : Space) (members : Members)

/-- The items of an array that is not empty. -/
inductive Items
  | last (item : Doc) (w₁ : Space)
  | cons (item : Doc) (w₁ w₂ : Space) (items : Items)

end

/-! ## The text of a document -/

mutual

/-- The text of a value. -/
def Doc.text : Doc → Bytes
  | .emptyObject w => LBRACE :: (w.1 ++ [RBRACE])
  | .object w members => LBRACE :: (w.1 ++ (members.text ++ [RBRACE]))
  | .emptyArray w => LBRACKET :: (w.1 ++ [RBRACKET])
  | .array w items => LBRACKET :: (w.1 ++ (items.text ++ [RBRACKET]))
  | .string s => QUOTE :: (s.1 ++ [QUOTE])
  | .number d => d.1
  | .bool true => ascii "true"
  | .bool false => ascii "false"
  | .null => ascii "null"

/-- The text of members, up to the closing brace. -/
def Members.text : Members → Bytes
  | .last key w₁ w₂ value w₃ =>
    QUOTE :: (key.1 ++ QUOTE :: (w₁.1 ++ COLON :: (w₂.1 ++ (value.text ++ w₃.1))))
  | .cons key w₁ w₂ value w₃ w₄ members =>
    QUOTE :: (key.1 ++ QUOTE :: (w₁.1 ++ COLON :: (w₂.1 ++
      (value.text ++ (w₃.1 ++ COMMA :: (w₄.1 ++ members.text))))))

/-- The text of items, up to the closing bracket. -/
def Items.text : Items → Bytes
  | .last item w₁ => item.text ++ w₁.1
  | .cons item w₁ w₂ items => item.text ++ (w₁.1 ++ COMMA :: (w₂.1 ++ items.text))

end

/-! ## Documents as texts -/

/-- An integer among the numbers. -/
def Digits.number (d : Digits) : Concrete.Number := ⟨false, ⟨d.1, d.2.1, d.2.2.1⟩, none, none⟩

mutual

/-- A value among the texts. -/
def Doc.value : Doc → Concrete.Value
  | .emptyObject w => .emptyObject w
  | .object w members => .object w members.value
  | .emptyArray w => .emptyArray w
  | .array w items => .array w items.value
  | .string s => .string s
  | .number d => .number d.number
  | .bool b => .bool b
  | .null => .null

/-- Members among the texts. -/
def Members.value : Members → Concrete.Members
  | .last key w₁ w₂ value w₃ => .last key w₁ w₂ value.value w₃
  | .cons key w₁ w₂ value w₃ w₄ members => .cons key w₁ w₂ value.value w₃ w₄ members.value

/-- Items among the texts. -/
def Items.value : Items → Concrete.Items
  | .last item w₁ => .last item.value w₁
  | .cons item w₁ w₂ items => .cons item.value w₁ w₂ items.value

end

mutual

theorem Doc.text_value : ∀ d : Doc, d.value.text = d.text
  | .emptyObject w => rfl
  | .object w members => by rw [Doc.value, Concrete.Value.text, members.text_value, Doc.text]
  | .emptyArray w => rfl
  | .array w items => by rw [Doc.value, Concrete.Value.text, items.text_value, Doc.text]
  | .string s => rfl
  | .number d => by
    rw [Doc.value, Doc.text, Concrete.Value.text]
    exact List.append_nil d.1
  | .bool true => rfl
  | .bool false => rfl
  | .null => rfl

theorem Members.text_value : ∀ members : Members, members.value.text = members.text
  | .last key w₁ w₂ value w₃ => by
    rw [Members.value, Concrete.Members.text, value.text_value, Members.text]
  | .cons key w₁ w₂ value w₃ w₄ members => by
    rw [Members.value, Concrete.Members.text, value.text_value, members.text_value, Members.text]

theorem Items.text_value : ∀ items : Items, items.value.text = items.text
  | .last item w₁ => by rw [Items.value, Concrete.Items.text, item.text_value, Items.text]
  | .cons item w₁ w₂ items => by
    rw [Items.value, Concrete.Items.text, item.text_value, items.text_value, Items.text]

end

theorem Doc.zero_notMem_text (d : Doc) : 0 ∉ d.text := d.text_value ▸ d.value.zero_notMem_text

/-- A document with white space around it, as the string that is parsed. -/
def document (w : Space) (d : Doc) (w' : Space) : CString :=
  ⟨w.1 ++ (d.text ++ w'.1), by simp [w.zero_notMem, w'.zero_notMem, d.zero_notMem_text]⟩

example : (document noSpace (.array ⟨[SP], by simp⟩ (.cons (.string ⟨ascii "a", by decide⟩)
    noSpace ⟨[LF], by simp⟩ (.last .null ⟨[TAB], by simp⟩))) ⟨[CR, LF], by simp⟩).1 =
      ascii "[ \"a\",\nnull\t]\r\n" := by decide

/-! ## The tree of a document -/

mutual

/-- The tree of a value under the key `key`, where `f` is what becomes of the characters of a
string. -/
def Doc.tree (f : Bytes → Bytes) (key : Bytes) : Doc → JsonValue
  | .emptyObject _ => { JsonValue.new with key := key, type := .kHash }
  | .object _ members =>
    { JsonValue.new with key := key, elements := members.trees f, type := .kHash }
  | .emptyArray _ => { JsonValue.new with key := key, type := .kArray }
  | .array _ items => { JsonValue.new with key := key, elements := items.trees f, type := .kArray }
  | .string s => { JsonValue.new with key := key, str := f s.1, type := .kString }
  | .number d => { JsonValue.new with key := key, num := .intNum (decimal d.1), type := .kInt }
  | .bool b => { JsonValue.new with key := key, num := .boolNum b, type := .kBool }
  | .null => { JsonValue.new with key := key, type := .kNull }

/-- The trees of members, in their order. -/
def Members.trees (f : Bytes → Bytes) : Members → List JsonValue
  | .last key _ _ value _ => [value.tree f (f key.1)]
  | .cons key _ _ value _ _ members => value.tree f (f key.1) :: members.trees f

/-- The trees of items, in their order; an item has no key. -/
def Items.trees (f : Bytes → Bytes) : Items → List JsonValue
  | .last item _ => [item.tree f []]
  | .cons item _ _ items => item.tree f [] :: items.trees f

end

/-- The tree that a document denotes. -/
def Doc.denote (d : Doc) : JsonValue := d.tree id []

mutual

/-- There is no `null` in the document. -/
def Doc.NullFree : Doc → Prop
  | .object _ members => members.NullFree
  | .array _ items => items.NullFree
  | .null => False
  | _ => True

/-- There is no `null` in the members. -/
def Members.NullFree : Members → Prop
  | .last _ _ _ value _ => value.NullFree
  | .cons _ _ _ value _ _ members => value.NullFree ∧ members.NullFree

/-- There is no `null` in the items. -/
def Items.NullFree : Items → Prop
  | .last item _ => item.NullFree
  | .cons item _ _ items => item.NullFree ∧ items.NullFree

end

mutual

/-- The strings and keys of a document. -/
def Doc.strings : Doc → List Bytes
  | .object _ members => members.strings
  | .array _ items => items.strings
  | .string s => [s.1]
  | _ => []

/-- The strings and keys of members. -/
def Members.strings : Members → List Bytes
  | .last key _ _ value _ => key.1 :: value.strings
  | .cons key _ _ value _ _ members => key.1 :: (value.strings ++ members.strings)

/-- The strings and keys of items. -/
def Items.strings : Items → List Bytes
  | .last item _ => item.strings
  | .cons item _ _ items => item.strings ++ items.strings

end

mutual

/-- Two ways of reading strings give the same tree exactly if they read its strings alike. -/
theorem Doc.tree_eq_iff (f g : Bytes → Bytes) (key key' : Bytes) :
    ∀ d : Doc, d.tree f key = d.tree g key' ↔ key = key' ∧ ∀ s ∈ d.strings, f s = g s
  | .emptyObject _ => by simp [Doc.tree, Doc.strings]
  | .object _ members => by
    simp [Doc.tree, Doc.strings, members.trees_eq_iff f g, and_comm]
  | .emptyArray _ => by simp [Doc.tree, Doc.strings]
  | .array _ items => by
    simp [Doc.tree, Doc.strings, items.trees_eq_iff f g, and_comm]
  | .string _ => by simp [Doc.tree, Doc.strings, and_comm]
  | .number _ => by simp [Doc.tree, Doc.strings]
  | .bool _ => by simp [Doc.tree, Doc.strings]
  | .null => by simp [Doc.tree, Doc.strings]

theorem Members.trees_eq_iff (f g : Bytes → Bytes) :
    ∀ members : Members, members.trees f = members.trees g ↔ ∀ s ∈ members.strings, f s = g s
  | .last key _ _ value _ => by
    simp [Members.trees, Members.strings, value.tree_eq_iff f g]
  | .cons key _ _ value _ _ members => by
    simp [Members.trees, Members.strings, value.tree_eq_iff f g, members.trees_eq_iff f g,
      or_imp, forall_and, and_assoc]

theorem Items.trees_eq_iff (f g : Bytes → Bytes) :
    ∀ items : Items, items.trees f = items.trees g ↔ ∀ s ∈ items.strings, f s = g s
  | .last item _ => by simp [Items.trees, Items.strings, item.tree_eq_iff f g]
  | .cons item _ _ items => by
    simp [Items.trees, Items.strings, item.tree_eq_iff f g, items.trees_eq_iff f g, or_imp,
      forall_and]

end

/-! ## What the parser makes of a document -/

theorem document_eq (w : Space) (d : Doc) (w' : Space) :
    document w d w' = Concrete.document w d.value w' := by
  refine Subtype.ext ?_
  show w.1 ++ (d.text ++ w'.1) = w.1 ++ (d.value.text ++ w'.1)
  rw [d.text_value]

mutual

/-- There are no fractions, so it does not matter what follows. -/
theorem Doc.tree_value (f : Bytes → Bytes) (t key : Bytes) :
    ∀ d : Doc, d.value.tree f t { JsonValue.new with key := key } = d.tree f key
  | .emptyObject _ => rfl
  | .object _ members => by
    rw [Doc.value, Concrete.Value.tree, members.trees_value f, Doc.tree]
  | .emptyArray _ => rfl
  | .array _ items => by rw [Doc.value, Concrete.Value.tree, items.trees_value f, Doc.tree]
  | .string _ => rfl
  | .number _ => rfl
  | .bool _ => rfl
  | .null => rfl

theorem Members.trees_value (f : Bytes → Bytes) (t : Bytes) :
    ∀ members : Members, members.value.trees f t = members.trees f
  | .last key _ _ value _ => by
    rw [Members.value, Concrete.Members.trees, value.tree_value f, Members.trees]
  | .cons key _ _ value _ _ members => by
    rw [Members.value, Concrete.Members.trees, value.tree_value f, members.trees_value f,
      Members.trees]

theorem Items.trees_value (f : Bytes → Bytes) (t : Bytes) :
    ∀ items : Items, items.value.trees f t = items.trees f
  | .last item _ => by
    rw [Items.value, Concrete.Items.trees, Items.trees]
    exact congrArg (fun v => [v]) (item.tree_value f _ [])
  | .cons item _ _ items => by
    rw [Items.value, Concrete.Items.trees, items.trees_value f, Items.trees]
    exact congrArg (fun v => v :: items.trees f) (item.tree_value f _ [])

end

mutual

/-- The integers fit, so only `null` is not consumed. -/
theorem Doc.consumed_value : ∀ d : Doc, d.value.Consumed ↔ d.NullFree
  | .emptyObject _ => Iff.rfl
  | .object _ members => members.consumed_value
  | .emptyArray _ => Iff.rfl
  | .array _ items => items.consumed_value
  | .string _ => Iff.rfl
  | .number d => iff_of_true ⟨rfl, rfl, .inr (.inr d.2.2.2)⟩ trivial
  | .bool _ => Iff.rfl
  | .null => Iff.rfl

theorem Members.consumed_value : ∀ members : Members, members.value.Consumed ↔ members.NullFree
  | .last _ _ _ value _ => value.consumed_value
  | .cons _ _ _ value _ _ members => and_congr value.consumed_value members.consumed_value

theorem Items.consumed_value : ∀ items : Items, items.value.Consumed ↔ items.NullFree
  | .last item _ => item.consumed_value
  | .cons item _ _ items => and_congr item.consumed_value items.consumed_value

end

theorem Doc.returns_value (d : Doc) : d.value.Returns ↔ d = .null ∨ d.NullFree := by
  rw [← d.consumed_value]
  cases d with
  | number d => exact iff_of_true (.inr (.inr d.2.2.2)) (.inr ⟨rfl, rfl, .inr (.inr d.2.2.2)⟩)
  | null => exact iff_of_true trivial (.inl rfl)
  | _ => exact (or_iff_right nofun).symm

/-- The documents that are read, and what they are read as. -/
theorem fromString_document_eq (w : Space) (d : Doc) (w' : Space) (r : JsonValue) :
    (∃ N, ∀ m, N ≤ m → fromString m .new (document w d w') = .ok r) ↔
      (d = .null ∨ d.NullFree) ∧ r = d.tree skipSpace [] := by
  rw [document_eq, Concrete.fromString_iff, d.returns_value]
  exact and_congr_right fun _ => (d.tree_value skipSpace w'.1 []) ▸ Iff.rfl

/-! ## The documents that are understood -/

/-- The text of a null-free document is read as its tree without the blanks. -/
theorem Doc.fromString_document {d : Doc} (hd : d.NullFree) (w w' : Space) :
    ∃ N, ∀ m, N ≤ m → fromString m .new (document w d w') = .ok (d.tree skipSpace []) :=
  (fromString_document_eq w d w' _).mpr ⟨.inr hd, rfl⟩

/-- **The documents that the parser understands.** For every document with any white space around
it: parsing it into a fresh value ends with the tree that it denotes, within some number of steps
and every larger one, if and only if no `null` stands inside an object or an array and no string and
no key begins with a blank. -/
theorem fromString_document_iff (w : Space) (d : Doc) (w' : Space) :
    (∃ N, ∀ m, N ≤ m → fromString m .new (document w d w') = .ok d.denote) ↔
      (d = .null ∨ d.NullFree) ∧ ∀ s ∈ d.strings, NoBlank s := by
  have hstrings : d.denote = d.tree skipSpace [] ↔ ∀ s ∈ d.strings, NoBlank s := by
    rw [Doc.denote, Doc.tree_eq_iff]
    simp only [true_and, id_eq]
    exact forall₂_congr fun s _ =>
      ⟨fun h => h ▸ noBlank_skipSpace s, fun h => (skipSpace_of_noBlank h).symm⟩
  rw [fromString_document_eq, hstrings]

/-- **An array with `null` in it**: the parser never leaves it. -/
theorem not_fromString_document : ¬∀ (w : Space) (d : Doc) (w' : Space),
    ∃ N, ∀ m, N ≤ m → fromString m .new (document w d w') = .ok d.denote := by
  intro hall
  have hread := hall noSpace (.array noSpace (.last .null noSpace)) noSpace
  obtain ⟨h | h, -⟩ := (fromString_document_eq _ _ _ _).mp hread
  · cases h
  · exact h

end Json

end Muduo
