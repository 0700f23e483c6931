import Muduo.Json.JsonDocument
import Muduo.Json.JsonPath

/-! # What `get` finds in a text

A client parses a text and asks for values by paths of keys. `Doc.find` follows such a path in the
syntax of the document: the first member with a key, or the item with a number.

**`lookup_fromString`**: `get` finds just this in what the parser has made of the text, for every
path, and null where there is nothing. -/

namespace Muduo

namespace Json

/-! ## Paths in a document -/

/-- The members, each with its key. -/
def Members.list : Members → List (Bytes × Doc)
  | .last key _ _ value _ => [(key.1, value)]
  | .cons key _ _ value _ _ members => (key.1, value) :: members.list

/-- The items. -/
def Items.list : Items → List Doc
  | .last item _ => [item]
  | .cons item _ _ items => item :: items.list

/-- The value under one key, with the key that it has. -/
def Doc.child : Doc → Key → Option (Bytes × Doc)
  | .object _ members, .str key => members.list.find? fun m => m.1 == key
  | .array _ items, .index i => if 0 ≤ i then items.list[i.toNat]?.map fun e => ([], e) else none
  | _, _ => none

/-- The value at the end of a path that begins at `r`. -/
def descend (r : Bytes × Doc) : List Key → Option (Bytes × Doc)
  | [] => some r
  | key :: keys => (r.2.child key).bind fun r => descend r keys

/-- The value at the end of a path. -/
def Doc.find (d : Doc) (keys : List Key) : Option (Bytes × Doc) := descend ([], d) keys

/-- An integer key is a signed number of at most 64 bits. -/
def Key.InRange : Key → Prop
  | .str _ => True
  | .index i => -2 ^ 63 ≤ i ∧ i < 2 ^ 63

/-! ## The trees of members and items -/

@[simp] theorem Doc.key_tree (f : Bytes → Bytes) (key : Bytes) (d : Doc) :
    (d.tree f key).key = key := by
  cases d <;> rfl

theorem Members.trees_eq_map (members : Members) :
    members.trees id = members.list.map fun m => m.2.tree id m.1 := by
  induction members using Members.list.induct with
  | case1 key w₁ w₂ value w₃ => simp [Members.trees, Members.list]
  | case2 key w₁ w₂ value w₃ w₄ members ih => simp [Members.trees, Members.list, ih]

theorem Items.trees_eq_map (items : Items) : items.trees id = items.list.map (Doc.tree id []) := by
  induction items using Items.list.induct with
  | case1 item w => simp [Items.trees, Items.list]
  | case2 item w₁ w₂ items ih => simp [Items.trees, Items.list, ih]

/-! ## Sizes -/

theorem Items.length_list_le (items : Items) : items.list.length ≤ items.text.length + 1 := by
  induction items using Items.list.induct with
  | case1 item w => simp [Items.list]
  | case2 item w₁ w₂ items ih =>
    simp only [Items.list, Items.text, List.length_cons, List.length_append]
    omega

theorem Items.length_text_le {items : Items} {d : Doc} (h : d ∈ items.list) :
    d.text.length ≤ items.text.length := by
  induction items using Items.list.induct with
  | case1 item w =>
    rw [Items.list, List.mem_singleton] at h
    simp [Items.text, h]
  | case2 item w₁ w₂ items ih =>
    rw [Items.list, List.mem_cons] at h
    simp only [Items.text, List.length_cons, List.length_append]
    rcases h with rfl | h
    · omega
    · have := ih h
      omega

theorem Members.length_text_le {members : Members} {m : Bytes × Doc} (h : m ∈ members.list) :
    m.2.text.length ≤ members.text.length := by
  induction members using Members.list.induct with
  | case1 key w₁ w₂ value w₃ =>
    rw [Members.list, List.mem_singleton] at h
    simp only [h, Members.text, List.length_cons, List.length_append]
    omega
  | case2 key w₁ w₂ value w₃ w₄ members ih =>
    rw [Members.list, List.mem_cons] at h
    simp only [Members.text, List.length_cons, List.length_append]
    rcases h with rfl | h
    · show value.text.length ≤ _
      omega
    · have := ih h
      omega

/-- A part is no longer than the whole. -/
theorem Doc.length_text_child_le {d : Doc} {key : Key} {r : Bytes × Doc}
    (h : d.child key = some r) : r.2.text.length ≤ d.text.length := by
  cases d with
  | object w members =>
    cases key with
    | str key =>
      have hle := Members.length_text_le (List.mem_of_find?_eq_some h)
      simp only [Doc.text, List.length_cons, List.length_append]
      omega
    | index i => cases h
  | array w items =>
    cases key with
    | str key => cases h
    | index i =>
      simp only [Doc.child, Option.ite_none_right_eq_some] at h
      obtain ⟨e, he, rfl⟩ := Option.map_eq_some_iff.mp h.2
      have hle := Items.length_text_le (List.mem_of_getElem? he)
      simp only [Doc.text, List.length_cons, List.length_append]
      omega
  | _ => cases h

/-! ## One key -/

/-- `std::find` in the elements that members become. -/
theorem getKey_object {w : Space} {members : Members} {k key : Bytes} :
    (((Doc.object w members).tree id k).getKey (.str key)).map Prod.snd =
      ((Doc.object w members).child (.str key)).map fun r => r.2.tree id r.1 := by
  have hkey : ((fun e : JsonValue => e.key == key) ∘ fun m : Bytes × Doc => m.2.tree id m.1) =
      fun m => m.1 == key := by
    funext m
    simp
  simp only [Doc.tree, JsonValue.getKey, if_true, members.trees_eq_map, Doc.child]
  rw [← hkey, ← List.find?_map, List.find?_eq_bind_findIdx?_getElem?, Option.map_bind]
  congr 1
  funext i
  simp [JsonValue.element, Function.comp_def]

/-- The element with a number. A negative one is a large unsigned number, which no vector reaches. -/
theorem getKey_array {w : Space} {items : Items} {k : Bytes} {i : ℤ} (hi : (Key.index i).InRange)
    (hlen : (Doc.array w items).text.length < 2 ^ 63) :
    (((Doc.array w items).tree id k).getKey (.index i)).map Prod.snd =
      ((Doc.array w items).child (.index i)).map fun r => r.2.tree id r.1 := by
  obtain ⟨hlow, hhigh⟩ := hi
  simp only [Doc.tree, JsonValue.getKey, if_true, items.trees_eq_map, Doc.child, JsonValue.element,
    List.getElem?_map]
  by_cases hneg : 0 ≤ i
  · have hmod : i % 2 ^ 64 = i := Int.emod_eq_of_lt hneg (by omega)
    rw [if_pos hneg, hmod]
    cases items.list[i.toNat]? <;> rfl
  · have hshort := items.length_list_le
    simp only [Doc.text, List.length_cons, List.length_append] at hlen
    have hnone : items.list[(i % 2 ^ 64).toNat]? = none := by
      refine List.getElem?_eq_none ?_
      omega
    rw [if_neg hneg, hnone]
    rfl

/-- **One key** leads to the tree of the value that the document has under it. -/
theorem getKey_tree {d : Doc} {k : Bytes} {key : Key} (hkey : key.InRange)
    (hlen : d.text.length < 2 ^ 63) :
    ((d.tree id k).getKey key).map Prod.snd = (d.child key).map fun r => r.2.tree id r.1 := by
  cases d with
  | object w members =>
    cases key with
    | str key => exact getKey_object
    | index i => rfl
  | array w items =>
    cases key with
    | str key => rfl
    | index i => exact getKey_array hkey hlen
  | emptyObject w => cases key <;> rfl
  | emptyArray w => cases key <;> simp [Doc.tree, JsonValue.getKey, JsonValue.element, Doc.child,
      JsonValue.new]
  | _ => cases key <;> rfl

/-! ## Paths -/

/-- **A path** leads to the tree of the value at its end. -/
theorem lookup_tree {keys : List Key} (hkeys : ∀ key ∈ keys, key.InRange) {d : Doc} {k : Bytes}
    (hlen : d.text.length < 2 ^ 63) :
    (d.tree id k).lookup keys = (descend (k, d) keys).map fun r => r.2.tree id r.1 := by
  induction keys generalizing d k with
  | nil => rfl
  | cons key keys ih =>
    rw [List.forall_mem_cons] at hkeys
    have hone := getKey_tree (k := k) hkeys.1 hlen
    rw [JsonValue.lookup_cons, descend]
    cases hchild : d.child key with
    | none =>
      rw [hchild, Option.map_none, Option.map_eq_none_iff] at hone
      rw [hone]
      rfl
    | some r =>
      rw [hchild, Option.map_some] at hone
      obtain ⟨p, hp, hr⟩ := Option.map_eq_some_iff.mp hone
      rw [hp, Option.bind_some, Option.bind_some, hr]
      exact ih hkeys.2 ((Doc.length_text_child_le hchild).trans_lt hlen)

/-- **`get` finds in a text what its document says.** For every document that the parser understands,
with any white space around it, and every path of string and integer keys: the parser ends with a
value in which `get` finds the first member with the key or the item with the number, and so on to the
end of the path, with all that is below it; and it finds nothing exactly where the document has
nothing. -/
theorem lookup_fromString {d : Doc} (hread : (d = .null ∨ d.NullFree) ∧ ∀ s ∈ d.strings, NoBlank s)
    (hlen : d.text.length < 2 ^ 63) (w w' : Space) :
    ∃ v, (∃ N, ∀ m, N ≤ m → fromString m .new (document w d w') = .ok v) ∧
      ∀ keys : List Key, (∀ key ∈ keys, key.InRange) →
        v.lookup keys = (d.find keys).map fun r => r.2.tree id r.1 := by
  have hdenote : d.denote = d.tree skipSpace [] := by
    rw [Doc.denote, Doc.tree_eq_iff]
    simp only [true_and, id_eq]
    intro s hs
    exact (skipSpace_of_noBlank (hread.2 s hs)).symm
  exact ⟨d.denote, (fromString_document_eq w d w' _).mpr ⟨hread.1, hdenote⟩,
    fun _ hkeys => lookup_tree hkeys hlen⟩

/-- An object with an array in it, and an object in that. -/
def nested : Doc :=
  .object noSpace (.last ⟨ascii "rows", by decide⟩ noSpace noSpace
    (.array noSpace (.cons
      (.number ⟨ascii "1", by decide, List.all_eq_true.mp (by decide), by decide⟩) noSpace noSpace
      (.last (.object noSpace (.last ⟨ascii "id", by decide⟩ noSpace noSpace
        (.string ⟨ascii "x", by decide⟩) noSpace)) noSpace))) noSpace)

example : nested.text = ascii "\x7b\"rows\":[1,\x7b\"id\":\"x\"\x7d]\x7d" := by decide +kernel

/-- The theorem at work. -/
theorem lookup_fromString_nested :
    ∃ v, (∃ N, ∀ m, N ≤ m → fromString m .new (document noSpace nested noSpace) = .ok v) ∧
      (v.lookup [.str (ascii "rows"), .index 1, .str (ascii "id")]).map JsonValue.str =
        some (ascii "x") ∧
      v.lookup [.str (ascii "rows"), .index (-1)] = none := by
  have hread : (nested = .null ∨ nested.NullFree) ∧ ∀ s ∈ nested.strings, NoBlank s := by
    have hall : (nested.strings.all fun s => s.head?.all fun c => !isBlank c) = true := by decide
    refine ⟨.inr ⟨trivial, trivial⟩, fun s hs c hc => ?_⟩
    have hfirst := List.all_eq_true.mp hall s hs
    rw [Option.mem_def.mp hc] at hfirst
    simpa using hfirst
  obtain ⟨v, hv, hlookup⟩ := lookup_fromString hread (by decide) noSpace noSpace
  refine ⟨v, hv, ?_, ?_⟩
  · rw [hlookup _ (by simp [Key.InRange])]
    decide
  · rw [hlookup _ (by simp [Key.InRange])]
    rfl

end Json

end Muduo
