import Muduo.Json.JsonPrint

/-! # `get` and `insert`

Nodes under a path of keys. A pointer to a node is the list of places in `elements_` on the way to
it from the value that `get` or `insert` is called on; `none` is the null pointer. `getKeys` takes
strings and integers for keys. A path of `insert` has strings only: with an integer in it, `set`
copies a `std::unique_ptr` and does not compile. The value is passed as a copy: `set` clears the
elements of a node before it assigns, so the argument must not refer into that node.

Where the next key is missing, `set` clears the elements before it appends the new one. So `insert`
treats a value as a map of paths as long as it meets no object that has elements but not the next
key, `actsAsMap_iff`. -/

namespace Muduo

namespace Json

/-- A key of `get`. -/
inductive Key
  | str (key : Bytes)
  | index (key : ℤ)

/-- A value of one of the types that `insert` supports. -/
inductive Val
  | int (n : ℤ)
  | float (text : Bytes)
  | string (s : Bytes)
  | bool (b : Bool)

namespace JsonValue

/-! ## The code -/

/-- The element at a place, with the place. -/
def element (v : JsonValue) (i : ℕ) : Option (ℕ × JsonValue) := v.elements[i]?.map fun e => (i, e)

/-- `getKeys(key)`. An integer is compared with `elements_.size()` as an unsigned number, and a
string is looked for by `std::find`. -/
def getKey (v : JsonValue) : Key → Option (ℕ × JsonValue)
  | .index key => if v.type = .kArray then v.element (key % 2 ^ 64).toNat else none
  | .str key =>
    if v.type = .kHash then (v.elements.findIdx? fun e => e.key == key).bind v.element else none

/-- `getKeys(key, keys...)`. -/
def getKeys (v : JsonValue) : List Key → Option (List ℕ)
  | [] => some []
  | key :: keys => do
    let (i, nextNode) ← v.getKey key
    let p ← nextNode.getKeys keys
    pure (i :: p)

/-- `set(val)`; `none` is a value of a type that is not supported. -/
def setVal (v : JsonValue) : Option Val → Option (List ℕ) × JsonValue
  | some (.int n) => (some [], { v with elements := [], num := .intNum n, type := .kInt })
  | some (.float text) =>
    (some [], { v with elements := [], num := .floatNum text, type := .kFloat })
  | some (.string s) => (some [], { v with elements := [], str := s, type := .kString })
  | some (.bool b) => (some [], { v with elements := [], num := .boolNum b, type := .kBool })
  | none => (none, v)

/-- `set(val, keys...)`: the pointer it returns, and the value afterwards. -/
def set (v : JsonValue) (val : Option Val) : List Bytes → Option (List ℕ) × JsonValue
  | [] => v.setVal val
  | key :: keys =>
    match v.getKey (.str key) with
    | none =>
      let newVal := JsonValue.new.set val keys
      match newVal.1 with
      | none => (none, v)
      | some ret =>
        (some (0 :: ret), { v with elements := [{ newVal.2 with key := key }], type := .kHash })
    | some (i, jsonPtr) =>
      let json := jsonPtr.set val keys
      (json.1.map fun ret => i :: ret, { v with elements := v.elements.set i json.2 })

/-- `get(keys...)`. -/
def get (v : JsonValue) (keys : List Key) : Option (List ℕ) := v.getKeys keys

/-- `insert(val, keys...)`. -/
def insert (v : JsonValue) (val : Option Val) (keys : List Bytes) : Option (List ℕ) × JsonValue :=
  v.set val keys

/-- The node that a pointer points to. -/
def node (v : JsonValue) : List ℕ → Option JsonValue
  | [] => some v
  | i :: p => v.elements[i]?.bind fun e => e.node p

/-- The node that `get(keys...)` reaches. -/
def lookup (v : JsonValue) (keys : List Key) : Option JsonValue := (v.get keys).bind v.node

/-! ## One key -/

theorem element_eq_some {v : JsonValue} {i : ℕ} {r : ℕ × JsonValue} :
    v.element i = some r ↔ r.1 = i ∧ v.elements[i]? = some r.2 := by
  obtain ⟨j, e⟩ := r
  simp only [element, Option.map_eq_some_iff, Prod.mk.injEq]
  constructor
  · rintro ⟨a, ha, rfl, rfl⟩
    exact ⟨rfl, ha⟩
  · rintro ⟨rfl, he⟩
    exact ⟨e, he, rfl, rfl⟩

/-- `std::find` finds the first element with the key. -/
theorem getKey_str_eq_some {v : JsonValue} {key : Bytes} {i : ℕ} {e : JsonValue} :
    v.getKey (.str key) = some (i, e) ↔ v.type = .kHash ∧ v.elements[i]? = some e ∧ e.key = key ∧
      ∀ j < i, ∀ b, v.elements[j]? = some b → b.key ≠ key := by
  by_cases hv : v.type = .kHash
  · rw [getKey, if_pos hv, Option.bind_eq_some_iff]
    simp only [List.findIdx?_eq_some_iff_getElem, element_eq_some]
    constructor
    · rintro ⟨_, ⟨hlt, hkey, hfirst⟩, rfl, he⟩
      obtain ⟨-, rfl⟩ := List.getElem?_eq_some_iff.mp he
      refine ⟨hv, List.getElem?_eq_getElem hlt, by simpa using hkey, fun j hj b hb => ?_⟩
      obtain ⟨-, rfl⟩ := List.getElem?_eq_some_iff.mp hb
      simpa using hfirst j hj
    · rintro ⟨-, he, hkey, hfirst⟩
      obtain ⟨hlt, rfl⟩ := List.getElem?_eq_some_iff.mp he
      refine ⟨i, ⟨hlt, by simpa using hkey, fun j hj => ?_⟩, rfl, he⟩
      simpa using hfirst j hj _ (List.getElem?_eq_getElem (hj.trans hlt))
  · simp [getKey, hv]

theorem getKey_str_eq_none {v : JsonValue} (hv : v.type = .kHash) {key : Bytes} :
    v.getKey (.str key) = none ↔ ∀ e ∈ v.elements, e.key ≠ key := by
  rw [getKey, if_pos hv]
  cases hfind : v.elements.findIdx? fun e => e.key == key with
  | none =>
    have hall := List.findIdx?_eq_none_iff.mp hfind
    simpa using hall
  | some i =>
    obtain ⟨hlt, hkey, -⟩ := List.findIdx?_eq_some_iff_getElem.mp hfind
    simp only [Option.bind_some, element, List.getElem?_eq_getElem hlt, Option.map_some,
      reduceCtorEq, false_iff, not_forall]
    exact ⟨_, List.getElem_mem hlt, not_not.mpr (by simpa using hkey)⟩

theorem getElem?_of_getKey {v : JsonValue} {key : Key} {i : ℕ} {e : JsonValue}
    (h : v.getKey key = some (i, e)) : v.elements[i]? = some e := by
  cases key with
  | str key => exact (getKey_str_eq_some.mp h).2.1
  | index key =>
    rw [getKey] at h
    split_ifs at h
    obtain ⟨rfl, he⟩ := element_eq_some.mp h
    exact he

/-- The key of a value does not matter for the nodes below it. -/
theorem getKeys_withKey (v : JsonValue) (key : Bytes) (keys : List Key) :
    { v with key := key }.getKeys keys = v.getKeys keys := by
  cases keys <;> rfl

theorem lookup_cons (v : JsonValue) (key : Key) (keys : List Key) :
    v.lookup (key :: keys) = (v.getKey key).bind fun r => r.2.lookup keys := by
  rw [lookup, get, getKeys]
  cases h : v.getKey key with
  | none => rfl
  | some r =>
    obtain ⟨i, e⟩ := r
    simp only [lookup, get, Option.bind_eq_bind, Option.bind_some]
    cases e.getKeys keys with
    | none => rfl
    | some p => simp [node, getElem?_of_getKey h]

theorem lookup_of_getKey {v : JsonValue} {key : Key} {r : ℕ × JsonValue}
    (h : v.getKey key = some r) (keys : List Key) : v.lookup (key :: keys) = r.2.lookup keys := by
  rw [lookup_cons, h, Option.bind_some]

/-! ## What `set` does -/

/-- The value is in the node, and the node has no elements. -/
def Holds : Val → JsonValue → Prop
  | .int n, v => v.elements = [] ∧ v.type = .kInt ∧ v.num = .intNum n
  | .float text, v => v.elements = [] ∧ v.type = .kFloat ∧ v.num = .floatNum text
  | .string s, v => v.elements = [] ∧ v.type = .kString ∧ v.str = s
  | .bool b, v => v.elements = [] ∧ v.type = .kBool ∧ v.num = .boolNum b

theorem holds_withKey (v : JsonValue) (key : Bytes) (val : Val) :
    Holds val { v with key := key } ↔ Holds val v := by
  cases val <;> rfl

theorem holds_setVal (v : JsonValue) (val : Val) : Holds val (v.setVal (some val)).2 := by
  cases val <;> exact ⟨rfl, rfl, rfl⟩

/-- A value of a supported type is set in every case. -/
theorem isSome_set (val : Val) (keys : List Bytes) (v : JsonValue) :
    (v.set (some val) keys).1.isSome = true := by
  induction keys generalizing v with
  | nil => cases val <;> rfl
  | cons key keys ih =>
    rw [set]
    cases v.getKey (.str key) with
    | none =>
      obtain ⟨ret, hret⟩ := Option.isSome_iff_exists.mp (ih .new)
      simp [hret]
    | some r => simpa using ih r.2

/-- Where the next key is missing, the new element becomes the only one. -/
theorem set_of_none {v : JsonValue} {key : Bytes} (h : v.getKey (.str key) = none) (val : Val)
    (keys : List Bytes) : ∃ ret e, (JsonValue.new.set (some val) keys).1 = some ret ∧
      e = { (JsonValue.new.set (some val) keys).2 with key := key } ∧
      v.set (some val) (key :: keys) =
        (some (0 :: ret), { v with elements := [e], type := .kHash }) := by
  obtain ⟨ret, hret⟩ := Option.isSome_iff_exists.mp (isSome_set val keys .new)
  refine ⟨ret, _, hret, rfl, ?_⟩
  rw [set, h]
  simp only [hret]

/-- Where the next key is found, its element is set. -/
theorem set_of_some {v : JsonValue} {key : Bytes} {i : ℕ} {e : JsonValue}
    (h : v.getKey (.str key) = some (i, e)) (val : Option Val) (keys : List Bytes) :
    v.set val (key :: keys) = ((e.set val keys).1.map fun ret => i :: ret,
      { v with elements := v.elements.set i (e.set val keys).2 }) := by
  rw [set, h]

/-- `set` leaves the key of the value as it is. -/
theorem set_key (val : Val) (keys : List Bytes) (v : JsonValue) :
    (v.set (some val) keys).2.key = v.key := by
  cases keys with
  | nil => cases val <;> rfl
  | cons key keys =>
    cases h : v.getKey (.str key) with
    | none =>
      obtain ⟨ret, e, -, -, hset⟩ := set_of_none h val keys
      rw [hset]
    | some r => rw [set_of_some h]

/-! ## `get` after `set` -/

/-- The only element is found under its key, and nothing else is. -/
theorem getKey_single (v : JsonValue) {e : JsonValue} {key : Bytes} (he : e.key = key) :
    { v with elements := [e], type := .kHash }.getKey (.str key) = some (0, e) :=
  getKey_str_eq_some.mpr ⟨rfl, rfl, he, fun j hj => absurd hj (by omega)⟩

section

variable {v e e' : JsonValue} {key : Bytes} {i : ℕ}

/-- The element that was found is found when it is replaced by one with the same key. -/
theorem getKey_set_self (h : v.getKey (.str key) = some (i, e)) (hkey : e'.key = e.key) :
    { v with elements := v.elements.set i e' }.getKey (.str key) = some (i, e') := by
  obtain ⟨hv, he, rfl, hfirst⟩ := getKey_str_eq_some.mp h
  obtain ⟨hlt, -⟩ := List.getElem?_eq_some_iff.mp he
  refine getKey_str_eq_some.mpr ⟨hv, List.getElem?_set_self hlt, hkey, fun j hj b hb => ?_⟩
  rw [List.getElem?_set_ne (by omega)] at hb
  exact hfirst j hj b hb

/-- What was found under another key is found. -/
theorem getKey_set_ne (h : v.getKey (.str key) = some (i, e)) (hkey : e'.key = e.key) {k : Key}
    (hk : k ≠ .str key) {r : ℕ × JsonValue} (hr : v.getKey k = some r) :
    { v with elements := v.elements.set i e' }.getKey k = some r := by
  obtain ⟨hv, he, rfl, -⟩ := getKey_str_eq_some.mp h
  obtain ⟨j, b⟩ := r
  cases k with
  | index k => simp [getKey, hv] at hr
  | str k =>
    obtain ⟨-, hb, rfl, hfirst⟩ := getKey_str_eq_some.mp hr
    have hne : e.key ≠ b.key := fun heq => hk (by rw [heq])
    have hij : i ≠ j := by
      rintro rfl
      exact hne (by rw [Option.some_inj.mp (he.symm.trans hb)])
    refine getKey_str_eq_some.mpr ⟨hv, by rwa [List.getElem?_set_ne hij], rfl, fun l hl c hc => ?_⟩
    by_cases hil : i = l
    · subst hil
      obtain ⟨hlt, -⟩ := List.getElem?_eq_some_iff.mp he
      rw [List.getElem?_set_self hlt] at hc
      cases hc
      rwa [hkey]
    · rw [List.getElem?_set_ne hil] at hc
      exact hfirst l hl c hc

end

/-- `get` finds the node that `set` returns. -/
theorem getKeys_set (val : Val) (keys : List Bytes) (v : JsonValue) :
    (v.set (some val) keys).2.getKeys (keys.map .str) = (v.set (some val) keys).1 := by
  induction keys generalizing v with
  | nil => cases val <;> rfl
  | cons key keys ih =>
    rw [List.map_cons, getKeys]
    cases h : v.getKey (.str key) with
    | none =>
      obtain ⟨ret, e, hret, he, hset⟩ := set_of_none h val keys
      have hkeys : e.getKeys (keys.map .str) = some ret := by
        rw [← hret, ← ih, he, getKeys_withKey]
      rw [hset]
      dsimp only
      rw [getKey_single v (by rw [he]), Option.bind_eq_bind, Option.bind_some, hkeys]
      rfl
    | some r =>
      rw [set_of_some h]
      dsimp only
      rw [getKey_set_self h (set_key val keys r.2), Option.bind_eq_bind, Option.bind_some, ih]
      cases (r.2.set (some val) keys).1 <;> rfl

/-- The node that `set` returns holds the value. -/
theorem lookup_set (val : Val) (keys : List Bytes) (v : JsonValue) :
    ∃ u, (v.set (some val) keys).2.lookup (keys.map .str) = some u ∧ Holds val u := by
  induction keys generalizing v with
  | nil => exact ⟨_, rfl, holds_setVal v val⟩
  | cons key keys ih =>
    rw [List.map_cons]
    cases h : v.getKey (.str key) with
    | none =>
      obtain ⟨ret, e, -, he, hset⟩ := set_of_none h val keys
      obtain ⟨u, hu, hholds⟩ := ih .new
      rw [hset]
      dsimp only
      rw [lookup_of_getKey (getKey_single v (by rw [he])), he]
      cases keys with
      | nil =>
        exact ⟨_, rfl, (holds_withKey _ key val).mpr (holds_setVal .new val)⟩
      | cons k keys =>
        refine ⟨u, ?_, hholds⟩
        rw [← hu, List.map_cons, lookup_cons, lookup_cons]
        rfl
    | some r =>
      rw [set_of_some h]
      dsimp only
      rw [lookup_of_getKey (getKey_set_self h (set_key val keys r.2))]
      exact ih r.2

/-! ## The other paths -/

/-- After `set(val, keys...)`, `get` gives under every other path, neither a prefix nor an extension
of `keys`, the subtree from before, where there was one and the nodes on the common part of both
paths were objects. -/
def Frame (v : JsonValue) (val : Val) (keys : List Bytes) : Prop :=
  ∀ (q : List Key) (u : JsonValue), ¬q <+: keys.map .str → ¬keys.map .str <+: q →
    v.lookup q = some u →
    (∀ c w, c <+: keys.map .str → c <+: q → v.lookup c = some w → w.type = .kHash) →
    (v.set (some val) keys).2.lookup q = some u

/-- On the way along `keys`, no object has elements but not the next key. -/
def NothingCleared : JsonValue → List Bytes → Prop
  | _, [] => True
  | v, key :: keys =>
    match v.getKey (.str key) with
    | none => v.type = .kHash → v.elements = []
    | some (_, next) => next.NothingCleared keys

theorem frame_nil (v : JsonValue) (val : Val) : v.Frame val [] :=
  fun _ _ _ hq => absurd List.nil_prefix hq

/-- Where the next key is missing, an object loses its elements. -/
theorem frame_of_none {v : JsonValue} {key : Bytes} (h : v.getKey (.str key) = none) (val : Val)
    (keys : List Bytes) : v.Frame val (key :: keys) ↔ (v.type = .kHash → v.elements = []) := by
  obtain ⟨ret, e, -, he, hset⟩ := set_of_none h val keys
  constructor
  · -- the path to the first element is lost
    intro hframe hv
    by_contra hne
    obtain ⟨b, bs, hb⟩ := List.exists_cons_of_ne_nil hne
    have hmem : b ∈ v.elements := by simp [hb]
    have hkey : b.key ≠ key := (getKey_str_eq_none hv).mp h b hmem
    obtain ⟨r, hr⟩ : ∃ r, v.getKey (.str b.key) = some r := by
      rw [← Option.ne_none_iff_exists', Ne, getKey_str_eq_none hv]
      exact fun hall => hall b hmem rfl
    have hlost := hframe [.str b.key] r.2 (by simp [hkey]) (by simp [hkey.symm])
      (by rw [lookup_of_getKey hr]; rfl) fun c w hc hcq hw => by
        cases c with
        | nil =>
          cases hw
          exact hv
        | cons k c =>
          rw [List.map_cons, List.cons_prefix_cons] at hc
          rw [List.cons_prefix_cons] at hcq
          exact absurd (Key.str.inj (hcq.1.symm.trans hc.1)) hkey
    rw [hset, lookup_cons, (getKey_str_eq_none rfl).mpr] at hlost
    · exact nomatch hlost
    · simpa [he] using hkey.symm
  · -- an object without elements has nothing to lose, and a node that is no object is excluded
    intro hempty q u hq _ hu hcommon
    have hv := hempty (hcommon [] v List.nil_prefix List.nil_prefix rfl)
    cases q with
    | nil => exact absurd List.nil_prefix hq
    | cons k q =>
      rw [lookup_cons, Option.bind_eq_some_iff] at hu
      obtain ⟨⟨i, b⟩, hr, -⟩ := hu
      have hb := getElem?_of_getKey hr
      simp [hv] at hb

/-- Where the next key is found, the other elements stay. -/
theorem frame_of_some {v e : JsonValue} {key : Bytes} {i : ℕ}
    (h : v.getKey (.str key) = some (i, e)) (val : Val) (keys : List Bytes) :
    v.Frame val (key :: keys) ↔ e.Frame val keys := by
  have hself := getKey_set_self h (set_key val keys e)
  constructor
  · intro hframe q u hq hqk hu hcommon
    have hlookup := hframe (.str key :: q) u (by simpa using hq) (by simpa using hqk)
      (by rw [lookup_of_getKey h]; exact hu) fun c w hc hcq hw => by
        cases c with
        | nil =>
          cases hw
          exact (getKey_str_eq_some.mp h).1
        | cons k c =>
          rw [List.map_cons, List.cons_prefix_cons] at hc
          rw [List.cons_prefix_cons] at hcq
          rw [hc.1, lookup_of_getKey h] at hw
          exact hcommon c w hc.2 hcq.2 hw
    rwa [set_of_some h, lookup_of_getKey hself] at hlookup
  · intro hframe q u hq hqk hu hcommon
    rw [set_of_some h]
    cases q with
    | nil => exact absurd List.nil_prefix hq
    | cons k q =>
      by_cases hk : k = .str key
      · subst hk
        rw [List.map_cons, List.cons_prefix_cons] at hq hqk
        rw [lookup_of_getKey h] at hu
        rw [lookup_of_getKey hself]
        refine hframe q u (by simpa using hq) (by simpa using hqk) hu fun c w hc hcq hw => ?_
        refine hcommon (.str key :: c) w (by simpa using hc) (by simpa using hcq) ?_
        rw [lookup_of_getKey h]
        exact hw
      · rw [lookup_cons, Option.bind_eq_some_iff] at hu
        obtain ⟨r, hr, hu⟩ := hu
        rw [lookup_of_getKey (getKey_set_ne h (set_key val keys e) hk hr)]
        exact hu

/-- The other paths keep their subtrees exactly if nothing is cleared, by induction on `keys`. -/
theorem frame_iff (val : Val) (keys : List Bytes) (v : JsonValue) :
    v.Frame val keys ↔ v.NothingCleared keys := by
  induction keys generalizing v with
  | nil => exact iff_of_true (v.frame_nil val) trivial
  | cons key keys ih =>
    rw [NothingCleared]
    cases h : v.getKey (.str key) with
    | none => exact frame_of_none h val keys
    | some r => exact (frame_of_some h val keys).trans (ih r.2)

/-! ## A map of paths -/

/-- What `insert(val, keys...)` promises of a nested map. -/
structure ActsAsMap (v : JsonValue) (val : Val) (keys : List Bytes) : Prop where
  /-- The pointer that it returns is not null. -/
  notNull : (v.insert (some val) keys).1 ≠ none
  /-- `get(keys...)` returns the same pointer, -/
  found : (v.insert (some val) keys).2.get (keys.map .str) = (v.insert (some val) keys).1
  /-- and reaches a node that holds the value. -/
  holds : ∃ u, (v.insert (some val) keys).2.lookup (keys.map .str) = some u ∧ Holds val u
  /-- The other paths keep their subtrees. -/
  frame : v.Frame val keys

/-- **`insert` and `get` as a nested map**: for every value, every path of keys and every value of a
supported type, `insert` returns a pointer to the node that `get` finds and that holds the value,
and all other paths keep their subtrees, if and only if the insertion meets no object that has
elements but not the next key. -/
theorem actsAsMap_iff (v : JsonValue) (val : Val) (key : Bytes) (keys : List Bytes) :
    v.ActsAsMap val (key :: keys) ↔ v.NothingCleared (key :: keys) := by
  constructor
  · intro h
    exact (frame_iff val _ v).mp h.frame
  · intro h
    refine ⟨?_, getKeys_set val _ v, lookup_set val _ v, (frame_iff val _ v).mpr h⟩
    exact Option.isSome_iff_ne_none.mp (isSome_set val _ v)

/-- The values that parsing and inserting make of a fresh one. -/
inductive Reachable : JsonValue → Prop
  | new : Reachable .new
  | fromString {v w : JsonValue} {n : ℕ} {str : CString} : Reachable v →
      fromString n v str = .ok w → Reachable w
  | insert {v : JsonValue} (val : Option Val) (keys : List Bytes) : Reachable v →
      Reachable (v.insert val keys).2

/-- **Two inserts**: the second takes away what the first put in. -/
theorem not_actsAsMap : ¬∀ (v : JsonValue), Reachable v → ∀ (val : Val) (key : Bytes)
    (keys : List Bytes), v.ActsAsMap val (key :: keys) := by
  intro hall
  let v := (JsonValue.new.insert (some (.int 204)) [ascii "code"]).2
  have h := hall v (.insert _ _ .new) (.string (ascii "wrong password")) (ascii "message") []
  have hnone : v.getKey (.str (ascii "message")) = none := by
    refine (getKey_str_eq_none rfl).mpr fun e he => ?_
    obtain rfl := List.mem_singleton.mp he
    exact (by decide : ascii "code" ≠ ascii "message")
  have hempty := (frame_of_none hnone _ []).mp h.frame rfl
  exact nomatch hempty

end JsonValue

end Json

end Muduo
