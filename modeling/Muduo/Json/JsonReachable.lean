import Muduo.Json.JsonPath

/-! # What parsing and inserting make

`Typed` is the invariant of the values that parsing and inserting make of a fresh one: in every node
the union holds what the type says. Parsing and inserting set both together, and parsing `null` sets
the type alone. -/

namespace Muduo

namespace Json

/-- What was written to the union last has the type. -/
def Matches (num : Num) : JType → Prop
  | .kInt => ∃ n, num = .intNum n
  | .kFloat => ∃ text, num = .floatNum text
  | .kBool => ∃ b, num = .boolNum b
  | _ => True

/-- In every node of the tree the union holds what the type says. -/
inductive Typed : JsonValue → Prop
  | intro {v : JsonValue} : Matches v.num v.type → (∀ e ∈ v.elements, Typed e) → Typed v

theorem Typed.matches {v : JsonValue} (h : Typed v) : Matches v.num v.type := by
  obtain ⟨hm, -⟩ := h
  exact hm

theorem Typed.elements {v : JsonValue} (h : Typed v) : ∀ e ∈ v.elements, Typed e := by
  obtain ⟨-, hes⟩ := h
  exact hes

theorem typed_new : Typed .new := .intro trivial nofun

/-! ## Parsing -/

theorem Parsed.typed {v : JsonValue} (h : Parsed v) : Typed v := by
  induction h with
  | hash _ _ ih => exact .intro trivial ih
  | array _ _ ih => exact .intro trivial ih
  | string _ => exact .intro trivial nofun
  | int _ => exact .intro ⟨_, rfl⟩ nofun
  | float => exact .intro ⟨_, rfl⟩ nofun
  | bool => exact .intro ⟨_, rfl⟩ nofun
  | null => exact .intro trivial nofun

/-- Parsing into a typed value leaves it typed. -/
theorem Typed.parseObject {n : ℕ} {s t : Bytes} {o v : JsonValue} (hs : 0 ∉ s) (ho : Typed o)
    (hok : parseObject n s o = .ok (t, v)) : Typed v := by
  cases n with
  | zero =>
    rw [Json.parseObject] at hok
    cases hok
  | succ n =>
    by_cases hb : BeginsValue (skipSpace s)
    · have hbranch := branch_of_parseObject hok
      have hskip := notMem_skipSpace hs
      generalize skipSpace s = x at hbranch hskip hb
      cases hbranch with
      | object hp =>
        rw [List.mem_cons, not_or] at hskip
        have hes := ((parsedAt n).hash _ _ _ _ (notMem_skipSpace hskip.2) hp).2 nofun
        exact .intro trivial fun e he => (hes e he).2.typed
      | array hp =>
        rw [List.mem_cons, not_or] at hskip
        have hes := ((parsedAt n).array _ _ _ _ (notMem_skipSpace hskip.2) hp).2 nofun
        exact .intro trivial fun e he => (hes e he).2.typed
      | string _ => exact .intro trivial ho.elements
      | float _ _ _ _ => exact .intro ⟨_, rfl⟩ ho.elements
      | int _ _ _ _ _ => exact .intro ⟨_, rfl⟩ ho.elements
      | litTrue => exact .intro ⟨_, rfl⟩ ho.elements
      | litFalse => exact .intro ⟨_, rfl⟩ ho.elements
      | nothing hnone _ => exact absurd hb hnone
    · obtain ⟨v', hv', hor⟩ := parseObject_unread (n := n) o hb
      cases hok.symm.trans hv'
      rcases hor with rfl | rfl
      · exact ho
      · exact .intro trivial ho.elements

/-! ## Inserting -/

theorem Typed.withKey {v : JsonValue} (h : Typed v) (key : Bytes) : Typed { v with key := key } :=
  .intro h.matches h.elements

theorem Typed.setVal {v : JsonValue} (h : Typed v) (val : Option Val) : Typed (v.setVal val).2 := by
  match val with
  | none => exact h
  | some (.int _) => exact .intro ⟨_, rfl⟩ nofun
  | some (.float _) => exact .intro ⟨_, rfl⟩ nofun
  | some (.string _) => exact .intro trivial nofun
  | some (.bool _) => exact .intro ⟨_, rfl⟩ nofun

/-- Inserting into a typed value leaves it typed, by induction on the path. -/
theorem Typed.set {v : JsonValue} (h : Typed v) (val : Option Val) (keys : List Bytes) :
    Typed (v.set val keys).2 := by
  induction keys generalizing v with
  | nil => exact h.setVal val
  | cons key keys ih =>
    cases hget : v.getKey (.str key) with
    | none =>
      rw [JsonValue.set, hget]
      cases hret : (JsonValue.new.set val keys).1 with
      | none => simpa only [hret] using h
      | some ret =>
        simp only [hret]
        refine .intro trivial (List.forall_mem_singleton.mpr ?_)
        exact (ih typed_new).withKey key
    | some r =>
      obtain ⟨i, e⟩ := r
      rw [JsonValue.set_of_some hget]
      have he : Typed e := h.elements e (List.mem_of_getElem? (JsonValue.getElem?_of_getKey hget))
      refine .intro h.matches fun e' he' => ?_
      rcases List.mem_or_eq_of_mem_set he' with hmem | rfl
      · exact h.elements e' hmem
      · exact ih he

/-- **Everything that can be reached is typed.** -/
theorem JsonValue.Reachable.typed {v : JsonValue} (h : v.Reachable) : Typed v := by
  induction h with
  | new => exact typed_new
  | @fromString v w n str _ hparse ih =>
    obtain ⟨⟨t, v'⟩, hp, rfl⟩ := map_eq_ok.mp hparse
    exact ih.parseObject str.2 hp
  | insert val keys _ ih => exact ih.set val keys

end Json

end Muduo
