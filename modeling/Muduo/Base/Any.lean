import Muduo.Foundations.Runs
import Muduo.Foundations.UniquePtr

/-! # `Any`

The type-erased value of `muduo/base/Any.h`. A set of `Any` objects is a heap of `InternalDataImpl`
cells, each owned by the `dataPtr_` of an object; a value is a type with a datum of that type.

`AnyValues` is what the objects are meant to be: values of their own, or nothing. The copy
assignment does nothing if its source is empty, so **`Any.prescribed_iff`**: the objects are what
they are meant to be exactly as long as no empty `Any` is assigned by copy to one with a value. -/

namespace Muduo

open Function (update)

variable {ι τ : Type*} {V : τ → Type*}

/-- What can be done with a set of `Any` objects. -/
inductive AnyOp (ι : Type*) {τ : Type*} (V : τ → Type*)
  /-- `Any x;` -/
  | construct (x : ι)
  /-- `Any x(that);` -/
  | constructCopy (x that : ι)
  /-- `Any x(std::move(that));` -/
  | constructMove (x that : ι)
  /-- `Any x(data);` -/
  | constructData (x : ι) (data : Sigma V)
  /-- `x = that;` -/
  | assignCopy (x that : ι)
  /-- `x = std::move(that);` -/
  | assignMove (x that : ι)
  /-- `x = data;` -/
  | assignData (x : ι) (data : Sigma V)
  /-- `x.cast<T>() = data;` -/
  | assignCast (x : ι) (data : Sigma V)
  /-- `x.~Any();` -/
  | destroy (x : ι)

/-! ## What the objects are meant to be -/

/-- The value of each object that is alive, if it has one. -/
abbrev AnyValues (ι : Type*) {τ : Type*} (V : τ → Type*) := ι → Option (Option (Sigma V))

namespace AnyValues

variable [DecidableEq ι]

/-- A new object with value `v`. -/
def add (m : AnyValues ι V) (x : ι) (v : Option (Sigma V)) : Option (AnyValues ι V) :=
  if m x = none then some (update m x (some v)) else none

/-- What an operation is meant to do: a copy is equal to its source, which stays as it is; a move
takes the value along and leaves the source empty; only the target changes. -/
def step [DecidableEq τ] (m : AnyValues ι V) : AnyOp ι V → Option (AnyValues ι V)
  | .construct x => m.add x none
  | .constructCopy x that => (m that).bind fun v => m.add x v
  | .constructMove x that => (m that).bind fun v => AnyValues.add (update m that (some none)) x v
  | .constructData x data => m.add x (some data)
  | .assignCopy x that => (m x).bind fun _ => (m that).map fun v => update m x (some v)
  | .assignMove x that => (m x).bind fun _ => (m that).map fun v =>
      update (update m that (some none)) x (some v)
  | .assignData x data => (m x).map fun _ => update m x (some (some data))
  | .assignCast x data => (m x).bind fun v => v.bind fun old =>
      if old.1 = data.1 then some (update m x (some (some data))) else none
  | .destroy x => (m x).map fun _ => update m x none

end AnyValues

/-! ## What the code does -/

/-- `Any` objects, which own `InternalDataImpl` cells. -/
abbrev Anys (ι : Type*) {τ : Type*} (V : τ → Type*) := UniquePtrs ι (Sigma V)

namespace Any

/-- `empty()`. -/
def empty (s : Anys ι V) (x : ι) : Option Bool := (s.ptr x).map Option.isNone

/-- `cast<T>()`, if the value is of type `T`. -/
def cast [DecidableEq τ] (s : Anys ι V) (T : τ) (x : ι) : Option (V T) :=
  (s.ptr x).bind fun p => p.bind fun c => (s.heap c).bind fun data =>
    if h : data.1 = T then some (h ▸ data.2) else none

/-- `empty()` sees whether there is a value. -/
theorem empty_eq {s : Anys ι V} {x : ι} (h : s.Holding none) :
    empty s x = (s.contents x).map Option.isNone := by
  rw [empty]
  cases hx : s.ptr x with
  | none => rw [UniquePtrs.contents_eq_none.mpr hx]; rfl
  | some p =>
    cases p with
    | none => rw [UniquePtrs.contents_of_ptr hx]; rfl
    | some c =>
      obtain ⟨data, -, hdata⟩ := h.contents_of_cell hx
      rw [hdata]
      rfl

/-- `cast<T>()` sees the value. -/
theorem cast_eq [DecidableEq τ] {s : Anys ι V} {x : ι} {T : τ} :
    cast s T x = (s.contents x).bind fun v => v.bind fun data =>
      if h : data.1 = T then some (h ▸ data.2) else none := by
  rw [cast, UniquePtrs.contents]
  cases s.ptr x with
  | none => rfl
  | some p => cases p <;> rfl

/-- The result keeps the invariant, and its objects are those of `m`. -/
def Follows (r : Option (Anys ι V)) (m : Option (AnyValues ι V)) : Prop :=
  (∀ s, r = some s → s.Holding none) ∧ r.map UniquePtrs.contents = m

theorem follows_none : Follows (ι := ι) (V := V) none none := ⟨nofun, rfl⟩

theorem follows_some {s : Anys ι V} {m : AnyValues ι V} (h : s.Holding none)
    (hm : s.contents = m) : Follows (some s) (some m) := by
  refine ⟨fun t ht => ?_, congrArg some hm⟩
  cases ht
  exact h

/-- `InternalDataImpl::clone()`: a new cell with the same data. -/
def clone (s : Anys ι V) (c : ℕ) : Option (ℕ × Anys ι V) := (s.heap c).map s.allocate

variable [DecidableEq ι]

/-- `Any()`, where no object is yet. -/
def construct (s : Anys ι V) (x : ι) : Option (Anys ι V) :=
  if s.ptr x = none then some (s.setPtr x (some none)) else none

/-- `if(that.dataPtr_){ dataPtr_=that.dataPtr_->clone(); }` -/
def copy (s : Anys ι V) (x : ι) : Option ℕ → Option (Anys ι V)
  | some c => (clone s c).bind fun (n, s) => s.reset x (some n)
  | none => some s

/-- `Any(const Any& that)`. -/
def constructCopy (s : Anys ι V) (x that : ι) : Option (Anys ι V) :=
  (s.ptr that).bind fun p => (construct s x).bind fun s => copy s x p

/-- `Any(Any&& that)`. -/
def constructMove (s : Anys ι V) (x that : ι) : Option (Anys ι V) :=
  (s.release that).bind fun (p, s) => if s.ptr x = none then some (s.setPtr x (some p)) else none

/-- `Any(T&& data)`. -/
def constructData (s : Anys ι V) (x : ι) (data : Sigma V) : Option (Anys ι V) :=
  (construct s x).bind fun s =>
    let (n, s) := s.allocate data
    s.reset x (some n)

/-- `operator=(const Any& that)`. -/
def assignCopy (s : Anys ι V) (x that : ι) : Option (Anys ι V) :=
  (s.ptr x).bind fun _ => (s.ptr that).bind fun p => copy s x p

/-- `operator=(Any&& that)`. -/
def assignMove (s : Anys ι V) (x that : ι) : Option (Anys ι V) :=
  (s.ptr x).bind fun _ => (s.release that).bind fun (p, s) => s.reset x p

/-- `operator=(T&& data)`. -/
def assignData (s : Anys ι V) (x : ι) (data : Sigma V) : Option (Anys ι V) :=
  let (n, s) := s.allocate data
  s.reset x (some n)

/-- Assign to what `cast<T>()` refers to; the types have to agree. -/
def assignCast [DecidableEq τ] (s : Anys ι V) (x : ι) (data : Sigma V) : Option (Anys ι V) :=
  (s.ptr x).bind fun p => p.bind fun c => (s.heap c).bind fun old =>
    if old.1 = data.1 then some (s.put c data) else none

/-- One operation. -/
def step [DecidableEq τ] (s : Anys ι V) : AnyOp ι V → Option (Anys ι V)
  | .construct x => construct s x
  | .constructCopy x that => constructCopy s x that
  | .constructMove x that => constructMove s x that
  | .constructData x data => constructData s x data
  | .assignCopy x that => assignCopy s x that
  | .assignMove x that => assignMove s x that
  | .assignData x data => assignData s x data
  | .assignCast x data => assignCast s x data
  | .destroy x => s.destroy x

/-- After every operation each object is what it is meant to be, and the code can go on exactly if
the operations make sense. -/
def Prescribed [DecidableEq τ] (ops : List (AnyOp ι V)) : Prop :=
  ∀ done, done <+: ops →
    (Runs.exec step UniquePtrs.empty done).map UniquePtrs.contents =
      Runs.exec AnyValues.step (fun _ => none) done

/-- No empty object is assigned by copy to one with a value. -/
def SourceGiven (s : Anys ι V) : AnyOp ι V → Prop
  | .assignCopy x that => s.contents that = some none → ∀ data, s.contents x ≠ some (some data)
  | _ => True

/-! ## One operation -/

variable {s : Anys ι V} {x that : ι} {data : Sigma V}

theorem construct_eq (hx : s.ptr x = none) :
    construct s x = some (s.setPtr x (some none)) := if_pos hx

theorem add_eq {v : Option (Sigma V)} (hx : s.ptr x = none) :
    AnyValues.add s.contents x v = some (update s.contents x (some v)) :=
  if_pos (UniquePtrs.contents_eq_none.mpr hx)

/-- Nothing is constructed where an object is. -/
theorem construct_eq_none (hx : s.ptr x ≠ none) : construct s x = none := if_neg hx

theorem add_eq_none {v : Option (Sigma V)} (hx : s.ptr x ≠ none) :
    AnyValues.add s.contents x v = none :=
  if_neg (mt UniquePtrs.contents_eq_none.mp hx)

/-- A new object is empty. -/
theorem holding_construct (h : s.Holding none) (hx : s.ptr x = none) :
    (s.setPtr x (some none)).Holding none ∧
      (s.setPtr x (some none)).contents = update s.contents x (some none) ∧
      (s.setPtr x (some none)).ptr x = some none := by
  obtain ⟨hset, hcontents⟩ := h.setPtr x (v := some none) rfl
  rw [hx] at hset
  exact ⟨hset, hcontents, Function.update_self _ _ _⟩

/-- A new cell for an object. -/
theorem reset_allocate (h : s.Holding none) {q : Option ℕ} (hx : s.ptr x = some q) (a : Sigma V) :
    Follows ((s.allocate a).2.reset x (some (s.allocate a).1))
      (some (update s.contents x (some (some a)))) := by
  obtain ⟨hnew, hcontents, hcell⟩ := h.allocate a
  obtain ⟨s', hs', hholding, hsame⟩ := hnew.reset (x := x) (q := q) hx
  rw [hs']
  refine follows_some hholding (hsame.trans ?_)
  rw [hcontents, Option.bind_some, hcell]

/-- The copy of a cell for an object. -/
theorem copy_some (h : s.Holding none) {q : Option ℕ} (hx : s.ptr x = some q) {c : ℕ}
    {a : Sigma V} (hc : s.heap c = some a) :
    Follows (copy s x (some c)) (some (update s.contents x (some (some a)))) := by
  rw [copy, clone, hc]
  exact reset_allocate h hx a

theorem construct_follows (h : s.Holding none) :
    Follows (construct s x) (AnyValues.add s.contents x none) := by
  by_cases hx : s.ptr x = none
  · rw [construct_eq hx, add_eq hx]
    exact follows_some (holding_construct h hx).1 (holding_construct h hx).2.1
  · rw [construct_eq_none hx, add_eq_none hx]
    exact follows_none

theorem constructData_follows (h : s.Holding none) :
    Follows (constructData s x data) (AnyValues.add s.contents x (some data)) := by
  rw [constructData]
  by_cases hx : s.ptr x = none
  · obtain ⟨hnew, hcontents, hptr⟩ := holding_construct h hx
    rw [construct_eq hx, add_eq hx]
    have hreset := reset_allocate hnew hptr data
    rwa [hcontents, Function.update_idem] at hreset
  · rw [construct_eq_none hx, add_eq_none hx]
    exact follows_none

theorem constructCopy_follows (h : s.Holding none) : Follows (constructCopy s x that)
    ((s.contents that).bind fun v => AnyValues.add s.contents x v) := by
  rw [constructCopy]
  cases hthat : s.ptr that with
  | none =>
    rw [UniquePtrs.contents_eq_none.mpr hthat]
    exact follows_none
  | some p =>
    rw [UniquePtrs.contents_of_ptr hthat, Option.bind_some, Option.bind_some]
    by_cases hx : s.ptr x = none
    · obtain ⟨hnew, hcontents, hptr⟩ := holding_construct h hx
      rw [construct_eq hx, add_eq hx, Option.bind_some]
      cases p with
      | none => exact follows_some hnew hcontents
      | some c =>
        obtain ⟨a, ha, -⟩ := h.contents_of_cell hthat
        have hcopy := copy_some hnew hptr (c := c) ha
        rw [hcontents, Function.update_idem] at hcopy
        rwa [Option.bind_some, ha]
    · rw [construct_eq_none hx, add_eq_none hx]
      exact follows_none

theorem constructMove_follows (h : s.Holding none) : Follows (constructMove s x that)
    ((s.contents that).bind fun v =>
      AnyValues.add (update s.contents that (some none)) x v) := by
  rw [constructMove]
  cases hthat : s.ptr that with
  | none =>
    rw [UniquePtrs.contents_eq_none.mpr hthat, UniquePtrs.release, hthat]
    exact follows_none
  | some p =>
    obtain ⟨s', hs', hholding, hheap, -, hcontents⟩ := h.release hthat
    rw [UniquePtrs.contents_of_ptr hthat, hs', ← hcontents, Option.bind_some, Option.bind_some,
      ← hheap]
    show Follows (if s'.ptr x = none then _ else _) _
    by_cases hx : s'.ptr x = none
    · obtain ⟨hset, hsame⟩ := hholding.setPtr x (v := some p) rfl
      rw [hx] at hset
      rw [if_pos hx, add_eq hx]
      exact follows_some hset hsame
    · rw [if_neg hx, add_eq_none hx]
      exact follows_none

/-- A copy assignment, unless the source is empty and the target is not. -/
theorem assignCopy_follows (h : s.Holding none)
    (hgiven : s.contents that = some none → ∀ data, s.contents x ≠ some (some data)) :
    Follows (assignCopy s x that) ((s.contents x).bind fun _ =>
      (s.contents that).map fun v => update s.contents x (some v)) := by
  rw [assignCopy]
  cases hx : s.ptr x with
  | none =>
    rw [UniquePtrs.contents_eq_none.mpr hx]
    exact follows_none
  | some q =>
    rw [UniquePtrs.contents_of_ptr hx, Option.bind_some, Option.bind_some]
    cases hthat : s.ptr that with
    | none =>
      rw [UniquePtrs.contents_eq_none.mpr hthat]
      exact follows_none
    | some p =>
      rw [UniquePtrs.contents_of_ptr hthat, Option.bind_some, Option.map_some]
      cases p with
      | some c =>
        obtain ⟨a, ha, -⟩ := h.contents_of_cell hthat
        rw [Option.bind_some, ha]
        exact copy_some h hx ha
      | none =>
        -- the target is empty too, and stays so
        have hempty : s.contents x = some none := by
          cases q with
          | none => exact UniquePtrs.contents_of_ptr hx
          | some c =>
            obtain ⟨a, -, ha⟩ := h.contents_of_cell hx
            exact absurd ha (hgiven (UniquePtrs.contents_of_ptr hthat) a)
        refine follows_some h ?_
        rw [Option.bind_none, ← hempty, Function.update_eq_self]

theorem assignMove_follows (h : s.Holding none) : Follows (assignMove s x that)
    ((s.contents x).bind fun _ => (s.contents that).map fun v =>
      update (update s.contents that (some none)) x (some v)) := by
  rw [assignMove]
  cases hx : s.ptr x with
  | none =>
    rw [UniquePtrs.contents_eq_none.mpr hx]
    exact follows_none
  | some q =>
    rw [UniquePtrs.contents_of_ptr hx, Option.bind_some, Option.bind_some]
    cases hthat : s.ptr that with
    | none =>
      rw [UniquePtrs.contents_eq_none.mpr hthat, UniquePtrs.release, hthat]
      exact follows_none
    | some p =>
      obtain ⟨s', hs', hholding, hheap, hptr, hcontents⟩ := h.release hthat
      -- the target is alive after the release, also if it is the source
      obtain ⟨q', hx'⟩ : ∃ q', s'.ptr x = some q' := by
        rw [hptr]
        by_cases hxt : x = that
        · exact ⟨none, by rw [hxt, Function.update_self]⟩
        · exact ⟨q, by rw [Function.update_of_ne hxt, hx]⟩
      obtain ⟨s'', hs'', hholding', hsame⟩ := hholding.reset hx'
      rw [UniquePtrs.contents_of_ptr hthat, hs', Option.bind_some, Option.map_some]
      show Follows (s'.reset x p) _
      rw [hs'']
      exact follows_some hholding' (by rw [hsame, hcontents, hheap])

theorem assignData_follows (h : s.Holding none) : Follows (assignData s x data)
    ((s.contents x).map fun _ => update s.contents x (some (some data))) := by
  rw [assignData]
  cases hx : s.ptr x with
  | none =>
    rw [UniquePtrs.contents_eq_none.mpr hx]
    have hnone : (s.allocate data).2.reset x (some (s.allocate data).1) = none := by
      rw [UniquePtrs.reset]
      refine Option.bind_eq_none_iff.mpr fun _ h' => ?_
      cases hx.symm.trans h'
    show Follows ((s.allocate data).2.reset x (some (s.allocate data).1)) _
    rw [hnone]
    exact follows_none
  | some q =>
    rw [UniquePtrs.contents_of_ptr hx]
    exact reset_allocate h hx data

theorem assignCast_follows [DecidableEq τ] (h : s.Holding none) : Follows (assignCast s x data)
    ((s.contents x).bind fun v => v.bind fun old =>
      if old.1 = data.1 then some (update s.contents x (some (some data))) else none) := by
  rw [assignCast]
  cases hx : s.ptr x with
  | none =>
    rw [UniquePtrs.contents_eq_none.mpr hx]
    exact follows_none
  | some p =>
    rw [UniquePtrs.contents_of_ptr hx]
    cases p with
    | none => exact follows_none
    | some c =>
      obtain ⟨old, hold, -⟩ := h.contents_of_cell hx
      simp only [Option.bind_some, hold]
      by_cases htype : old.1 = data.1
      · rw [if_pos htype, if_pos htype]
        exact follows_some (h.put hx data).1 (h.put hx data).2
      · rw [if_neg htype, if_neg htype]
        exact follows_none

theorem destroy_follows (h : s.Holding none) : Follows (s.destroy x)
    ((s.contents x).map fun _ => update s.contents x none) := by
  cases hx : s.ptr x with
  | none =>
    rw [UniquePtrs.contents_eq_none.mpr hx, UniquePtrs.destroy, hx]
    exact follows_none
  | some q =>
    obtain ⟨s', hs', hholding, hcontents⟩ := h.destroy hx
    rw [UniquePtrs.contents_of_ptr hx, hs']
    exact follows_some hholding hcontents

/-! ## Runs -/

variable [DecidableEq τ]

/-- **Every operation does what it is meant to do**, if no empty object is copied over a value. -/
theorem step_follows (h : s.Holding none) {op : AnyOp ι V} (hgiven : SourceGiven s op) :
    Follows (step s op) (AnyValues.step s.contents op) := by
  cases op with
  | construct x => exact construct_follows h
  | constructCopy x that => exact constructCopy_follows h
  | constructMove x that => exact constructMove_follows h
  | constructData x data => exact constructData_follows h
  | assignCopy x that => exact assignCopy_follows h hgiven
  | assignMove x that => exact assignMove_follows h
  | assignData x data => exact assignData_follows h
  | assignCast x data => exact assignCast_follows h
  | destroy x => exact destroy_follows h

/-- **Copying an empty object over a value** changes nothing, and the value should go. -/
theorem step_of_not_sourceGiven (h : s.Holding none) {op : AnyOp ι V}
    (hgiven : ¬ SourceGiven s op) :
    step s op = some s ∧ AnyValues.step s.contents op ≠ some s.contents := by
  cases op with
  | assignCopy x that =>
    obtain ⟨hthat, data, hx⟩ : s.contents that = some none ∧ ∃ data,
        s.contents x = some (some data) := by
      simpa [SourceGiven] using hgiven
    -- the target has a pointer, and the one of the source is null
    obtain ⟨q, hq, -⟩ := Option.map_eq_some_iff.mp hx
    obtain ⟨p, hp, hpnone⟩ := Option.map_eq_some_iff.mp hthat
    have hnull : p = none := by
      cases p with
      | none => rfl
      | some c =>
        obtain ⟨a, ha, -⟩ := h.contents_of_cell hp
        rw [Option.bind_some, ha] at hpnone
        cases hpnone
    constructor
    · show assignCopy s x that = some s
      rw [assignCopy, hq, hp, hnull]
      rfl
    · show ((s.contents x).bind fun _ => (s.contents that).map fun v =>
        update s.contents x (some v)) ≠ some s.contents
      rw [hx, hthat, Option.bind_some, Option.map_some]
      intro heq
      have hself := congrFun (Option.some.inj heq) x
      rw [Function.update_self, hx] at hself
      cases hself
  | construct x => exact absurd trivial hgiven
  | constructCopy x that => exact absurd trivial hgiven
  | constructMove x that => exact absurd trivial hgiven
  | constructData x data => exact absurd trivial hgiven
  | assignMove x that => exact absurd trivial hgiven
  | assignData x data => exact absurd trivial hgiven
  | assignCast x data => exact absurd trivial hgiven
  | destroy x => exact absurd trivial hgiven

theorem step_holding (h : s.Holding none) {op : AnyOp ι V} {s' : Anys ι V}
    (hs : step s op = some s') : s'.Holding none := by
  by_cases hgiven : SourceGiven s op
  · exact (step_follows h hgiven).1 s' hs
  · rw [(step_of_not_sourceGiven h hgiven).1] at hs
    cases hs
    exact h

/-- What an operation does to the objects is what it is meant to do exactly if no empty object is
copied over a value. -/
theorem step_contents_iff (h : s.Holding none) {op : AnyOp ι V} :
    (step s op).map UniquePtrs.contents = AnyValues.step s.contents op ↔ SourceGiven s op := by
  by_cases hgiven : SourceGiven s op
  · exact iff_of_true (step_follows h hgiven).2 hgiven
  · obtain ⟨hstep, hne⟩ := step_of_not_sourceGiven h hgiven
    refine iff_of_false (fun heq => hne ?_) hgiven
    rw [← heq, hstep]
    rfl

/-- **When `Any` has value semantics.** Along every sequence of operations the objects are what they
are meant to be if and only if no empty object is assigned by copy to one with a value. -/
theorem prescribed_iff (ops : List (AnyOp ι V)) :
    Prescribed ops ↔ Runs.Guarded step SourceGiven UniquePtrs.empty ops :=
  Runs.views_iff_guarded (I := fun s : Anys ι V => s.Holding none) UniquePtrs.holding_empty
    (fun _ _ _ ht hs => step_holding ht hs) fun _ _ ht => step_contents_iff ht

/-- Types of data for the example: numbers and texts. -/
inductive DataType
  | int
  | string
deriving DecidableEq

/-- What their data are. -/
def DataType.Carrier : DataType → Type
  | .int => ℤ
  | .string => String

/-- `Any a(1); Any b; a = b;`: afterwards `b` is empty and `a` still has its value. -/
theorem not_prescribed_assignEmpty :
    ¬ Prescribed (V := DataType.Carrier) [.constructData true ⟨.int, (1 : ℤ)⟩, .construct false,
      .assignCopy true false] := by
  intro h
  have hend := congrArg (Option.map fun m => (m true).map Option.isNone) (h _ List.prefix_rfl)
  exact absurd hend (by decide)

end Any

end Muduo
