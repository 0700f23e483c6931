import Mathlib.Data.Nat.Notation
import Mathlib.Data.Option.Basic
import Mathlib.Logic.Function.Basic

/-! # Objects that own a cell

Objects with one `unique_ptr` each, over a heap of cells. An object is not alive, or its pointer is
null or the number of a cell. A temporary may hold one more pointer, between the time when a cell is
made or released and the time when it gets a new owner: `UniquePtrs.Holding s p` says that no cell
has two owners, that no pointer dangles, and that the temporary `p` is the only owner of its cell.

What an object is worth is the content of its cell (`UniquePtrs.contents`). Under the invariant an
operation changes what one object is worth:

* **`Holding.allocate`**: the temporary gets a new cell;
* **`Holding.setPtr`**: an object and the temporary exchange their pointers;
* **`Holding.delete`**: the cell of the temporary goes;
* **`Holding.put`**: a cell is assigned to;
* **`Holding.reset`**, `Holding.release` and `Holding.destroy` are made of these. -/

namespace Muduo

open Function (update)

/-- Objects `ι` whose pointers own cells with contents `α`. -/
structure UniquePtrs (ι α : Type*) where
  /-- The pointer of each object that is alive. -/
  ptr : ι → Option (Option ℕ)
  /-- The cells that have been allocated and not deleted. -/
  heap : ℕ → Option α
  /-- The cell that is allocated next. -/
  next : ℕ

namespace UniquePtrs

variable {ι α : Type*}

/-- No object is alive. -/
def empty : UniquePtrs ι α := ⟨fun _ => none, fun _ => none, 0⟩

/-- What each object that is alive is worth. -/
def contents (s : UniquePtrs ι α) (x : ι) : Option (Option α) :=
  (s.ptr x).map fun p => p.bind s.heap

/-- `new`: a cell with content `a`. -/
def allocate (s : UniquePtrs ι α) (a : α) : ℕ × UniquePtrs ι α :=
  (s.next, { s with heap := update s.heap s.next (some a), next := s.next + 1 })

/-- `delete p`; a cell is not deleted twice. -/
def delete (s : UniquePtrs ι α) : Option ℕ → Option (UniquePtrs ι α)
  | none => some s
  | some c => if (s.heap c).isSome then some { s with heap := update s.heap c none } else none

/-- Assign to the cell `c`. -/
def put (s : UniquePtrs ι α) (c : ℕ) (a : α) : UniquePtrs ι α :=
  { s with heap := update s.heap c (some a) }

/-! ## The invariant -/

/-- No cell has two owners and no pointer dangles; `p` is the pointer of a temporary. -/
structure Holding (s : UniquePtrs ι α) (p : Option ℕ) : Prop where
  /-- The cell of an object is there. -/
  alive : ∀ x c, s.ptr x = some (some c) → (s.heap c).isSome
  /-- A cell has one owner. -/
  unique : ∀ x y c, s.ptr x = some (some c) → s.ptr y = some (some c) → x = y
  /-- New cells are new. -/
  fresh : ∀ c, (s.heap c).isSome → c < s.next
  /-- The cell of the temporary is there. -/
  held : ∀ c, p = some c → (s.heap c).isSome
  /-- It is not the cell of an object. -/
  apart : ∀ x c, p = some c → s.ptr x ≠ some (some c)

variable {s : UniquePtrs ι α} {p : Option ℕ} {x : ι}

theorem holding_empty : (empty : UniquePtrs ι α).Holding none := by
  constructor
  all_goals simp [empty]

theorem contents_eq_none : s.contents x = none ↔ s.ptr x = none := Option.map_eq_none_iff

theorem contents_of_ptr {p : Option ℕ} (h : s.ptr x = some p) :
    s.contents x = some (p.bind s.heap) := by
  rw [contents, h, Option.map_some]

/-- Under the invariant an object is worth something exactly if its pointer is not null. -/
theorem Holding.contents_of_cell (h : s.Holding p) {c : ℕ} (hx : s.ptr x = some (some c)) :
    ∃ a, s.heap c = some a ∧ s.contents x = some (some a) := by
  obtain ⟨a, ha⟩ := Option.isSome_iff_exists.mp (h.alive x c hx)
  exact ⟨a, ha, by rw [contents_of_ptr hx, Option.bind_some, ha]⟩

/-- What an object is worth depends on its pointer and its cell. -/
theorem contents_congr {s' : UniquePtrs ι α} (hptr : s'.ptr x = s.ptr x)
    (hheap : ∀ c, s.ptr x = some (some c) → s'.heap c = s.heap c) :
    s'.contents x = s.contents x := by
  rw [contents, contents, hptr]
  cases hx : s.ptr x with
  | none => rfl
  | some q =>
    cases q with
    | none => rfl
    | some c => exact congrArg some (hheap c hx)

/-! ## The heap -/

/-- **`new`** changes nothing of the objects. -/
theorem Holding.allocate (h : s.Holding none) (a : α) :
    (s.allocate a).2.Holding (some (s.allocate a).1) ∧
      (s.allocate a).2.contents = s.contents ∧
      (s.allocate a).2.heap (s.allocate a).1 = some a := by
  -- the new cell is not one that is there already
  have hnew : ∀ c, (s.heap c).isSome → c ≠ s.next := fun c hc => Nat.ne_of_lt (h.fresh c hc)
  have hold : ∀ c, (s.heap c).isSome → update s.heap s.next (some a) c = s.heap c :=
    fun c hc => Function.update_of_ne (hnew c hc) _ _
  refine ⟨⟨fun x c hx => ?_, h.unique, fun c hc => ?_, fun c hc => ?_, fun x c hc hx => ?_⟩, ?_,
    Function.update_self _ _ _⟩
  · show (update s.heap s.next (some a) c).isSome
    rw [hold c (h.alive x c hx)]
    exact h.alive x c hx
  · have hc' : (update s.heap s.next (some a) c).isSome := hc
    by_cases hn : c = s.next
    · exact hn ▸ Nat.lt_succ_self _
    · rw [Function.update_of_ne hn] at hc'
      exact Nat.lt_succ_of_lt (h.fresh c hc')
  · cases hc
    exact Option.isSome_iff_exists.mpr ⟨a, Function.update_self _ _ _⟩
  · cases hc
    exact hnew _ (h.alive x _ hx) rfl
  · funext x
    exact contents_congr rfl fun c hc => hold c (h.alive x c hc)

/-- **`delete`** of what no object owns changes nothing of the objects. -/
theorem Holding.delete (h : s.Holding p) :
    ∃ s', s.delete p = some s' ∧ s'.Holding none ∧ s'.contents = s.contents := by
  cases p with
  | none => exact ⟨s, rfl, h, rfl⟩
  | some c₀ =>
    have hkeep : ∀ y c, s.ptr y = some (some c) → update s.heap c₀ none c = s.heap c := by
      intro y c hy
      refine Function.update_of_ne ?_ _ _
      rintro rfl
      exact h.apart y c rfl hy
    refine ⟨{ s with heap := update s.heap c₀ none }, if_pos (h.held c₀ rfl), ?_, ?_⟩
    · constructor
      case alive =>
        intro y c hy
        show (update s.heap c₀ none c).isSome
        rw [hkeep y c hy]
        exact h.alive y c hy
      case unique => exact h.unique
      case fresh =>
        intro c hc
        have hc' : (update s.heap c₀ none c).isSome := hc
        by_cases hcc : c = c₀
        · rw [hcc, Function.update_self] at hc'
          exact absurd hc' Bool.false_ne_true
        · rw [Function.update_of_ne hcc] at hc'
          exact h.fresh c hc'
      case held => nofun
      case apart => nofun
    · funext y
      exact contents_congr rfl fun c hc => hkeep y c hc

/-! ## The objects -/

variable [DecidableEq ι]

/-- The object `x` is not alive, or alive with a pointer. -/
def setPtr (s : UniquePtrs ι α) (x : ι) (v : Option (Option ℕ)) : UniquePtrs ι α :=
  { s with ptr := update s.ptr x v }

/-- `unique_ptr::reset(p)`. -/
def reset (s : UniquePtrs ι α) (x : ι) (p : Option ℕ) : Option (UniquePtrs ι α) :=
  (s.ptr x).bind fun old => (s.setPtr x (some p)).delete old

/-- `unique_ptr::release()`. -/
def release (s : UniquePtrs ι α) (x : ι) : Option (Option ℕ × UniquePtrs ι α) :=
  (s.ptr x).map fun p => (p, s.setPtr x (some none))

/-- The end of an object. -/
def destroy (s : UniquePtrs ι α) (x : ι) : Option (UniquePtrs ι α) :=
  (s.ptr x).bind fun p => (s.setPtr x none).delete p

/-- **An object and the temporary** exchange their pointers. -/
theorem Holding.setPtr (h : s.Holding p) (x : ι) {v : Option (Option ℕ)} (hv : v.join = p) :
    (s.setPtr x v).Holding (s.ptr x).join ∧
      (s.setPtr x v).contents = update s.contents x (v.map fun q => q.bind s.heap) := by
  subst hv
  have hself : (s.setPtr x v).ptr x = v := Function.update_self _ _ _
  have hother : ∀ y, y ≠ x → (s.setPtr x v).ptr y = s.ptr y := fun y hy =>
    Function.update_of_ne hy _ _
  -- the owner of a cell is `x`, by what the temporary gave it, or an object that had it before
  have hptr : ∀ y c, (s.setPtr x v).ptr y = some (some c) →
      y = x ∧ v.join = some c ∨ y ≠ x ∧ s.ptr y = some (some c) := by
    intro y c hy
    by_cases hyx : y = x
    · subst hyx
      rw [hself] at hy
      exact .inl ⟨rfl, by rw [hy]; rfl⟩
    · rw [hother y hyx] at hy
      exact .inr ⟨hyx, hy⟩
  constructor
  · constructor
    case alive =>
      intro y c hy
      rcases hptr y c hy with ⟨-, hp⟩ | ⟨-, hy'⟩
      · exact h.held c hp
      · exact h.alive y c hy'
    case unique =>
      intro y z c hy hz
      rcases hptr y c hy with ⟨hyx, hp⟩ | ⟨-, hy'⟩
      · rcases hptr z c hz with ⟨hzx, -⟩ | ⟨-, hz'⟩
        · rw [hyx, hzx]
        · exact absurd hz' (h.apart z c hp)
      · rcases hptr z c hz with ⟨-, hp⟩ | ⟨-, hz'⟩
        · exact absurd hy' (h.apart y c hp)
        · exact h.unique y z c hy' hz'
    case fresh => exact h.fresh
    case held => exact fun c hc => h.alive x c (Option.join_eq_some_iff.mp hc)
    case apart =>
      intro y c hc hy
      have hx : s.ptr x = some (some c) := Option.join_eq_some_iff.mp hc
      rcases hptr y c hy with ⟨-, hp⟩ | ⟨hyx, hy'⟩
      · exact h.apart x c hp hx
      · exact hyx (h.unique y x c hy' hx)
  · funext y
    by_cases hyx : y = x
    · subst hyx
      rw [Function.update_self, contents, hself]
      rfl
    · rw [Function.update_of_ne hyx]
      exact contents_congr (hother y hyx) fun _ _ => rfl

/-- **Assigning to a cell** changes what its owner is worth. -/
theorem Holding.put (h : s.Holding none) {c : ℕ} (hx : s.ptr x = some (some c)) (a : α) :
    (s.put c a).Holding none ∧ (s.put c a).contents = update s.contents x (some (some a)) := by
  have hsome : ∀ d, (s.heap d).isSome → (update s.heap c (some a) d).isSome := by
    intro d hd
    by_cases hdc : d = c
    · rw [hdc, Function.update_self]
      rfl
    · rwa [Function.update_of_ne hdc]
  constructor
  · constructor
    case alive => exact fun y d hy => hsome d (h.alive y d hy)
    case unique => exact h.unique
    case fresh =>
      intro d hd
      have hd' : (update s.heap c (some a) d).isSome := hd
      by_cases hdc : d = c
      · exact hdc ▸ h.fresh c (h.alive x c hx)
      · rw [Function.update_of_ne hdc] at hd'
        exact h.fresh d hd'
    case held => nofun
    case apart => nofun
  · funext y
    by_cases hyx : y = x
    · subst hyx
      have hptr : (s.put c a).ptr y = some (some c) := hx
      rw [Function.update_self, contents_of_ptr hptr]
      exact congrArg some (Function.update_self _ _ _)
    · rw [Function.update_of_ne hyx]
      refine contents_congr rfl fun d hd => Function.update_of_ne ?_ _ _
      rintro rfl
      exact hyx (h.unique y x d hd hx)

/-- **`reset`** gives the cell of a temporary to the object; its own one goes. -/
theorem Holding.reset (h : s.Holding p) {q : Option ℕ} (hx : s.ptr x = some q) :
    ∃ s', s.reset x p = some s' ∧ s'.Holding none ∧
      s'.contents = update s.contents x (some (p.bind s.heap)) := by
  obtain ⟨hset, hcontents⟩ := h.setPtr x (v := some p) rfl
  rw [hx] at hset
  obtain ⟨s', hs', hholding, hsame⟩ := hset.delete
  exact ⟨s', by rw [UniquePtrs.reset, hx]; exact hs', hholding, hsame.trans hcontents⟩

/-- **`release`** empties the object, and its cell goes to a temporary. -/
theorem Holding.release (h : s.Holding none) {q : Option ℕ} (hx : s.ptr x = some q) :
    ∃ s', s.release x = some (q, s') ∧ s'.Holding q ∧ s'.heap = s.heap ∧
      s'.ptr = update s.ptr x (some none) ∧ s'.contents = update s.contents x (some none) := by
  obtain ⟨hset, hcontents⟩ := h.setPtr x (v := some none) rfl
  rw [hx] at hset
  exact ⟨_, by rw [UniquePtrs.release, hx]; rfl, hset, rfl, rfl, hcontents⟩

/-- **The end of an object** is the end of its cell. -/
theorem Holding.destroy (h : s.Holding none) {q : Option ℕ} (hx : s.ptr x = some q) :
    ∃ s', s.destroy x = some s' ∧ s'.Holding none ∧ s'.contents = update s.contents x none := by
  obtain ⟨hset, hcontents⟩ := h.setPtr x (v := none) rfl
  rw [hx] at hset
  obtain ⟨s', hs', hholding, hsame⟩ := hset.delete
  exact ⟨s', by rw [UniquePtrs.destroy, hx]; exact hs', hholding, hsame.trans hcontents⟩

end UniquePtrs

end Muduo
