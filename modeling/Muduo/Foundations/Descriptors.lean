import Mathlib.Data.Nat.Notation
import Mathlib.Logic.Function.Basic

/-! # Descriptor tables

The open descriptors of a process, each with its owner. The kernel gives out a number that is not
open, and closes whatever is open under the number that it is told.

The rules are **`keeps_assign`**, what is open stays so when a number is given out, and
**`keeps_close`**, a close that does not name an owner's descriptor leaves it open. -/

namespace Muduo

/-- The owner of every open descriptor. -/
abbrev Descriptors (ω : Type*) := ℕ → Option ω

namespace Descriptors

variable {ω : Type*}

/-- The number `fd` is given to `o`, if it is not open. -/
def assign (t : Descriptors ω) (fd : ℕ) (o : ω) : Option (Descriptors ω) :=
  if (t fd).isNone then some (Function.update t fd (some o)) else none

/-- `close(fd)`. -/
def close (t : Descriptors ω) (fd : ℕ) : Descriptors ω := Function.update t fd none

variable {t t' : Descriptors ω} {fd n : ℕ} {o p : ω}

theorem assign_eq_some :
    t.assign fd o = some t' ↔ t fd = none ∧ t' = Function.update t fd (some o) := by
  rw [assign, Option.ite_none_right_eq_some, Option.isNone_iff_eq_none, Option.some_inj]
  exact and_congr_right fun _ => eq_comm

theorem assign_self (h : t.assign fd o = some t') : t' fd = some o := by
  obtain ⟨-, rfl⟩ := assign_eq_some.mp h
  exact Function.update_self _ _ _

/-- **The kernel never gives out a number that is open.** -/
theorem keeps_assign (h : t.assign fd o = some t') (hn : t n = some p) : t' n = some p := by
  obtain ⟨hfree, rfl⟩ := assign_eq_some.mp h
  have hne : n ≠ fd := by
    rintro rfl
    cases hfree.symm.trans hn
  rw [Function.update_of_ne hne]
  exact hn

@[simp] theorem close_self : t.close fd fd = none := Function.update_self _ _ _

/-- **A close of somebody else's descriptor** leaves one's own open. -/
theorem keeps_close (ho : t fd ≠ some p) (hn : t n = some p) : t.close fd n = some p := by
  have hne : n ≠ fd := by
    rintro rfl
    exact ho hn
  rw [close, Function.update_of_ne hne]
  exact hn

end Descriptors

end Muduo
