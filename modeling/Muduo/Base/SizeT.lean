import Mathlib.Algebra.Order.Ring.Int
import Mathlib.Data.Nat.Cast.Basic
import Mathlib.Tactic.Linarith

/-! # `size_t`

Unsigned arithmetic of 64 bits: an expression is computed exactly and wrapped once. -/

namespace Muduo

/-- The value of a `size_t` expression whose exact value is `z`: a difference below zero wraps. -/
def sizeT (z : ℤ) : ℕ := if 0 ≤ z then z.toNat else (z + 2 ^ 64).toNat

@[simp] theorem sizeT_natCast (n : ℕ) : sizeT n = n := by
  simp [sizeT]

theorem sizeT_sub {m n : ℕ} (h : n ≤ m) : sizeT ((m : ℤ) - n) = m - n := by
  rw [← Nat.cast_sub h, sizeT_natCast]

end Muduo
