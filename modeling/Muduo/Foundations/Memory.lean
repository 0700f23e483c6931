import Mathlib.Data.List.Basic
import Mathlib.Tactic.Linarith

/-! # A flat memory

A memory gives a byte at each 64-bit address; address arithmetic wraps. `Memory.read mem p n` are
the `n` bytes from address `p` on. -/

namespace Muduo

/-- The bytes of an address space. -/
abbrev Memory := BitVec 64 → UInt8

namespace Memory

/-- The `n` bytes from address `p` on. -/
def read (mem : Memory) (p : BitVec 64) (n : ℕ) : List UInt8 :=
  (List.range n).map fun i => mem (p + BitVec.ofNat 64 i)

variable (mem : Memory) (p : BitVec 64)

@[simp] theorem length_read (n : ℕ) : (mem.read p n).length = n := by
  simp [read]

@[simp] theorem read_zero : mem.read p 0 = [] := rfl

/-- Reading on where a read ended. -/
theorem read_add (m n : ℕ) :
    mem.read p (m + n) = mem.read p m ++ mem.read (p + BitVec.ofNat 64 m) n := by
  rw [read, List.range_add, List.map_append, List.map_map]
  refine congrArg (mem.read p m ++ ·) (List.map_congr_left fun i _ => ?_)
  rw [Function.comp_apply, BitVec.ofNat_add, BitVec.add_assoc]

/-- The end of a read is a read. -/
theorem drop_read {m n : ℕ} (h : m ≤ n) :
    (mem.read p n).drop m = mem.read (p + BitVec.ofNat 64 m) (n - m) := by
  obtain ⟨k, rfl⟩ := Nat.exists_eq_add_of_le h
  rw [read_add, Nat.add_sub_cancel_left]
  exact List.drop_left' (mem.length_read p m)

end Memory

end Muduo
