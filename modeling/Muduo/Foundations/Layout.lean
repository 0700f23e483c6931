import Mathlib.Data.List.Basic
import Mathlib.Tactic.Linarith

/-! # Fields of an object

An object is the bytes at its offsets, and a field is a range of offsets. Several layouts may share
one object, as in a union.

* **`Layout.read_write_self`**: what was written is read back;
* **`Layout.read_write_of_apart`**: fields that do not overlap are independent;
* **`Layout.read_write_of_le`**: a field inside of what was written holds a part of it. -/

namespace Muduo

namespace Layout

variable {α : Type*}

/-- The bytes of an object, by offset. -/
abbrev Object (α : Type*) := ℕ → α

/-- A range of offsets. -/
structure Field where
  /-- Offset of the first byte. -/
  offset : ℕ
  /-- Number of bytes. -/
  size : ℕ
deriving DecidableEq

/-- The fields have no byte in common. -/
def Field.Apart (f g : Field) : Prop :=
  f.offset + f.size ≤ g.offset ∨ g.offset + g.size ≤ f.offset

instance (f g : Field) : Decidable (f.Apart g) :=
  inferInstanceAs (Decidable (_ ∨ _))

/-- The bytes in a field. -/
def read (m : Object α) (f : Field) : List α := (List.range f.size).map fun i => m (f.offset + i)

/-- Write the bytes `s` from offset `k` on. -/
def write (m : Object α) (k : ℕ) (s : List α) : Object α := fun i =>
  if k ≤ i then (s[i - k]?).getD (m i) else m i

variable (m : Object α)

@[simp] theorem length_read (f : Field) : (read m f).length = f.size := by
  rw [read, List.length_map, List.length_range]

theorem getElem?_read {f : Field} {i : ℕ} (hi : i < f.size) :
    (read m f)[i]? = some (m (f.offset + i)) := by
  rw [read, List.getElem?_map, List.getElem?_range hi, Option.map_some]

/-- Offsets outside of what is written stay as they are. -/
theorem write_of_outside {k i : ℕ} {s : List α} (h : i < k ∨ k + s.length ≤ i) :
    write m k s i = m i := by
  rw [write]
  split_ifs with hk
  · rw [List.getElem?_eq_none (by omega), Option.getD_none]
  · rfl

/-- The offset of a byte that is written. -/
theorem write_of_inside {k i : ℕ} {s : List α} (hi : i < s.length) :
    write m k s (k + i) = s[i] := by
  rw [write, if_pos (Nat.le_add_right k i), Nat.add_sub_cancel_left, List.getElem?_eq_getElem hi,
    Option.getD_some]

/-- **A field inside of what was written** holds a part of it. -/
theorem read_write_of_le {f : Field} {k : ℕ} {s : List α} (hk : k ≤ f.offset)
    (hs : f.offset + f.size ≤ k + s.length) :
    read (write m k s) f = (s.drop (f.offset - k)).take f.size := by
  refine List.ext_getElem? fun i => ?_
  by_cases hi : i < f.size
  · have hin : f.offset - k + i < s.length := by omega
    have hoff : f.offset + i = k + (f.offset - k + i) := by omega
    rw [getElem?_read _ hi, hoff, write_of_inside m hin, List.getElem?_take_of_lt hi,
      List.getElem?_drop, List.getElem?_eq_getElem hin]
  · have hleft : (read (write m k s) f).length ≤ i := by
      rw [length_read]
      omega
    have hright : ((s.drop (f.offset - k)).take f.size).length ≤ i := by
      rw [List.length_take]
      omega
    rw [List.getElem?_eq_none hleft, List.getElem?_eq_none hright]

/-- **What was written is read back.** -/
theorem read_write_self {f : Field} {s : List α} (hs : s.length = f.size) :
    read (write m f.offset s) f = s := by
  rw [read_write_of_le m le_rfl (by omega), Nat.sub_self, List.drop_zero, ← hs, List.take_length]

/-- **Fields that do not overlap** are independent. -/
theorem read_write_of_apart {f : Field} {k : ℕ} {s : List α} (h : f.Apart ⟨k, s.length⟩) :
    read (write m k s) f = read m f := by
  refine List.map_congr_left fun i hi => ?_
  have hi' : i < f.size := List.mem_range.mp hi
  refine write_of_outside m ?_
  rcases h with h | h
  · exact .inl (by simp only at h; omega)
  · exact .inr (by simp only at h; omega)

/-- A field in two parts. -/
theorem read_add (k a b : ℕ) : read m ⟨k, a + b⟩ = read m ⟨k, a⟩ ++ read m ⟨k + a, b⟩ := by
  simp only [read]
  rw [List.range_add, List.map_append, List.map_map]
  refine congrArg (_ ++ ·) (List.map_congr_left fun i _ => ?_)
  rw [Function.comp_apply, Nat.add_assoc]

end Layout

end Muduo
