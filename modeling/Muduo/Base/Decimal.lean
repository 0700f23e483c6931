import Muduo.Base.Bytes
import Mathlib.Algebra.Order.Ring.Int

/-! # Decimal numbers

What `std::to_string` and `printf` write of a number: digits, whose number is worth the number
(`decimal_toString`), and as many as it needs (`length_toString_le_iff`). -/

namespace Muduo

/-- A digit, as a character and as a byte. -/
theorem toNat_toUInt8 {c : Char} (h : c.isDigit = true) :
    48 ≤ c.toNat ∧ c.toNat ≤ 57 ∧ c.toUInt8.toNat = c.toNat := by
  have hbounds : 48 ≤ c.toNat ∧ c.toNat ≤ 57 := Char.isDigit_iff_toNat.mp h
  have hmod : c.toUInt8.toNat = c.toNat % 2 ^ 8 := UInt32.toNat_toUInt8 c.val
  omega

theorem isdigit_toUInt8 {c : Char} (h : c.isDigit = true) : isdigit c.toUInt8 = true := by
  obtain ⟨h1, h2, hc⟩ := toNat_toUInt8 h
  rw [isdigit, Bool.and_eq_true, decide_eq_true_eq, decide_eq_true_eq, UInt8.le_iff_toNat_le,
    UInt8.le_iff_toNat_le, hc]
  exact ⟨h1, h2⟩

/-- A run of digits is worth as much in bytes as in characters. -/
theorem decimal_map_toUInt8 {l : List Char} (h : ∀ c ∈ l, c.isDigit = true) :
    decimal (l.map Char.toUInt8) = Nat.ofDigitChars 10 l 0 := by
  rw [decimal, List.foldl_map, Nat.ofDigitChars_eq_foldl]
  generalize 0 = k
  induction l generalizing k with
  | nil => rfl
  | cons c l ih =>
    rw [List.forall_mem_cons] at h
    rw [List.foldl_cons, List.foldl_cons, ih h.2, (toNat_toUInt8 h.1).2.2]
    rfl

theorem ascii_toString (n : ℕ) :
    ascii (toString (n : ℤ)) = (Nat.toDigits 10 n).map Char.toUInt8 := by
  rw [← Nat.toList_repr]
  rfl

/-- What `std::to_string` writes is worth the number. -/
theorem decimal_toString (n : ℕ) : decimal (ascii (toString (n : ℤ))) = n := by
  have hdigit : ∀ c ∈ Nat.toDigits 10 n, c.isDigit = true := fun c hc =>
    Nat.isDigit_of_mem_toDigits (by omega) (Nat.le_refl 10) hc
  rw [ascii_toString, decimal_map_toUInt8 hdigit, Nat.ofDigitChars_ten_toDigits]

/-- Only digits are written. -/
theorem isdigit_of_mem_toString {n : ℕ} {c : UInt8} (h : c ∈ ascii (toString (n : ℤ))) :
    isdigit c = true := by
  rw [ascii_toString] at h
  obtain ⟨d, hd, rfl⟩ := List.mem_map.mp h
  exact isdigit_toUInt8 (Nat.isDigit_of_mem_toDigits (by omega) (Nat.le_refl 10) hd)

theorem toString_ne_nil (n : ℕ) : ascii (toString (n : ℤ)) ≠ [] := by
  rw [ascii_toString, Ne, List.map_eq_nil_iff]
  exact Nat.toDigits_ne_nil

/-- How many digits a number has. -/
theorem length_toString_le_iff {n k : ℕ} (hk : 0 < k) :
    (ascii (toString (n : ℤ))).length ≤ k ↔ n < 10 ^ k := by
  rw [ascii_toString, List.length_map]
  exact Nat.length_toDigits_le_iff (by omega) hk

end Muduo
