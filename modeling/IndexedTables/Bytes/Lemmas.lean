import Mathlib.Algebra.Group.Nat.Defs
import IndexedTables.Bytes
set_option autoImplicit false

namespace IndexedTables.Bytes

theorem littleValue_littleEndian (width n : Nat) :
    littleValue (littleEndian width n) = n % 256 ^ width := by
  induction width generalizing n with
  | zero => simp [littleEndian, littleValue, Nat.mod_one]
  | succ width ih =>
    have h : (UInt8.ofNat n).toNat = n % 256 := by simp
    rw [littleEndian, littleValue, ih, h, Nat.pow_succ, Nat.mul_comm (256 ^ width), Nat.mod_mul]

theorem littleValue_littleEndian_of_lt {width n : Nat} (h : n < 256 ^ width) :
    littleValue (littleEndian width n) = n := by
  rw [littleValue_littleEndian, Nat.mod_eq_of_lt h]

theorem bigValue_bigEndian (width n : Nat) : bigValue (bigEndian width n) = n % 256 ^ width := by
  simp [bigValue, bigEndian, littleValue_littleEndian]

theorem littleValue_lt (b : Bytes) : littleValue b < 256 ^ b.length := by
  induction b with
  | nil => simp [littleValue]
  | cons b rest ih =>
    have hb := UInt8.toNat_lt b
    simp only [littleValue, List.length_cons, Nat.pow_succ]
    omega

theorem littleValue_lt_of_length_le {b : Bytes} {width : Nat} (h : b.length ≤ width) :
    littleValue b < 256 ^ width :=
  Nat.lt_of_lt_of_le (littleValue_lt b) (Nat.pow_le_pow_right (by decide) h)

theorem bigValue_lt (b : Bytes) : bigValue b < 256 ^ b.length := by
  simpa [bigValue] using littleValue_lt b.reverse

theorem bigEndian_bigValue (b : Bytes) : bigEndian b.length (bigValue b) = b := by
  have h := littleEndian_littleValue b.reverse
  rw [List.length_reverse] at h
  rw [bigEndian, bigValue, h, List.reverse_reverse]

end IndexedTables.Bytes
