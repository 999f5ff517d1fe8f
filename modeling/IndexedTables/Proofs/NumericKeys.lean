import IndexedTables.Bytes.Lemmas
import IndexedTables.NumericKey
import IndexedTables.Proofs.ByteOrder
set_option autoImplicit false

namespace IndexedTables

namespace Bytes

theorem littleValue_append (a b : Bytes) :
    littleValue (a ++ b) = littleValue a + 256 ^ a.length * littleValue b := by
  induction a with
  | nil => simp [littleValue]
  | cons x xs ih =>
    rw [List.cons_append, littleValue, ih, littleValue, List.length_cons, Nat.pow_succ,
      Nat.mul_add, ← Nat.mul_assoc, Nat.mul_comm 256 (256 ^ _), Nat.add_assoc]

theorem bigValue_cons (b : UInt8) (rest : Bytes) :
    bigValue (b :: rest) = bigValue rest + 256 ^ rest.length * b.toNat := by
  rw [bigValue, List.reverse_cons, littleValue_append, List.length_reverse, bigValue]
  simp [littleValue]

theorem lt_of_digit_lt {width m n x y : Nat} (hm : m < width) (h : x < y) :
    m + width * x < n + width * y := by
  have hstep : width * (x + 1) ≤ width * y := Nat.mul_le_mul_left width h
  rw [Nat.mul_add, Nat.mul_one] at hstep
  omega

theorem lt_iff_bigValue_lt {a b : Bytes} (h : a.length = b.length) :
    a < b ↔ bigValue a < bigValue b := by
  induction a generalizing b with
  | nil =>
    cases List.length_eq_zero_iff.1 h.symm
    exact iff_of_false Std.lt_irrefl (Nat.lt_irrefl _)
  | cons x xs ih =>
    cases b with
    | nil => simp at h
    | cons y ys =>
      have hlength : xs.length = ys.length := Nat.succ.inj h
      have hxs := bigValue_lt xs
      have hys := bigValue_lt ys
      rw [hlength] at hxs
      rw [List.cons_lt_cons_iff, ih hlength, bigValue_cons, bigValue_cons, hlength,
        UInt8.lt_iff_toNat_lt, ← UInt8.toNat_inj]
      rcases Nat.lt_trichotomy x.toNat y.toNat with below | same | above
      · exact iff_of_true (.inl below) (lt_of_digit_lt hxs below)
      · simp [same]
      · have hgt := @lt_of_digit_lt _ _ (bigValue xs) _ _ hys above
        exact iff_of_false (by omega) (Nat.lt_asymm hgt)

/-- What follows the keys counts only where these are the same. -/
theorem append_lt_append_iff_of_length {a b : Bytes} (h : a.length = b.length) (s t : Bytes) :
    a ++ s < b ++ t ↔ a < b ∨ a = b ∧ s < t := by
  induction a generalizing b with
  | nil =>
    cases List.length_eq_zero_iff.1 h.symm
    simp
  | cons x xs ih =>
    cases b with
    | nil => simp at h
    | cons y ys =>
      rw [List.cons_append, List.cons_append, List.cons_lt_cons_iff, List.cons_lt_cons_iff,
        ih (Nat.succ.inj h), List.cons_eq_cons]
      grind

end Bytes

theorem bigValue_numericKey (n : UInt64) : Bytes.bigValue (numericKey n) = n.toNat := by
  have hn := UInt64.toNat_lt n
  rw [numericKey, Bytes.bigValue_bigEndian]
  omega

@[simp] theorem length_numericKey (n : UInt64) : (numericKey n).length = 8 :=
  Bytes.length_bigEndian 8 n.toNat

theorem numericKey_ne_nil (n : UInt64) : numericKey n ≠ [] :=
  List.ne_nil_of_length_pos (by simp)

theorem numericKey_injective {m n : UInt64} (h : numericKey m = numericKey n) : m = n := by
  have hvalue := congrArg Bytes.bigValue h
  rw [bigValue_numericKey, bigValue_numericKey] at hvalue
  exact UInt64.toNat.inj hvalue

theorem numericKey_lt_iff (m n : UInt64) : numericKey m < numericKey n ↔ m < n := by
  rw [Bytes.lt_iff_bigValue_lt (by simp), bigValue_numericKey, bigValue_numericKey,
    UInt64.lt_iff_toNat_lt]

theorem numericKey_le_iff (m n : UInt64) : numericKey m ≤ numericKey n ↔ m ≤ n := by
  rw [← Std.not_lt, numericKey_lt_iff, UInt64.not_lt]

theorem numberOfKey_numericKey (n : UInt64) : numberOfKey (numericKey n) = .ok n := by
  rw [numberOfKey, if_pos (length_numericKey n), bigValue_numericKey, UInt64.ofNat_toNat]

theorem numericKey_of_length {key : Bytes} (h : key.length = 8) :
    numericKey (UInt64.ofNat (Bytes.bigValue key)) = key := by
  have bound := Bytes.bigValue_lt key
  rw [h] at bound
  rw [numericKey, UInt64.toNat_ofNat_of_lt' bound, ← h, Bytes.bigEndian_bigValue]

theorem eq_numericKey_of_number {key : Bytes} {n : UInt64} (h : numberOfKey key = .ok n) :
    key = numericKey n := by
  unfold numberOfKey at h
  split at h
  · next hlength =>
    cases h
    exact (numericKey_of_length hlength).symm
  · cases h

namespace KeyRange

theorem contains_ofNumbers (first last n : UInt64) :
    (ofNumbers first last).contains (numericKey n) ↔ first ≤ n ∧ n < last := by
  rw [contains_iff]
  simp [ofNumbers, numericKey_le_iff, numericKey_lt_iff]

theorem inverted_ofNumbers (first last : UInt64) :
    (ofNumbers first last).inverted = decide (last ≤ first) := by
  rw [Bool.eq_iff_iff]
  simp [ofNumbers, inverted, numericKey_le_iff]

theorem not_inverted_ofNumbers {first last : UInt64} (h : first < last) :
    (ofNumbers first last).inverted = false := by
  simpa [inverted_ofNumbers] using h

end KeyRange

end IndexedTables
