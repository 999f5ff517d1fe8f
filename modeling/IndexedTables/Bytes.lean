set_option autoImplicit false

namespace IndexedTables

/-- Byte strings, ordered lexicographically: a proper beginning comes first. -/
abbrev Bytes := List UInt8

instance : Std.IsLinearOrder Bytes := inferInstance

instance : Std.LawfulOrderLT Bytes := inferInstance

namespace Bytes

/-- The least string above every string that begins with the given one.
There is none above the strings that begin with a run of `0xff`. -/
def upperBound : Bytes → Option Bytes
  | [] => none
  | b :: rest =>
    match upperBound rest with
    | some bound => some (b :: bound)
    | none => if b < 0xff then some [b + 1] else none

@[simp] theorem upperBound_nil : upperBound [] = none := rfl

def ofText (s : String) : Bytes := s.toByteArray.data.toList

def toText? (b : Bytes) : Option String := String.fromUTF8? ⟨b.toArray⟩

theorem toText?_ofText (s : String) : toText? (ofText s) = some s := by
  cases s with
  | ofByteArray bytes valid => simp [toText?, ofText, String.fromUTF8?, String.fromUTF8, valid]

theorem ofText_of_toText? {b : Bytes} {s : String} (h : toText? b = some s) : ofText s = b := by
  unfold toText? String.fromUTF8? at h
  split at h
  · cases h; simp [ofText, String.fromUTF8]
  · cases h

def littleEndian : (width n : Nat) → Bytes
  | 0, _ => []
  | width + 1, n => UInt8.ofNat n :: littleEndian width (n / 256)

def littleValue : Bytes → Nat
  | [] => 0
  | b :: rest => b.toNat + 256 * littleValue rest

def bigEndian (width n : Nat) : Bytes := (littleEndian width n).reverse

def bigValue (b : Bytes) : Nat := littleValue b.reverse

@[simp] theorem length_littleEndian (width n : Nat) : (littleEndian width n).length = width := by
  induction width generalizing n with
  | zero => rfl
  | succ width ih => simp [littleEndian, ih]

@[simp] theorem length_bigEndian (width n : Nat) : (bigEndian width n).length = width := by
  simp [bigEndian]

theorem littleEndian_littleValue (b : Bytes) : littleEndian b.length (littleValue b) = b := by
  induction b with
  | nil => rfl
  | cons b rest ih =>
    have hb := UInt8.toNat_lt b
    have hq : (b.toNat + 256 * littleValue rest) / 256 = littleValue rest := by omega
    have hr : UInt8.ofNat (b.toNat + 256 * littleValue rest) = b := by
      apply UInt8.toNat.inj
      simp
    simp only [List.length_cons, littleValue, littleEndian, hq, hr, ih]

end Bytes

end IndexedTables
