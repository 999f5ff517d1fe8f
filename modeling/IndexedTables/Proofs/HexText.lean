import IndexedTables.Bytes.Hex
set_option autoImplicit false

namespace IndexedTables

theorem Bytes.ofText_ofList {text : List Char} (h : ∀ c ∈ text, c.toNat < 128) :
    ofText (String.ofList text) = text.map fun c => c.toNat.toUInt8 := by
  have encoded : ofText (String.ofList text) = text.flatMap String.utf8EncodeChar := by
    simp [ofText, List.utf8Encode]
  rw [encoded]
  induction text with
  | nil => rfl
  | cons c rest ih =>
    obtain ⟨hc, hrest⟩ := List.forall_mem_cons.1 h
    have small : c.val.toNat ≤ 127 := Nat.le_of_lt_succ hc
    rw [List.flatMap_cons, ih hrest (by simp [ofText, List.utf8Encode])]
    simp only [String.utf8EncodeChar, small, if_true]
    rfl

namespace Hex

theorem value?_digit : ∀ n < 16,
    value? ((digit n).toNat.toUInt8) = some (UInt8.ofNat n) := by decide

theorem digit_lt : ∀ n < 16, (digit n).toNat < 128 := by decide

theorem digit_ne_x : ∀ n < 16, digit n ≠ 'x' := by decide

theorem exists_digit {b : Bytes} {c : Char} (h : c ∈ b.flatMap ofByte) : ∃ n < 16, c = digit n := by
  obtain ⟨byte, -, hc⟩ := List.mem_flatMap.1 h
  have hbyte := UInt8.toNat_lt byte
  simp only [ofByte, List.mem_cons, List.not_mem_nil, or_false] at hc
  rcases hc with rfl | rfl
  · exact ⟨byte.toNat / 16, by omega, rfl⟩
  · exact ⟨byte.toNat % 16, by omega, rfl⟩

theorem decodeFrom_digits (position : Nat) (b : Bytes) :
    decodeFrom position ((b.flatMap ofByte).map fun c => c.toNat.toUInt8) = .ok b := by
  induction b generalizing position with
  | nil => rfl
  | cons byte rest ih =>
    have hbyte := UInt8.toNat_lt byte
    have high := value?_digit (byte.toNat / 16) (by omega)
    have low := value?_digit (byte.toNat % 16) (by omega)
    have whole : UInt8.ofNat (byte.toNat / 16) * 16 + UInt8.ofNat (byte.toNat % 16) = byte := by
      apply UInt8.toNat.inj
      simp
      omega
    simp only [List.flatMap_cons, ofByte, List.cons_append, List.nil_append, List.map_cons,
      decodeFrom, high, low, ih, whole]
    rfl

theorem decode_encode (b : Bytes) : decode (encode b) = .ok b := by
  have small : ∀ c ∈ b.flatMap ofByte, c.toNat < 128 := by
    intro c hc
    obtain ⟨n, hn, rfl⟩ := exists_digit hc
    exact digit_lt n hn
  have even : (b.flatMap ofByte).length % 2 = 0 := by
    simp [List.length_flatMap, ofByte, List.map_const']
  rw [decode, encode, Bytes.ofText_ofList small]
  simp only [List.length_map, even, decodeFrom_digits]
  rfl

end Hex

end IndexedTables
