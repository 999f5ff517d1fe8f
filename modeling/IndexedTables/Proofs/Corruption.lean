import Mathlib.Logic.Function.Iterate
import IndexedTables.Proofs.Snapshots
/-!
Snapshots with one byte changed. Each step of the checksum can be undone, given the byte, and tells
bytes apart, given the remainder; so a single changed record byte changes the checksum. A changed
byte in front of the records, or behind them, contradicts what they count and sum up.
-/
set_option autoImplicit false

namespace IndexedTables

namespace Checksum

theorem toNat_half (c : UInt32) : (c >>> 1).toNat = c.toNat / 2 := by
  simp [UInt32.toNat_shiftRight, Nat.shiftRight_eq_div_pow]

theorem odd_iff (c : UInt32) : c &&& 1 = 1 ↔ c.toNat % 2 = 1 := by
  rw [← UInt32.toNat_inj, UInt32.toNat_and]
  exact Nat.and_one_is_mod _ ▸ Iff.rfl

/-- The top bit of the polynomial is set, that of a remainder that was moved down is not. -/
theorem half_xor_ne (c d : UInt32) : (c >>> 1) ^^^ (0xedb88320 : UInt32) ≠ d >>> 1 := by
  intro h
  have hpoly : (0xedb88320 : UInt32) = (c >>> 1) ^^^ (d >>> 1) := by
    rw [← h, ← UInt32.xor_assoc, UInt32.xor_self, UInt32.zero_xor]
  have hc := UInt32.toNat_lt c
  have hd := UInt32.toNat_lt d
  have low : ((c >>> 1) ^^^ (d >>> 1)).toNat < 2 ^ 31 := by
    rw [UInt32.toNat_xor, toNat_half, toNat_half]
    exact Nat.xor_lt_two_pow (by omega) (by omega)
  rw [← hpoly] at low
  exact absurd low (by decide)

theorem shift_injective : Function.Injective shift := by
  intro c d h
  unfold shift at h
  have hparity : c &&& 1 = 1 ↔ d &&& 1 = 1 := by
    by_cases hc : c &&& 1 = 1 <;> by_cases hd : d &&& 1 = 1
    · simp [hc, hd]
    · simp only [hc, hd, if_true, if_false] at h
      exact absurd h (half_xor_ne c d)
    · simp only [hc, hd, if_true, if_false] at h
      exact absurd h.symm (half_xor_ne d c)
    · simp [hc, hd]
  have hhalf : c >>> 1 = d >>> 1 := by
    by_cases hc : c &&& 1 = 1
    · simp only [hc, hparity.1 hc, if_true] at h
      exact (UInt32.xor_left_inj _).1 h
    · simpa only [hc, mt hparity.2 hc, if_false] using h
  rw [odd_iff, odd_iff] at hparity
  have hhalf' := congrArg UInt32.toNat hhalf
  rw [toNat_half, toNat_half] at hhalf'
  exact UInt32.toNat.inj (by omega)

theorem repeat_shift_injective (n : Nat) : Function.Injective (Nat.repeat shift n) := by
  induction n with
  | zero => exact Function.injective_id
  | succ n ih => exact shift_injective.comp ih

theorem step_left_inj {c d : UInt32} {b : UInt8} : step c b = step d b ↔ c = d := by
  rw [step, step, (repeat_shift_injective 8).eq_iff, UInt32.xor_left_inj]

theorem step_right_inj {c : UInt32} {a b : UInt8} : step c a = step c b ↔ a = b := by
  rw [step, step, (repeat_shift_injective 8).eq_iff, UInt32.xor_right_inj, UInt8.toUInt32_inj]

theorem foldl_step_inj {c d : UInt32} (b : Bytes) : b.foldl step c = b.foldl step d ↔ c = d := by
  induction b generalizing c d with
  | nil => rfl
  | cons a rest ih => rw [List.foldl_cons, List.foldl_cons, ih, step_left_inj]

theorem checksum_ne {a b : UInt8} (h : a ≠ b) (before after : Bytes) :
    checksum (before ++ a :: after) ≠ checksum (before ++ b :: after) := by
  intro same
  rw [checksum, checksum, UInt32.xor_left_inj, List.foldl_append, List.foldl_append,
    List.foldl_cons, List.foldl_cons, foldl_step_inj, step_right_inj] at same
  exact h same

end Checksum

namespace Snapshot

theorem footer_inj {sum : Bytes → UInt32} {b b' : Bytes} (h : footer sum b = footer sum b') :
    sum b = sum b' := by
  have hvalue := congrArg Bytes.littleValue h
  rw [footer, footer, Bytes.littleValue_littleEndian_of_lt (UInt32.toNat_lt _),
    Bytes.littleValue_littleEndian_of_lt (UInt32.toNat_lt _)] at hvalue
  exact UInt32.toNat.inj hvalue

theorem checksum_set_ne {data : Bytes} {i : Nat} (hi : i < data.length) {b : UInt8}
    (changed : data[i]? ≠ some b) :
    Checksum.checksum (data.set i b) ≠ Checksum.checksum data := by
  have hbyte : b ≠ data[i] := fun h => changed (by rw [List.getElem?_eq_getElem hi, h])
  have hne := Checksum.checksum_ne hbyte (data.take i) (data.drop (i + 1))
  rw [List.getElem_cons_drop, List.take_append_drop] at hne
  rwa [List.set_eq_take_append_cons_drop, if_pos hi]

/-- A snapshot in which a single byte was changed is refused. -/
theorem corrupted_snapshots_refused (s : Store)
    (short : ∀ e ∈ s.entries, e.1.length < 2 ^ 32 ∧ e.2.length < 2 ^ 32) {i : Nat}
    (hi : i < (encode s).length) {b : UInt8} (changed : b ≠ (encode s)[i]) :
    ∃ e, decode ((encode s).set i b) = .error e ∧ e.kind = .storage := by
  rcases decodeWith_cases Checksum.checksum ((encode s).set i b) with
    refused | ⟨count, entries, -, short', hcount, -, same⟩
  · exact refused
  exfalso
  -- Over the old records the file would be the old one.
  have rewritten : entries.flatMap record ≠ s.entries.flatMap record := by
    intro hrecords
    cases records_inj short' short hrecords
    rw [s.ofList_entries] at hcount
    cases hcount
    have hold : (encode s).set i b = encode s := same
    have hb := List.getElem_set_self (l := encode s) (i := i) (a := b) (by simpa using hi)
    simp only [hold] at hb
    exact changed hb.symm
  have hfile : encode s = header s.size ++ (s.entries.flatMap record ++
    footer Checksum.checksum (s.entries.flatMap record)) := List.append_assoc ..
  have hlength : (s.entries.flatMap record).length = (entries.flatMap record).length := by
    have hlength := congrArg List.length same
    rw [hfile] at hlength
    simpa [fileOf] using hlength
  have hbyte : (encode s)[i]? ≠ some b := by
    rw [List.getElem?_eq_getElem hi]
    exact fun h => changed (Option.some.inj h).symm
  simp only [hfile, fileOf, List.append_assoc] at same hbyte
  rw [List.set_append] at same
  -- The byte stands in the header, among the records or in the checksum.
  split at same
  · obtain ⟨-, hbody⟩ := List.append_inj same (by simp)
    exact rewritten (List.append_inj hbody hlength).1.symm
  next behind =>
  rw [List.getElem?_append_right (Nat.le_of_not_lt behind)] at hbyte
  obtain ⟨-, hbody⟩ := List.append_inj same (by simp)
  rw [List.set_append] at hbody
  split at hbody
  · next within =>
    rw [List.getElem?_append_left within] at hbyte
    obtain ⟨hrecords, hfooter⟩ := List.append_inj hbody (by simpa using hlength)
    rw [← hrecords] at hfooter
    exact checksum_set_ne within hbyte (footer_inj hfooter).symm
  · exact rewritten (List.append_inj hbody hlength).1.symm

theorem key_corrupted :
    let s : Store := .ofList [([1, 2], [])]
    (∀ e ∈ s.entries, e.1.length < 2 ^ 32 ∧ e.2.length < 2 ^ 32) ∧
      (∃ _ : 23 < (encode s).length, (3 : UInt8) ≠ (encode s)[23]) ∧
      (encode s).set 23 3 =
        header 1 ++ record ([1, 3], []) ++ footer Checksum.checksum (records s) ∧
      ∃ e, decode ((encode s).set 23 3) = .error e ∧ e.kind = .storage := by
  intro s
  have short : ∀ e ∈ s.entries, e.1.length < 2 ^ 32 ∧ e.2.length < 2 ^ 32 := by decide
  have hi : 23 < (encode s).length := by decide
  have changed : (3 : UInt8) ≠ (encode s)[23] := by decide +revert
  exact ⟨short, ⟨hi, changed⟩, rfl, corrupted_snapshots_refused s short hi changed⟩

end Snapshot

end IndexedTables
