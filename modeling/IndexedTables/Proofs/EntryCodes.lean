import IndexedTables.Proofs.IndexScans
set_option autoImplicit false

namespace IndexedTables

theorem RowId.valid_iff_length (id : RowId) :
    id.Valid ↔ 1 ≤ id.bytes.length ∧ id.bytes.length ≤ 255 := by
  rw [Valid, Nat.one_le_iff_ne_zero, ne_eq, ne_eq, List.length_eq_zero_iff]
  rfl

namespace IndexEntry

theorem encode_eq_ok_iff {e : IndexEntry} {entry : Bytes} :
    e.encode = .ok entry ↔ e.id.Valid ∧ entry = e.bytes := by
  constructor
  · intro h
    by_cases hid : e.id.Valid
    · rw [encode_of_valid hid] at h
      cases h
      exact ⟨hid, rfl⟩
    · obtain ⟨error, hcheck⟩ := RowId.check_of_not_valid hid
      simp [encode, hcheck, bind, Except.bind] at h
  · intro h
    rw [encode_of_valid h.1, h.2, bytes]

theorem decode_of_encode {e : IndexEntry} {entry : Bytes} (h : e.encode = .ok entry) :
    decode entry = .ok e := by
  obtain ⟨hid, rfl⟩ := encode_eq_ok_iff.1 h
  exact decode_bytes hid

theorem encode_of_decode {e : IndexEntry} {entry : Bytes} (h : decode entry = .ok e) :
    e.encode = .ok entry := by
  rw [encode_eq_ok_iff]
  rcases List.eq_nil_or_concat entry with rfl | ⟨body, last, rfl⟩
  · cases h
  · simp only [decode, List.concat_eq_append, List.getLast?_append, List.getLast?_singleton,
      Option.some_or, List.dropLast_concat] at h
    split at h
    · cases h
    · next fits =>
      cases h
      have hlast := UInt8.toNat_lt last
      have hlength : (body.drop (body.length - last.toNat)).length = last.toNat := by
        rw [List.length_drop]
        omega
      constructor
      · rw [RowId.valid_iff_length, hlength]
        omega
      · simp [bytes, tail, hlength, ← List.append_assoc]

theorem encode_fails_iff (e : IndexEntry) :
    (∃ error, e.encode = .error error) ↔ e.id.bytes.length = 0 ∨ 255 < e.id.bytes.length := by
  have hvalid : (∃ error, e.encode = .error error) ↔ ¬ e.id.Valid := by
    cases h : e.encode with
    | ok entry => simp [(encode_eq_ok_iff.1 h).1]
    | error error =>
      have hid : ¬ e.id.Valid := fun hid => by simp [encode_of_valid hid] at h
      simp [hid]
  rw [hvalid, RowId.valid_iff_length]
  omega

/-- Writing an entry and reading one undo each other. Every key, the empty one too, and every row id
of 1 to 255 bytes have an entry; no other id has, and no other bytes are one. -/
theorem entries_match_pairs :
    (∀ e : IndexEntry, 1 ≤ e.id.bytes.length → e.id.bytes.length ≤ 255 →
      ∃ entry, e.encode = .ok entry ∧ decode entry = .ok e ∧
        entry = e.key ++ e.id.bytes ++ [UInt8.ofNat e.id.bytes.length]) ∧
    (∀ (e f : IndexEntry) (entry : Bytes), e.encode = .ok entry → f.encode = .ok entry → e = f) ∧
    (∀ (entry : Bytes) (e : IndexEntry), decode entry = .ok e ↔ e.encode = .ok entry) ∧
    ∀ e : IndexEntry, (∃ error, e.encode = .error error) ↔
      e.id.bytes.length = 0 ∨ 255 < e.id.bytes.length := by
  refine ⟨fun e low high => ?_, fun e f entry he hf => ?_, fun entry e => ?_, encode_fails_iff⟩
  · have hid := e.id.valid_iff_length.2 ⟨low, high⟩
    exact ⟨e.bytes, encode_eq_ok_iff.2 ⟨hid, rfl⟩, decode_bytes hid, by simp [bytes, tail]⟩
  · have hread := decode_of_encode he
    rw [decode_of_encode hf] at hread
    exact (Except.ok.inj hread).symm
  · exact ⟨encode_of_decode, decode_of_encode⟩

/-- Key and id share their bytes, and either could end where the other does. -/
def overlapping : IndexEntry := ⟨[0x61, 0x62], ⟨[0x61, 0x62, 0x61, 0x62]⟩⟩

theorem overlapping_matched :
    1 ≤ overlapping.id.bytes.length ∧ overlapping.id.bytes.length ≤ 255 ∧
      (∃ entry, overlapping.encode = .ok entry ∧ decode entry = .ok overlapping ∧
        entry = [0x61, 0x62, 0x61, 0x62, 0x61, 0x62, 4]) ∧
      overlapping.encode ≠ (⟨[0x61, 0x62, 0x61, 0x62], ⟨[0x61, 0x62]⟩⟩ : IndexEntry).encode ∧
      decode [0x61, 5] ≠ .ok ⟨[], ⟨[0x61]⟩⟩ ∧
      ∃ error, (⟨[0x61], ⟨[]⟩⟩ : IndexEntry).encode = .error error := by
  obtain ⟨written, distinct, read, refused⟩ := entries_match_pairs
  have low : 1 ≤ overlapping.id.bytes.length := by decide
  have high : overlapping.id.bytes.length ≤ 255 := by decide
  obtain ⟨entry, hentry, hread, rfl⟩ := written overlapping low high
  refine ⟨low, high, ⟨_, hentry, hread, rfl⟩, fun same => ?_, fun found => ?_, ?_⟩
  · rw [hentry] at same
    exact absurd (distinct _ _ _ hentry same.symm) (by decide)
  · cases (read _ _).1 found
  · exact (refused ⟨[0x61], ⟨[]⟩⟩).2 (.inl rfl)

end IndexEntry

end IndexedTables
