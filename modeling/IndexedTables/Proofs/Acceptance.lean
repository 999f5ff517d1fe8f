import Mathlib.Data.Finset.Card
import IndexedTables.Proofs.Snapshots
/-!
Which files are snapshots. The bytes at fixed offsets decide, with the records between them; of
records with one key the last holds. A second reader finds everything by its offset, as in one
buffer. It answers as the first, so it never leaves the buffer and its loop ends.
-/
set_option autoImplicit false

namespace IndexedTables

theorem size_ofList (entries : List (Bytes × Bytes)) :
    (SortedMap.ofList entries).size = (entries.map (·.1)).toFinset.card := by
  let s : Store := .ofList entries
  have same : s.keys.toFinset = (entries.map (·.1)).toFinset := by
    ext key
    simp [s, SortedMap.mem_keys_ofList]
  calc s.size = s.keys.length := (List.length_map ..).symm
    _ = s.keys.toFinset.card := (List.toFinset_card_of_nodup s.keys_nodup).symm
    _ = (entries.map (·.1)).toFinset.card := by rw [same]

namespace Snapshot

variable {sum : Bytes → UInt32} {file : Bytes} {entries : List (Bytes × Bytes)}

def block (file : Bytes) : Bytes := (file.drop 14).take (file.length - 18)

/-- The file is a snapshot that records these entries, in this order. -/
structure Accepts (sum : Bytes → UInt32) (file : Bytes) (entries : List (Bytes × Bytes)) :
    Prop where
  long : 18 ≤ file.length
  magic : file.take 4 = Bytes.ofText "AORM"
  version : Bytes.littleValue ((file.drop 4).take 2) = 1
  checksum : file.drop (file.length - 4) = Bytes.littleEndian 4 (sum (block file)).toNat
  short : ∀ e ∈ entries, Short e
  records : block file = entries.flatMap record
  counted : (entries.map (·.1)).toFinset.card = Bytes.littleValue ((file.drop 6).take 8)

theorem block_fileOf (sum : Bytes → UInt32) (count : Nat) (entries : List (Bytes × Bytes)) :
    block (fileOf sum count entries) = entries.flatMap record := by
  have hlength : (fileOf sum count entries).length - 18 = (entries.flatMap record).length := by
    simp [fileOf, headerLength, footerLength]
    omega
  have hbody : (fileOf sum count entries).drop 14 =
      entries.flatMap record ++ footer sum (entries.flatMap record) := by
    rw [fileOf, List.append_assoc]
    rfl
  rw [block, hlength, hbody, List.take_left]

theorem accepts_fileOf {count : Nat} (short : ∀ e ∈ entries, Short e)
    (hcount : (SortedMap.ofList entries).size = count) (counted : count < 2 ^ 64) :
    Accepts sum (fileOf sum count entries) entries where
  long := by
    simp [fileOf, headerLength, footerLength]
    omega
  magic := rfl
  version := rfl
  checksum := by
    have hlength : (fileOf sum count entries).length - 4 =
        (header count ++ entries.flatMap record).length := by
      rw [fileOf, List.length_append, length_footer]
      rfl
    rw [block_fileOf, hlength, fileOf, List.drop_left]
    rfl
  short := short
  records := block_fileOf sum count entries
  counted := by
    rw [← size_ofList, hcount]
    exact (@Bytes.littleValue_littleEndian_of_lt 8 count counted).symm

theorem Accepts.eq_fileOf (h : Accepts sum file entries) :
    file = fileOf sum (Bytes.littleValue ((file.drop 6).take 8)) entries := by
  have hheader := header_eq (Nat.le_trans (by decide) h.long) h.magic h.version
  have hfooter : footer sum (entries.flatMap record) = (file.drop 14).drop (file.length - 18) := by
    have hlong := h.long
    rw [← h.records, List.drop_drop, show 14 + (file.length - 18) = file.length - 4 by omega]
    exact h.checksum.symm
  rw [fileOf, hheader, hfooter, ← h.records, List.append_assoc, block, List.take_append_drop]
  exact (List.take_append_drop 14 file).symm

theorem decodeWith_of_accepts (h : Accepts sum file entries) :
    decodeWith sum file = .ok (.ofList entries) := by
  have hcounted : Bytes.littleValue ((file.drop 6).take 8) < 2 ^ 64 :=
    Bytes.littleValue_lt_of_length_le (List.length_take_le ..)
  have hload := decodeWith_fileOf sum h.short ((size_ofList entries).trans h.counted) hcounted
  rwa [← h.eq_fileOf] at hload

theorem accepts_of_decodeWith {s : Store} (h : decodeWith sum file = .ok s) :
    ∃ entries, Accepts sum file entries ∧ s = .ofList entries := by
  rcases decodeWith_cases sum file with
    ⟨e, refused, -⟩ | ⟨count, entries, loaded, short, hcount, counted, rfl⟩
  · rw [refused] at h
    cases h
  · rw [loaded] at h
    cases h
    exact ⟨entries, accepts_fileOf short hcount counted, rfl⟩

/-- The steps of a reader by offsets. One that would leave its buffer, or go round once too often,
is stuck and answers nothing, not even an error. -/
abbrev Located := ExceptT Error Option

def stuck {α : Type} : Located α := ExceptT.mk none

def between (b : Bytes) (start stop : Nat) : Located Bytes :=
  if start ≤ stop ∧ stop ≤ b.length then return (b.drop start).take (stop - start) else stuck

/-- The `n` bytes from an offset on, if they are there. Where they end has to be an offset, a number
of 64 bits. -/
def partAt (b : Bytes) (offset n : Nat) : Located Bytes :=
  if 2 ^ 64 ≤ offset + n then stuck
  else if offset + n ≤ b.length then between b offset (offset + n)
  else throw (.snapshotTruncated offset)

def recordAt (data : Bytes) (offset : Nat) : Located ((Bytes × Bytes) × Nat) := do
  let keyLength ← partAt data offset 4
  let valueLength ← partAt data (offset + 4) 4
  let key ← partAt data (offset + 8) (Bytes.littleValue keyLength)
  let value ←
    partAt data (offset + 8 + Bytes.littleValue keyLength) (Bytes.littleValue valueLength)
  return ((key, value), offset + 8 + key.length + value.length)

def recordsFrom (data : Bytes) : (turns offset : Nat) → Located (List (Bytes × Bytes))
  | 0, offset => if offset < data.length then stuck else return []
  | turns + 1, offset =>
    if offset < data.length then do
      let (entry, next) ← recordAt data offset
      return entry :: (← recordsFrom data turns next)
    else return []

def load (sum : Bytes → UInt32) (file : Bytes) : Located Store := do
  if file.length < headerLength + footerLength then throw (.snapshotTooShort file.length)
  let first ← between file 0 4
  if first ≠ magic then throw (.snapshotMagic first)
  let found ← between file 4 6
  if Bytes.littleValue found ≠ version then throw (.snapshotVersion (Bytes.littleValue found))
  let stated ← partAt file 6 8
  let data ← between file headerLength (file.length - footerLength)
  let stored ← partAt file (file.length - footerLength) 4
  if (sum data).toNat ≠ Bytes.littleValue stored then throw .snapshotChecksum
  let store := SortedMap.ofList (← recordsFrom data ((data.length + 7) / 8) 0)
  if store.size ≠ Bytes.littleValue stated then
    throw (.snapshotCount (Bytes.littleValue stated) store.size)
  return store

theorem run_bind_of_run {α β : Type} {x : Located α} {y : Except Error α} (h : x.run = some y)
    {f : α → Located β} {g : α → Except Error β} (after : ∀ a, (f a).run = some (g a)) :
    (x >>= f).run = some (y >>= g) := by
  rw [ExceptT.run_bind, h]
  cases y with
  | error e => rfl
  | ok a => exact after a

theorem run_unless {α : Type} {c d : Prop} [Decidable c] [Decidable d] (same : c ↔ d) (e : Error)
    {x : Located α} {y : Except Error α} (after : ¬ d → x.run = some y) :
    (do if c then throw e
        x : Located α).run = some (do
      if d then throw e
      y) := by
  by_cases hd : d
  · rw [if_pos (same.2 hd), if_pos hd]
    rfl
  · rw [if_neg (mt same.1 hd), if_neg hd, after hd]

theorem between_eq {b : Bytes} {start stop : Nat} (h : start ≤ stop) (inside : stop ≤ b.length) :
    between b start stop = pure ((b.drop start).take (stop - start)) := by
  rw [between, if_pos ⟨h, inside⟩]

theorem partAt_eq {b : Bytes} {offset n : Nat} (h : offset + n < 2 ^ 64)
    (inside : offset + n ≤ b.length) : partAt b offset n = pure ((b.drop offset).take n) := by
  rw [partAt, if_neg (Nat.not_le.2 h), if_pos inside, between_eq (Nat.le_add_right ..) inside,
    Nat.add_sub_cancel_left]

theorem run_partAt_bind {α : Type} {b : Bytes} {offset n : Nat} (within : offset ≤ b.length)
    (h : offset + n < 2 ^ 64) {f : Bytes → Located α}
    {g : Bytes × Bytes → Except Error α}
    (after : ∀ part, part.length = n → offset + n ≤ b.length →
      (f part).run = some (g (part, b.drop (offset + n)))) :
    (partAt b offset n >>= f).run = some (cut offset n (b.drop offset) >>= g) := by
  by_cases inside : offset + n ≤ b.length
  · have hlength : ((b.drop offset).take n).length = n := by simp; omega
    rw [partAt_eq h inside, pure_bind, after _ hlength inside, cut, if_pos hlength, List.drop_drop]
    rfl
  · have hlength : ((b.drop offset).take n).length ≠ n := by simp; omega
    rw [partAt, if_neg (Nat.not_le.2 h), if_neg inside, cut, if_neg hlength]
    rfl

theorem run_recordAt {data : Bytes} (short : data.length < 2 ^ 63) {offset : Nat}
    (h : offset < data.length) :
    (recordAt data offset).run = some (do
      let (e, _) ← readRecord offset (data.drop offset)
      return (e, offset + 8 + e.1.length + e.2.length)) := by
  unfold recordAt readRecord
  simp only [bind_assoc]
  refine run_partAt_bind (by omega) (by omega) fun keyLength h₁ inside₁ => ?_
  refine run_partAt_bind (by omega) (by omega) fun valueLength h₂ inside₂ => ?_
  have hkey := Bytes.littleValue_lt_of_length_le (Nat.le_of_eq h₁)
  have hvalue := Bytes.littleValue_lt_of_length_le (Nat.le_of_eq h₂)
  refine run_partAt_bind (by omega) (by omega) fun key h₃ inside₃ => ?_
  refine run_partAt_bind (by omega) (by omega) fun value h₄ inside₄ => ?_
  rfl

theorem drop_of_readRecord {data rest : Bytes} {offset : Nat} {e : Bytes × Bytes}
    (h : readRecord offset (data.drop offset) = .ok (e, rest)) :
    data.drop (offset + 8 + e.1.length + e.2.length) = rest := by
  have hrecord := (record_of_readRecord h).2
  have hlength : (record e).length = 8 + e.1.length + e.2.length := by
    simp [record]
    omega
  rw [Nat.add_assoc, Nat.add_assoc, ← Nat.add_assoc 8, ← hlength, ← List.drop_drop, hrecord,
    List.drop_left]

theorem readRecords_of_error {offset : Nat} {b : Bytes} {e : Error} (hb : b ≠ [])
    (h : readRecord offset b = .error e) : readRecords offset b = .error e := by
  rw [readRecords, if_neg (by simpa using hb)]
  split
  · next h' =>
    cases h.symm.trans h'
    rfl
  · next h' => cases h.symm.trans h'

theorem readRecords_at_end {data : Bytes} {offset : Nat} (h : ¬ offset < data.length) :
    readRecords offset (data.drop offset) = .ok [] := by
  rw [List.drop_eq_nil_of_le (Nat.not_lt.1 h), readRecords]
  rfl

/-- Every turn moves on by eight bytes at least, so the turns suffice. -/
theorem run_recordsFrom {data : Bytes} (short : data.length < 2 ^ 63) {turns offset : Nat}
    (enough : data.length ≤ offset + 8 * turns) :
    (recordsFrom data turns offset).run = some (readRecords offset (data.drop offset)) := by
  induction turns generalizing offset with
  | zero =>
    have h : ¬ offset < data.length := by omega
    rw [recordsFrom, if_neg h, readRecords_at_end h]
    rfl
  | succ turns ih =>
    by_cases h : offset < data.length
    · have hrecord := run_recordAt short h
      have hdrop : data.drop offset ≠ [] := by
        simpa using h
      rw [recordsFrom, if_pos h, ExceptT.run_bind, hrecord]
      cases hread : readRecord offset (data.drop offset) with
      | error e =>
        rw [readRecords_of_error hdrop hread]
        rfl
      | ok front =>
        obtain ⟨e, rest⟩ := front
        -- A record takes eight bytes at least, so one turn less is enough for the rest.
        have hrest := @ih (offset + 8 + e.1.length + e.2.length) (by omega)
        rw [drop_of_readRecord hread] at hrest
        rw [readRecords_of_record hread]
        exact run_bind_of_run hrest fun more => rfl
    · rw [recordsFrom, if_neg h, readRecords_at_end h]
      rfl

theorem footer_eq_iff {b : Bytes} (h : b.length = footerLength) (data : Bytes) :
    footer sum data = b ↔ (sum data).toNat = Bytes.littleValue b := by
  constructor
  · intro same
    rw [← same, footer]
    exact (@Bytes.littleValue_littleEndian_of_lt 4 _ (sum data).toNat_lt).symm
  · intro same
    rw [footer, same, ← h, Bytes.littleEndian_littleValue]

theorem take_body (file : Bytes) :
    (file.drop headerLength).take ((file.drop headerLength).length - footerLength) =
      block file := by
  rw [List.length_drop, Nat.sub_sub]
  rfl

theorem drop_body (long : 18 ≤ file.length) :
    (file.drop headerLength).drop ((file.drop headerLength).length - footerLength) =
      file.drop (file.length - footerLength) := by
  rw [List.length_drop, List.drop_drop]
  congr 1
  simp only [headerLength, footerLength]
  omega

/-- The reader by offsets is never stuck, and answers as the other. -/
theorem run_load (sum : Bytes → UInt32) (short : file.length < 2 ^ 63) :
    (load sum file).run = some (decodeWith sum file) := by
  refine run_unless Iff.rfl _ fun long => ?_
  let last := file.drop (file.length - footerLength)
  have hlong : 18 ≤ file.length := Nat.not_lt.1 long
  have hmagic : between file 0 4 = pure (file.take 4) := between_eq (by decide) (by omega)
  have hversion : between file 4 6 = pure ((file.drop 4).take 2) :=
    between_eq (by decide) (by omega)
  have hstated : partAt file 6 8 = pure ((file.drop 6).take 8) :=
    partAt_eq (by decide) (by omega)
  have hdata : between file headerLength (file.length - footerLength) = pure (block file) := by
    rw [between_eq (by simp only [headerLength, footerLength]; omega) (Nat.sub_le ..),
      Nat.sub_right_comm, Nat.sub_sub]
    rfl
  have hlength : last.length = footerLength := by
    simp only [last, List.length_drop, footerLength]
    omega
  have hlast : partAt file (file.length - footerLength) 4 = pure last := by
    have hend : file.length - footerLength + 4 = file.length := by
      simp only [footerLength]
      omega
    rw [partAt_eq (by omega) (Nat.le_of_eq hend)]
    exact congrArg pure (List.take_of_length_le (Nat.le_of_eq hlength))
  have hrecords : (recordsFrom (block file) (((block file).length + 7) / 8) 0).run =
      some (readRecords 0 (block file)) :=
    run_recordsFrom (by simp [block]; omega) (by omega)
  simp only [hmagic, hversion, hstated, hdata, hlast, take_body, drop_body hlong, pure_bind]
  refine run_unless Iff.rfl _ fun _ => ?_
  refine run_unless Iff.rfl _ fun _ => ?_
  refine run_unless (not_congr (footer_eq_iff hlength (block file)).symm) _ fun _ => ?_
  refine run_bind_of_run hrecords fun entries => ?_
  exact run_unless Iff.rfl _ fun _ => rfl

/-- A file is loaded exactly if it is a snapshot of some entries, and then each key has the value of
its last record. Any other is refused as damaged. No buffer has 2 ^ 63 bytes, so no file leads the
reader by offsets out of its buffer, or round in circles. -/
theorem snapshots_accepted (sum : Bytes → UInt32) (file : Bytes) :
    (∀ s, decodeWith sum file = .ok s ↔
      ∃ entries, Accepts sum file entries ∧ ∀ key, s.find? key = SortedMap.lastValue entries key) ∧
    ((∀ entries, ¬ Accepts sum file entries) →
      ∃ e, decodeWith sum file = .error e ∧ e.kind = .storage) ∧
    (file.length < 2 ^ 63 → (load sum file).run = some (decodeWith sum file)) := by
  refine ⟨fun s => ⟨fun h => ?_, fun h => ?_⟩, fun none => ?_, run_load sum⟩
  · obtain ⟨entries, accepted, rfl⟩ := accepts_of_decodeWith h
    exact ⟨entries, accepted, SortedMap.find?_ofList entries⟩
  · obtain ⟨entries, accepted, hlast⟩ := h
    have same : s = .ofList entries :=
      SortedMap.ext_find? fun key => (hlast key).trans (SortedMap.find?_ofList entries key).symm
    rw [same, decodeWith_of_accepts accepted]
  · rcases decodeWith_cases sum file with refused | ⟨count, entries, loaded, -⟩
    · exact refused
    · obtain ⟨entries, accepted, -⟩ := accepts_of_decodeWith loaded
      exact absurd accepted (none entries)

theorem repeated_key_accepted :
    let sum : Bytes → UInt32 := fun _ => 1
    let entries : List (Bytes × Bytes) := [([2], [7]), ([1], []), ([2], [8, 9])]
    let file := fileOf sum 2 entries
    let loaded : Store := .ofList [([1], []), ([2], [8, 9])]
    file.length < 2 ^ 63 ∧ decodeWith sum file = .ok loaded ∧
      (load sum file).run = some (.ok loaded) := by
  intro sum entries file loaded
  obtain ⟨accepted, -, located⟩ := snapshots_accepted sum file
  have same : SortedMap.ofList entries = loaded := SortedMap.ext (by decide)
  have records : ∀ e ∈ entries, e.1.length < 2 ^ 32 ∧ e.2.length < 2 ^ 32 := by decide
  have hload : decodeWith sum file = .ok loaded :=
    (accepted loaded).2 ⟨entries, accepts_fileOf records (by decide) (by decide),
      same ▸ SortedMap.find?_ofList entries⟩
  have short : file.length < 2 ^ 63 := by decide
  exact ⟨short, hload, (located short).trans (congrArg some hload)⟩

end Snapshot

end IndexedTables
