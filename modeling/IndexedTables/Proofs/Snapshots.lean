import IndexedTables.Bytes.Lemmas
import IndexedTables.SortedMap.Lemmas
import IndexedTables.Store.Snapshot
set_option autoImplicit false

namespace IndexedTables

namespace Snapshot

/-- The lengths of key and value fit the four bytes that a record has for each. -/
def Short (e : Bytes × Bytes) : Prop := e.1.length < 2 ^ 32 ∧ e.2.length < 2 ^ 32

theorem cut_append {offset n : Nat} {head : Bytes} (h : head.length = n) (rest : Bytes) :
    cut offset n (head ++ rest) = .ok (head, rest) := by
  subst h
  simp [cut]

theorem readRecord_record (offset : Nat) {e : Bytes × Bytes} (h : Short e) (rest : Bytes) :
    readRecord offset (record e ++ rest) = .ok (e, rest) := by
  have hkey : Bytes.littleValue (Bytes.littleEndian 4 e.1.length) = e.1.length :=
    Bytes.littleValue_littleEndian_of_lt h.1
  have hvalue : Bytes.littleValue (Bytes.littleEndian 4 e.2.length) = e.2.length :=
    Bytes.littleValue_littleEndian_of_lt h.2
  simp only [readRecord, record, List.append_assoc, bind, Except.bind,
    cut_append (Bytes.length_littleEndian 4 _), cut_append rfl, hkey, hvalue]
  rfl

theorem record_of_readRecord {offset : Nat} {b rest : Bytes} {e : Bytes × Bytes}
    (h : readRecord offset b = .ok (e, rest)) : Short e ∧ b = record e ++ rest := by
  obtain ⟨⟨keyLength, b₁⟩, h₁, h⟩ := ok_of_bind h
  obtain ⟨⟨valueLength, b₂⟩, h₂, h⟩ := ok_of_bind h
  obtain ⟨⟨key, b₃⟩, h₃, h⟩ := ok_of_bind h
  obtain ⟨⟨value, b₄⟩, h₄, h⟩ := ok_of_bind h
  cases h
  obtain ⟨len₁, rfl⟩ := append_of_cut h₁
  obtain ⟨len₂, rfl⟩ := append_of_cut h₂
  obtain ⟨len₃, rfl⟩ := append_of_cut h₃
  obtain ⟨len₄, rfl⟩ := append_of_cut h₄
  have hkey : Bytes.littleEndian 4 key.length = keyLength := by
    rw [len₃, ← len₁, Bytes.littleEndian_littleValue]
  have hvalue : Bytes.littleEndian 4 value.length = valueLength := by
    rw [len₄, ← len₂, Bytes.littleEndian_littleValue]
  constructor
  · have short₁ := Bytes.littleValue_lt_of_length_le (Nat.le_of_eq len₁)
    have short₂ := Bytes.littleValue_lt_of_length_le (Nat.le_of_eq len₂)
    exact ⟨len₃ ▸ short₁, len₄ ▸ short₂⟩
  · simp [record, hkey, hvalue]

theorem record_ne_nil (e : Bytes × Bytes) : record e ≠ [] := by
  intro h
  have := congrArg List.length h
  simp [record] at this

theorem record_append_inj {e e' : Bytes × Bytes} (h : Short e) (h' : Short e') {b b' : Bytes}
    (same : record e ++ b = record e' ++ b') : e = e' ∧ b = b' := by
  have hread := readRecord_record 0 h b
  rw [same, readRecord_record 0 h' b'] at hread
  cases hread
  exact ⟨rfl, rfl⟩

theorem prefix_of_records {entries more : List (Bytes × Bytes)} (h : ∀ e ∈ entries, Short e)
    (h' : ∀ e ∈ more, Short e) (front : entries.flatMap record <+: more.flatMap record) :
    entries <+: more := by
  induction entries generalizing more with
  | nil => exact List.nil_prefix
  | cons e rest ih =>
    obtain ⟨he, hrest⟩ := List.forall_mem_cons.1 h
    cases more with
    | nil => exact absurd (List.prefix_nil.1 front) (by simp [record_ne_nil])
    | cons e' rest' =>
      obtain ⟨he', hrest'⟩ := List.forall_mem_cons.1 h'
      obtain ⟨after, same⟩ := front
      rw [List.flatMap_cons, List.flatMap_cons, List.append_assoc] at same
      obtain ⟨rfl, left⟩ := record_append_inj he he' same
      exact (List.prefix_cons_inj e).2 (ih hrest hrest' ⟨after, left⟩)

theorem readRecords_of_record {offset : Nat} {b rest : Bytes} {e : Bytes × Bytes}
    (h : readRecord offset b = .ok (e, rest)) : readRecords offset b = (do
      return e :: (← readRecords (offset + 8 + e.1.length + e.2.length) rest)) := by
  have hempty : b.isEmpty = false := by
    cases b with
    | nil => cases h
    | cons => rfl
  rw [readRecords]
  simp only [hempty, Bool.false_eq_true, if_false]
  split
  · next h' => simp [h] at h'
  · next h' =>
    cases h.symm.trans h'
    rfl

/-- What is read are the entries whose records stand there, one after the other. -/
theorem readRecords_eq_ok_iff {offset : Nat} {b : Bytes} {entries : List (Bytes × Bytes)} :
    readRecords offset b = .ok entries ↔
      (∀ e ∈ entries, Short e) ∧ b = entries.flatMap record := by
  constructor
  · intro h
    fun_induction readRecords offset b generalizing entries with
    | case1 offset b hb =>
      cases h
      exact ⟨by simp, List.isEmpty_iff.1 hb⟩
    | case2 => cases h
    | case3 offset b hb e rest he shorter ih =>
      obtain ⟨more, hmore, h⟩ := ok_of_bind h
      cases h
      obtain ⟨short, rfl⟩ := record_of_readRecord he
      obtain ⟨shorts, rfl⟩ := ih hmore
      exact ⟨List.forall_mem_cons.2 ⟨short, shorts⟩, rfl⟩
  · intro h
    obtain ⟨short, rfl⟩ := h
    induction entries generalizing offset with
    | nil => rw [readRecords]; rfl
    | cons e rest ih =>
      obtain ⟨he, hrest⟩ := List.forall_mem_cons.1 short
      rw [List.flatMap_cons, readRecords_of_record (readRecord_record offset he _), ih hrest]
      rfl

theorem records_inj {entries more : List (Bytes × Bytes)} (h : ∀ e ∈ entries, Short e)
    (h' : ∀ e ∈ more, Short e) (same : entries.flatMap record = more.flatMap record) :
    entries = more := by
  have hread : readRecords 0 (more.flatMap record) = .ok entries :=
    readRecords_eq_ok_iff.2 ⟨h, same.symm⟩
  rw [readRecords_eq_ok_iff.2 ⟨h', rfl⟩] at hread
  exact (Except.ok.inj hread).symm

theorem kind_of_cut {offset n : Nat} {b : Bytes} {e : Error} (h : cut offset n b = .error e) :
    e.kind = .storage := by
  unfold cut at h
  split at h <;> cases h
  rfl

theorem kind_of_readRecord {offset : Nat} {b : Bytes} {e : Error}
    (h : readRecord offset b = .error e) : e.kind = .storage := by
  unfold readRecord at h
  simp only [bind, Except.bind] at h
  split at h
  · next h₁ => cases h; exact kind_of_cut h₁
  · split at h
    · next h₂ => cases h; exact kind_of_cut h₂
    · split at h
      · next h₃ => cases h; exact kind_of_cut h₃
      · split at h
        · next h₄ => cases h; exact kind_of_cut h₄
        · cases h

theorem kind_of_readRecords {offset : Nat} {b : Bytes} {e : Error}
    (h : readRecords offset b = .error e) : e.kind = .storage := by
  fun_induction readRecords offset b with
  | case1 => cases h
  | case2 offset b hb e' he =>
    cases h
    exact kind_of_readRecord he
  | case3 offset b hb entry rest he shorter ih =>
    cases hrest : readRecords (offset + 8 + entry.1.length + entry.2.length) rest with
    | error e' =>
      rw [hrest] at h ih
      cases h
      exact ih rfl
    | ok more =>
      rw [hrest] at h
      cases h

/-- The file that states a count and has the records of these entries, with their checksum. -/
def fileOf (sum : Bytes → UInt32) (count : Nat) (entries : List (Bytes × Bytes)) : Bytes :=
  header count ++ entries.flatMap record ++ footer sum (entries.flatMap record)

@[simp] theorem length_header (count : Nat) : (header count).length = headerLength := by
  simp [header, magic, headerLength]

@[simp] theorem length_footer (sum : Bytes → UInt32) (b : Bytes) :
    (footer sum b).length = footerLength := by
  simp [footer]

theorem header_eq {b : Bytes} (h : headerLength ≤ b.length) (hmagic : b.take 4 = magic)
    (hversion : Bytes.littleValue ((b.drop 4).take 2) = version) :
    header (Bytes.littleValue ((b.drop 6).take 8)) = b.take headerLength := by
  unfold headerLength at h
  have hlength : ((b.drop 4).take 2).length = 2 := by simp; omega
  have hlength' : ((b.drop 6).take 8).length = 8 := by simp; omega
  have hversion' := Bytes.littleEndian_littleValue ((b.drop 4).take 2)
  have hcount := Bytes.littleEndian_littleValue ((b.drop 6).take 8)
  rw [hlength, hversion] at hversion'
  rw [hlength'] at hcount
  rw [header, hversion', hcount, ← hmagic, ← List.take_add]
  exact (List.take_add (i := 6) (j := 8)).symm

/-- Whatever the file, it is refused as damaged, or it is a file of the entries that are loaded. -/
theorem decodeWith_cases (sum : Bytes → UInt32) (file : Bytes) :
    (∃ e, decodeWith sum file = .error e ∧ e.kind = .storage) ∨
      ∃ count entries, decodeWith sum file = .ok (.ofList entries) ∧ (∀ e ∈ entries, Short e) ∧
        (SortedMap.ofList entries).size = count ∧ count < 2 ^ 64 ∧
        file = fileOf sum count entries := by
  -- One split for each check of the loader, in the order in which they are made.
  unfold decodeWith
  simp only [bind, Except.bind, throw, throwThe, MonadExceptOf.throw, pure, Except.pure]
  split
  · exact .inl ⟨_, rfl, rfl⟩
  next long =>
  split
  · exact .inl ⟨_, rfl, rfl⟩
  next hmagic =>
  split
  · exact .inl ⟨_, rfl, rfl⟩
  next hversion =>
  split
  · exact .inl ⟨_, rfl, rfl⟩
  next hsum =>
  split
  · next hread => exact .inl ⟨_, rfl, kind_of_readRecords hread⟩
  next entries hread =>
  split
  · exact .inl ⟨_, rfl, rfl⟩
  next hcount =>
  rw [ne_eq, Classical.not_not] at hmagic hversion hsum hcount
  obtain ⟨short, hdata⟩ := readRecords_eq_ok_iff.1 hread
  have hheader : headerLength ≤ file.length := by omega
  refine .inr ⟨_, entries, rfl, short, hcount, ?_, ?_⟩
  · exact Bytes.littleValue_lt_of_length_le (List.length_take_le ..)
  · rw [fileOf, ← hdata, hsum, header_eq hheader hmagic hversion, List.append_assoc,
      List.take_append_drop, List.take_append_drop]

theorem decodeWith_fileOf (sum : Bytes → UInt32) {count : Nat} {entries : List (Bytes × Bytes)}
    (short : ∀ e ∈ entries, Short e) (hcount : (SortedMap.ofList entries).size = count)
    (counted : count < 2 ^ 64) :
    decodeWith sum (fileOf sum count entries) = .ok (.ofList entries) := by
  let data := entries.flatMap record
  let body := data ++ footer sum data
  have hread : readRecords 0 data = .ok entries := readRecords_eq_ok_iff.2 ⟨short, rfl⟩
  have hfile : fileOf sum count entries = header count ++ body := List.append_assoc ..
  have long : ¬ (header count ++ body).length < headerLength + footerLength := by
    simp [body]
  have hmagic : (header count ++ body).take 4 = magic := rfl
  have hversion : Bytes.littleValue (((header count ++ body).drop 4).take 2) = version := rfl
  have hstated : Bytes.littleValue (((header count ++ body).drop 6).take 8) = count :=
    @Bytes.littleValue_littleEndian_of_lt 8 count counted
  have hbody : (header count ++ body).drop headerLength = body := rfl
  have hdata : body.length - footerLength = data.length := by simp [body]
  rw [hfile]
  simp only [decodeWith, bind, Except.bind, throw, throwThe, MonadExceptOf.throw, pure, Except.pure,
    long, hmagic, hversion, hstated, hbody, hdata, hcount, body, List.take_left, List.drop_left,
    hread, ne_eq, not_true_eq_false, if_false]

/-- Under any checksum, a store that was saved is loaded again; saving answers how many entries it
has, a number of 64 bits like that in the header. -/
theorem saved_snapshots_load (sum : Bytes → UInt32) (s : Store)
    (short : ∀ e ∈ s.entries, e.1.length < 2 ^ 32 ∧ e.2.length < 2 ^ 32)
    (counted : s.size < 2 ^ 64) :
    decodeWith sum (encodeWith sum s) = .ok s ∧ decode (save s).1 = .ok s ∧
      (save s).2 = s.entries.length := by
  have load : ∀ sum : Bytes → UInt32, decodeWith sum (encodeWith sum s) = .ok s := by
    intro sum
    have hload := decodeWith_fileOf sum short (congrArg SortedMap.size s.ofList_entries) counted
    rwa [s.ofList_entries] at hload
  exact ⟨load sum, load Checksum.checksum, rfl⟩

def sparse : Store := .ofList [([], []), ([0, 0xff], [7])]

theorem sparse_loads :
    (∀ e ∈ sparse.entries, e.1.length < 2 ^ 32 ∧ e.2.length < 2 ^ 32) ∧ sparse.size < 2 ^ 64 ∧
      decodeWith (fun _ => 1) (encodeWith (fun _ => 1) sparse) = .ok sparse ∧
      decode (save sparse).1 = .ok sparse ∧ (save sparse).2 = 2 := by
  have short : ∀ e ∈ sparse.entries, e.1.length < 2 ^ 32 ∧ e.2.length < 2 ^ 32 := by decide
  have counted : sparse.size < 2 ^ 64 := by decide
  exact ⟨short, counted, saved_snapshots_load (fun _ => 1) sparse short counted⟩

theorem header_append_inj {n m : Nat} (hn : n < 2 ^ 64) (hm : m < 2 ^ 64) {b b' : Bytes}
    (same : header n ++ b = header m ++ b') : n = m ∧ b = b' := by
  obtain ⟨hheader, hb⟩ := List.append_inj same (by simp)
  refine ⟨?_, hb⟩
  calc n = Bytes.littleValue ((header n).drop 6) :=
        (@Bytes.littleValue_littleEndian_of_lt 8 n hn).symm
    _ = Bytes.littleValue ((header m).drop 6) := by rw [hheader]
    _ = m := @Bytes.littleValue_littleEndian_of_lt 8 m hm

theorem size_ofList_first {s : Store} {entries : List (Bytes × Bytes)}
    (h : entries <+: s.entries) : (SortedMap.ofList entries : Store).size = entries.length :=
  congrArg SortedMap.size (SortedMap.ofList_entries ⟨entries, s.ascending.sublist h.sublist⟩)

/-- A file that ends early is refused, whatever its last bytes sum up: its records are fewer than it
counts. -/
theorem truncated_snapshots_refused (sum : Bytes → UInt32) (s : Store)
    (short : ∀ e ∈ s.entries, e.1.length < 2 ^ 32 ∧ e.2.length < 2 ^ 32)
    (counted : s.size < 2 ^ 64) {file : Bytes} (front : file <+: encodeWith sum s)
    (proper : file ≠ encodeWith sum s) :
    ∃ e, decodeWith sum file = .error e ∧ e.kind = .storage := by
  rcases decodeWith_cases sum file with refused | ⟨count, entries, -, short', hcount, counted', rfl⟩
  · exact refused
  exfalso
  obtain ⟨rest, same⟩ := front
  have hrest : rest ≠ [] := by
    rintro rfl
    exact proper (by simpa using same)
  rw [encodeWith, fileOf, records] at same
  simp only [List.append_assoc] at same
  obtain ⟨rfl, left⟩ := header_append_inj counted' counted same
  -- A shorter file with this header has fewer bytes of records, whatever its last four are.
  have fewer : (entries.flatMap record).length < (s.entries.flatMap record).length := by
    have hlength := congrArg List.length left
    have hpos := List.length_pos_iff.2 hrest
    simp only [List.length_append, length_footer] at hlength
    omega
  have first : entries <+: s.entries := by
    refine prefix_of_records short' short ?_
    exact List.prefix_of_prefix_length_le ⟨_, left⟩ ⟨_, rfl⟩ (Nat.le_of_lt fewer)
  have hlength : entries.length = s.entries.length := (size_ofList_first first).symm.trans hcount
  rw [first.eq_of_length hlength] at fewer
  exact Nat.lt_irrefl _ fewer

def brief : Store := .ofList [([1, 2], []), ([3], [])]

/-- Cut off behind the length of its second key, the file ends in what its first record sums up to
under a checksum that is always one. -/
theorem brief_cut_off :
    let sum : Bytes → UInt32 := fun _ => 1
    let file := (encodeWith sum brief).take 28
    (∀ e ∈ brief.entries, e.1.length < 2 ^ 32 ∧ e.2.length < 2 ^ 32) ∧ brief.size < 2 ^ 64 ∧
      file <+: encodeWith sum brief ∧ file ≠ encodeWith sum brief ∧
      file = header 2 ++ record ([1, 2], []) ++ footer sum (record ([1, 2], [])) ∧
      ∃ e, decodeWith sum file = .error e ∧ e.kind = .storage := by
  intro sum file
  have short : ∀ e ∈ brief.entries, e.1.length < 2 ^ 32 ∧ e.2.length < 2 ^ 32 := by decide
  have counted : brief.size < 2 ^ 64 := by decide
  have front : file <+: encodeWith sum brief := List.take_prefix 28 _
  have proper : file ≠ encodeWith sum brief := by decide
  exact ⟨short, counted, front, proper, by decide,
    truncated_snapshots_refused sum brief short counted front proper⟩

end Snapshot

end IndexedTables
