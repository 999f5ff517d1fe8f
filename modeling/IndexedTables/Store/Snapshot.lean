import IndexedTables.Store.Checksum
import IndexedTables.Store.Contents
/-!
Snapshots: a whole store as one file. A header names the format and counts the entries, a record
for each entry follows in key order, and a checksum of the records ends the file. Numbers are
little endian. The format is defined over any checksum; `encode` and `decode` fix the one in use.
-/
set_option autoImplicit false

namespace IndexedTables.Snapshot

def magic : Bytes := [0x41, 0x4f, 0x52, 0x4d]

def version : Nat := 1

def headerLength : Nat := 14

def footerLength : Nat := 4

/-- One entry: the lengths of key and value, then both. -/
def record (e : Bytes × Bytes) : Bytes :=
  Bytes.littleEndian 4 e.1.length ++ Bytes.littleEndian 4 e.2.length ++ e.1 ++ e.2

def records (s : Store) : Bytes := s.entries.flatMap record

def header (count : Nat) : Bytes :=
  magic ++ Bytes.littleEndian 2 version ++ Bytes.littleEndian 8 count

def footer (sum : Bytes → UInt32) (records : Bytes) : Bytes :=
  Bytes.littleEndian footerLength (sum records).toNat

def encodeWith (sum : Bytes → UInt32) (s : Store) : Bytes :=
  header s.size ++ records s ++ footer sum (records s)

def encode : Store → Bytes := encodeWith Checksum.checksum

def save (s : Store) : Bytes × Nat := (encode s, s.size)

/-- The first `n` bytes and the rest. The error names the place at which they are missing. -/
def cut (offset n : Nat) (b : Bytes) : Except Error (Bytes × Bytes) :=
  if (b.take n).length = n then .ok (b.take n, b.drop n) else .error (.snapshotTruncated offset)

def readRecord (offset : Nat) (b : Bytes) : Except Error ((Bytes × Bytes) × Bytes) := do
  let (keyLength, b) ← cut offset 4 b
  let (valueLength, b) ← cut (offset + 4) 4 b
  let (key, b) ← cut (offset + 8) (Bytes.littleValue keyLength) b
  let (value, b) ←
    cut (offset + 8 + Bytes.littleValue keyLength) (Bytes.littleValue valueLength) b
  return ((key, value), b)

theorem append_of_cut {offset n : Nat} {b head rest : Bytes}
    (h : cut offset n b = .ok (head, rest)) : head.length = n ∧ b = head ++ rest := by
  unfold cut at h
  split at h
  · next full => cases h; exact ⟨full, (List.take_append_drop n b).symm⟩
  · cases h

theorem length_of_readRecord {offset : Nat} {b rest : Bytes} {e : Bytes × Bytes}
    (h : readRecord offset b = .ok (e, rest)) : rest.length < b.length := by
  unfold readRecord at h
  simp only [bind, Except.bind] at h
  split at h
  · cases h
  · next p₁ h₁ =>
    split at h
    · cases h
    · next p₂ h₂ =>
      split at h
      · cases h
      · next p₃ h₃ =>
        split at h
        · cases h
        · next p₄ h₄ =>
          cases h
          obtain ⟨len, rfl⟩ := append_of_cut h₁
          have := congrArg List.length (append_of_cut h₂).2
          have := congrArg List.length (append_of_cut h₃).2
          have := congrArg List.length (append_of_cut h₄).2
          simp only [List.length_append] at *
          omega

def readRecords (offset : Nat) (b : Bytes) : Except Error (List (Bytes × Bytes)) :=
  if b.isEmpty then .ok []
  else
    match h : readRecord offset b with
    | .error e => .error e
    | .ok (entry, rest) =>
      have := length_of_readRecord h
      return entry :: (← readRecords (offset + 8 + entry.1.length + entry.2.length) rest)
termination_by b.length

/-- Reads a snapshot file, under a given checksum. Of records with one key the last holds, and the
count is of distinct keys. -/
def decodeWith (sum : Bytes → UInt32) (file : Bytes) : Except Error Store := do
  if file.length < headerLength + footerLength then throw (.snapshotTooShort file.length)
  if file.take 4 ≠ magic then throw (.snapshotMagic (file.take 4))
  let found := Bytes.littleValue ((file.drop 4).take 2)
  if found ≠ version then throw (.snapshotVersion found)
  let body := file.drop headerLength
  let data := body.take (body.length - footerLength)
  if footer sum data ≠ body.drop (body.length - footerLength) then throw .snapshotChecksum
  let store := SortedMap.ofList (← readRecords 0 data)
  let stated := Bytes.littleValue ((file.drop 6).take 8)
  if store.size ≠ stated then throw (.snapshotCount stated store.size)
  return store

def decode : Bytes → Except Error Store := decodeWith Checksum.checksum

end IndexedTables.Snapshot
