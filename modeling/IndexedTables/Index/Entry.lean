import IndexedTables.NumericKey
/-!
Entries of an index that holds many rows under a key: the key, the row id, and the length of the
row id in one byte. The length tells where the key ends, whatever bytes key and id share.
-/
set_option autoImplicit false

namespace IndexedTables

/-- An index key and the row that stands under it. -/
structure IndexEntry where
  key : Bytes
  id : RowId
  deriving DecidableEq, Repr

namespace IndexEntry

def encode (e : IndexEntry) : Except Error Bytes := do
  e.id.check
  return e.key ++ e.id.bytes ++ [UInt8.ofNat e.id.bytes.length]

def decode (entry : Bytes) : Except Error IndexEntry :=
  match entry.getLast? with
  | none => .error .emptyEntry
  | some last =>
    let body := entry.dropLast
    let idLength := last.toNat
    if idLength = 0 ∨ body.length < idLength then .error (.corruptEntry idLength body.length)
    else
      .ok ⟨body.take (body.length - idLength), ⟨body.drop (body.length - idLength)⟩⟩

end IndexEntry

end IndexedTables
