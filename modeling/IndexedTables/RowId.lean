import IndexedTables.Bytes.Hex
set_option autoImplicit false

namespace IndexedTables

structure RowId where
  bytes : Bytes
  deriving DecidableEq, Repr, Inhabited

namespace RowId

/-- An index entry holds the length of a row id in one byte. -/
def maxLength : Nat := 255

def Valid (id : RowId) : Prop := id.bytes ≠ [] ∧ id.bytes.length ≤ maxLength

instance (id : RowId) : Decidable id.Valid := inferInstanceAs (Decidable (_ ∧ _))

def describe (id : RowId) : String := "RowId(" ++ Hex.encode id.bytes ++ ")"

end RowId

end IndexedTables
