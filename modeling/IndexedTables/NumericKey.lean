import IndexedTables.KeyRange
set_option autoImplicit false

namespace IndexedTables

def numericKey (n : UInt64) : Bytes := Bytes.bigEndian 8 n.toNat

def numberOfKey (key : Bytes) : Except Error UInt64 :=
  if key.length = 8 then .ok (UInt64.ofNat (Bytes.bigValue key))
  else .error (.notNumeric key.length)

def KeyRange.ofNumbers (first last : UInt64) : KeyRange :=
  ⟨some (numericKey first), some (numericKey last)⟩

namespace RowId

def ofNumber (n : UInt64) : RowId := ⟨numericKey n⟩

def toNumber (id : RowId) : Except Error UInt64 := numberOfKey id.bytes

/-- Refuses ids that no index entry can hold. -/
def check (id : RowId) : Except Error Unit :=
  if id.bytes = [] then .error .emptyRowId
  else if maxLength < id.bytes.length then .error (.rowIdTooLong id.bytes.length)
  else .ok ()

end RowId

end IndexedTables
