import IndexedTables.Error
import IndexedTables.Json
set_option autoImplicit false

namespace IndexedTables

/-- How the values of a type are written and read. -/
structure Codec (T : Type) where
  marshal : T → Except Error Bytes
  unmarshal : Bytes → Except Error T
  toJson : T → Except Error Json
  ofJson? : Json → Option T
  /-- The bytes that a row takes up in a list, its id included; what the id and the value hold
  elsewhere is not counted. -/
  rowSize : Nat

/-- A stored value reads back. -/
def Codec.RoundTrips {T : Type} (codec : Codec T) : Prop :=
  ∀ value stored, codec.marshal value = .ok stored → codec.unmarshal stored = .ok value

structure Row (T : Type) where
  id : RowId
  value : T
  deriving DecidableEq, Repr

namespace Row

variable {T : Type}

def toJson (codec : Codec T) (row : Row T) : Except Error Json := do
  return .ofFields [("id", .ofBytes row.id.bytes), ("value", ← codec.toJson row.value)]

def ofJson? (codec : Codec T) (j : Json) : Option (Row T) := do
  match ← j.members? ["id", "value"] with
  | [some id, some value] => return ⟨⟨← id.bytes?⟩, ← codec.ofJson? value⟩
  | _ => none

end Row

end IndexedTables
