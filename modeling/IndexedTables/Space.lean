import IndexedTables.Bytes.Hex
set_option autoImplicit false

namespace IndexedTables

/-- The first byte of all keys that belong to one structure. -/
abbrev Space := UInt8

def Space.describe (space : Space) : String := "0x" ++ Hex.encode [space]

inductive Role where
  | table
  | index
  | sequence
  deriving DecidableEq, Repr

def Role.name : Role → String
  | .table => "Table"
  | .index => "Index"
  | .sequence => "Sequence"

end IndexedTables
