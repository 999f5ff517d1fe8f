import IndexedTables.Index.MultiKey
set_option autoImplicit false

namespace IndexedTables

structure UniqueIndex (T : Type) where
  space : Space
  rows : Rows T

namespace UniqueIndex

variable {T : Type}

/-- Takes a space for the index and adds its observer to the table. A value whose key is empty is
not indexed. -/
def attach (t : Table T) (space : Space) (key : T → Except Error Bytes) :
    Building (Table T × UniqueIndex T) := do
  Building.claim space .index
  let indexer : Indexer T := ⟨space, .unique, fun value => (key value).map fun key => [key]⟩
  return (t.observe indexer.observer, ⟨space, t.toRows⟩)

def has (ix : UniqueIndex T) (key : Bytes) : Op Bool := do
  checkIndexKey key
  (Op.has key).inSpace ix.space

def owner (ix : UniqueIndex T) (key : Bytes) : Op RowId := do
  checkIndexKey key
  match ← (Op.get key).inSpace ix.space with
  | some id => return ⟨id⟩
  | none => throw .notFound

def load (ix : UniqueIndex T) (item : Item) : Op (Row T) := do
  let (_, id) ← item
  return ⟨⟨id⟩, ← ix.rows.get ⟨id⟩⟩

def get (ix : UniqueIndex T) (key : Bytes) : Op (Cursor T) := do
  checkIndexKey key
  let items ← (Op.scan (.only key) false).inSpace ix.space
  return items.map ix.load

def getOne (ix : UniqueIndex T) (key : Bytes) : Op (Row T) := do (← ix.get key).first

def scan (ix : UniqueIndex T) (range : KeyRange) (reverse : Bool) : Op (Cursor T) := do
  range.check
  let items ← (Op.scan range reverse).inSpace ix.space
  return items.map ix.load

end UniqueIndex

end IndexedTables
