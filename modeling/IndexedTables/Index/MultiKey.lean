import IndexedTables.Index.Indexer
set_option autoImplicit false

namespace IndexedTables

def checkIndexKey (key : Bytes) : Except Error Unit :=
  if key = [] then .error .emptyIndexKey else .ok ()

structure MultiKeyIndex (T : Type) where
  space : Space
  rows : Rows T

namespace MultiKeyIndex

variable {T : Type}

def attach (t : Table T) (space : Space) (keys : T → Except Error (List Bytes)) :
    Building (Table T × MultiKeyIndex T) := do
  Building.claim space .index
  let indexer : Indexer T := ⟨space, .multiKey, keys⟩
  return (t.observe indexer.observer, ⟨space, t.toRows⟩)

/-- Whether some entry has exactly this key. The first entry that cannot be read is an error. -/
def holds (key : Bytes) : List Item → Except Error Bool
  | [] => .ok false
  | item :: rest => do
    let (entry, _) ← item
    if (← IndexEntry.decode entry).key = key then return true
    holds key rest

def has (ix : MultiKeyIndex T) (key : Bytes) : Op Bool := do
  checkIndexKey key
  let items ← (Op.scan (.beginningWith key) false).inSpace ix.space
  holds key items

def load (ix : MultiKeyIndex T) (entry : Except Error IndexEntry) : Op (Row T) := do
  let entry ← entry
  return ⟨entry.id, ← ix.rows.get entry.id⟩

def entries (items : List Item) : List (Except Error IndexEntry) :=
  items.map fun item => do IndexEntry.decode (← item).1

/-- Whether an entry belongs to the answer for one key. What cannot be read does: its error is. -/
def matchesKey (key : Bytes) : Except Error IndexEntry → Bool
  | .ok entry => entry.key = key
  | .error _ => true

def get (ix : MultiKeyIndex T) (key : Bytes) : Op (Cursor T) := do
  checkIndexKey key
  let items ← (Op.scan (.beginningWith key) false).inSpace ix.space
  return ((entries items).filter (matchesKey key)).map ix.load

/-- The rows whose entries lie in a range, in the order of entries or in the reverse of it. -/
def scan (ix : MultiKeyIndex T) (range : KeyRange) (reverse : Bool) : Op (Cursor T) := do
  range.check
  let items ← (Op.scan range reverse).inSpace ix.space
  return (entries items).map ix.load

end MultiKeyIndex

structure NumberIndex (T : Type) where
  index : MultiKeyIndex T

namespace NumberIndex

variable {T : Type}

def attach (t : Table T) (space : Space) (numbers : T → Except Error (List UInt64)) :
    Building (Table T × NumberIndex T) := do
  let (t, index) ← MultiKeyIndex.attach t space fun value => (numbers value).map (·.map numericKey)
  return (t, ⟨index⟩)

def has (ix : NumberIndex T) (n : UInt64) : Op Bool := ix.index.has (numericKey n)

def get (ix : NumberIndex T) (n : UInt64) : Op (Cursor T) := ix.index.get (numericKey n)

def scan (ix : NumberIndex T) (first last : UInt64) (reverse : Bool) : Op (Cursor T) :=
  ix.index.scan (.ofNumbers first last) reverse

end NumberIndex

end IndexedTables
