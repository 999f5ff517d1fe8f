import IndexedTables.Index.Entry
import IndexedTables.SortedMap
import IndexedTables.Table
/-!
Indexers: they keep the entries of an index in step with the rows. An update touches the keys that
came or went and no others.
-/
set_option autoImplicit false

namespace IndexedTables

/-- How many rows may stand under one key. -/
inductive Policy where
  | multiKey
  | unique
  deriving DecidableEq, Repr

def Policy.name : Policy → String
  | .multiKey => "MultiKey"
  | .unique => "Unique"

abbrev KeySet := SortedMap Bytes Unit

def KeySet.without (a b : KeySet) : List Bytes := a.keys.filter fun key => !b.contains key

structure Indexer (T : Type) where
  space : Space
  policy : Policy
  /-- The keys that a value derives. Empty ones and repetitions count for nothing. -/
  keys : T → Except Error (List Bytes)

namespace Indexer

variable {T : Type}

def keySet (ix : Indexer T) (value : T) : Except Error KeySet := do
  let keys ← ix.keys value
  return SortedMap.ofList ((keys.filter (· ≠ [])).map fun key => (key, ()))

def add (ix : Indexer T) (id : RowId) (key : Bytes) : Op Unit := Op.inSpace ix.space do
  match ix.policy with
  | .multiKey =>
    let entry ← (IndexEntry.mk key id).encode
    if !(← Op.has entry) then Op.set entry []
  | .unique =>
    if ← Op.has key then throw (.keyTaken ix.space)
    Op.set key id.bytes

/-- Removes a row from a key. A unique key that another row owns is left alone. -/
def remove (ix : Indexer T) (id : RowId) (key : Bytes) : Op Unit := Op.inSpace ix.space do
  match ix.policy with
  | .multiKey => Op.delete (← (IndexEntry.mk key id).encode)
  | .unique => if (← Op.get key) = some id.bytes then Op.delete key

def create (ix : Indexer T) (id : RowId) (value : T) : Op Unit := do
  (← ix.keySet value).keys.forM (ix.add id)

def update (ix : Indexer T) (id : RowId) (new old : T) : Op Unit := do
  let newKeys ← ix.keySet new
  let oldKeys ← ix.keySet old
  (oldKeys.without newKeys).forM (ix.remove id)
  (newKeys.without oldKeys).forM (ix.add id)

def delete (ix : Indexer T) (id : RowId) (old : T) : Op Unit := do
  (← ix.keySet old).keys.forM (ix.remove id)

def observer (ix : Indexer T) : Observer T where
  saved id new old := match old with
    | none => ix.create id new
    | some old => ix.update id new old
  removed := ix.delete

end Indexer

end IndexedTables
