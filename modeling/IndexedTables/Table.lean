import IndexedTables.Cursor
import IndexedTables.NumericKey
import IndexedTables.Schema
import IndexedTables.Store.View
/-!
Tables: rows in a space of their own, each under its id. Observers are told of every row that is
saved or removed; indexes are kept by observers. The first failure ends an operation, and what was
written before it stays: a caller who wants all or nothing runs the operation over an overlay.
-/
set_option autoImplicit false

namespace IndexedTables

structure Rows (T : Type) where
  space : Space
  codec : Codec T

structure Observer (T : Type) where
  /-- The row was written; a row that was there before is given as `old`. -/
  saved : RowId → (new : T) → (old : Option T) → Op Unit
  removed : RowId → (old : T) → Op Unit

structure Table (T : Type) extends Rows T where
  observers : List (Observer T)

namespace Rows

variable {T : Type}

def get (rows : Rows T) (id : RowId) : Op T := do
  match ← (Op.get id.bytes).inSpace rows.space with
  | some stored => rows.codec.unmarshal stored
  | none => throw .notFound

def ofItem (rows : Rows T) (item : Item) : Except Error (Row T) := do
  let (key, stored) ← item
  return ⟨⟨key⟩, ← rows.codec.unmarshal stored⟩

end Rows

namespace Table

variable {T : Type}

def build (space : Space) (codec : Codec T) : Building (Table T) := do
  Building.claim space .table
  return { space, codec, observers := [] }

def observe (t : Table T) (o : Observer T) : Table T := { t with observers := t.observers ++ [o] }

def has (t : Table T) (id : RowId) : Op Bool := (Op.has id.bytes).inSpace t.space

def get (t : Table T) (id : RowId) : Op T := t.toRows.get id

/-- Writes a row and tells the observers. -/
def write (t : Table T) (id : RowId) (value : T) (old : Option T) : Op Unit := do
  let stored ← t.codec.marshal value
  (Op.set id.bytes stored).inSpace t.space
  t.observers.forM fun o => o.saved id value old

def create (t : Table T) (id : RowId) (value : T) : Op Unit := do
  id.check
  if ← t.has id then throw (.rowExists id t.space)
  t.write id value none

def save (t : Table T) (id : RowId) (value : T) : Op Unit := do
  let old ← t.get id
  t.write id value (some old)

def delete (t : Table T) (id : RowId) : Op Unit := do
  let old ← t.get id
  (Op.delete id.bytes).inSpace t.space
  t.observers.forM fun o => o.removed id old

def scan (t : Table T) (range : KeyRange) (reverse : Bool) : Op (Cursor T) := do
  range.check
  let items ← (Op.scan range reverse).inSpace t.space
  return items.map fun item => liftM (t.ofItem item)

/-- A page that begins at the given id, or at the first row. -/
def page (t : Table T) (key : Option RowId) (limit : UInt64) (config : Config) : Op (Page T) := do
  let cursor ← t.scan ⟨key.map (·.bytes), none⟩ false
  cursor.paginate t.codec.rowSize (config.pageLimit limit)

def dump (t : Table T) : Op (List (Row T)) := do
  (← t.scan .all false).readAll

/-- Puts the given rows in place of the present ones. Each row is removed and added like any
other, so indexes follow. -/
def restore (t : Table T) (rows : List (Row T)) : Op Unit := do
  let present ← (← t.scan .all false).readAll
  present.forM fun row => t.delete row.id
  rows.forM fun row => t.create row.id row.value

theorem restore_eq (t : Table T) (rows : List (Row T)) : t.restore rows = (do
    let present ← t.dump
    present.forM fun row => t.delete row.id
    rows.forM fun row => t.create row.id row.value) := by
  simp only [restore, dump, bind_assoc]

end Table

end IndexedTables
