import IndexedTables.Json.Reader
import IndexedTables.Table
set_option autoImplicit false

namespace IndexedTables

structure NaturalTable (T : Type) where
  table : Table T
  key : T → RowId

namespace NaturalTable

variable {T : Type}

def build (space : Space) (codec : Codec T) (key : T → RowId) : Building (NaturalTable T) := do
  return ⟨← Table.build space codec, key⟩

def create (t : NaturalTable T) (value : T) : Op RowId := do
  t.table.create (t.key value) value
  return t.key value

def save (t : NaturalTable T) (value : T) : Op Unit := t.table.save (t.key value) value

/-- Replaces the row at `id` by a value with the same key. -/
def saveAt (t : NaturalTable T) (id : RowId) (value : T) : Op Unit := do
  if t.key value ≠ id then throw (.rowWouldMove id (t.key value))
  t.table.save id value

def delete (t : NaturalTable T) (value : T) : Op Unit := t.table.delete (t.key value)

def has (t : NaturalTable T) (id : RowId) : Op Bool := t.table.has id

def get (t : NaturalTable T) (id : RowId) : Op T := t.table.get id

def dump (t : NaturalTable T) : Op (List (Row T)) := t.table.dump

/-- Refuses a row that does not lie under the key of its value. -/
def checkPlace (t : NaturalTable T) (row : Row T) : Except Error Unit :=
  if t.key row.value ≠ row.id then .error (.rowMisplaced row.id (t.key row.value)) else .ok ()

def restore (t : NaturalTable T) (rows : List (Row T)) : Op Unit := do
  liftM (rows.forM t.checkPlace)
  t.table.restore rows

def parse (codec : Codec T) (text : Bytes) : Except Error (List (Row T)) :=
  match Json.read? text >>= Json.list? (Row.ofJson? codec) with
  | some rows => .ok rows
  | none => .error .wrongShape

def restoreJson (t : NaturalTable T) (text : Bytes) : Op Unit := do
  t.restore (← parse t.table.codec text)

end NaturalTable

end IndexedTables
