import IndexedTables.Json.Reader
import IndexedTables.Sequence
import IndexedTables.Table
/-!
Numbered tables: row ids are numbers from a sequence. A number is taken before the row is written,
so a row that is refused costs its number.
-/
set_option autoImplicit false

namespace IndexedTables

structure NumberedTable (T : Type) where
  table : Table T
  sequence : Sequence

/-- The rows of a numbered table and the last number that its sequence handed out. -/
structure NumberedDump (T : Type) where
  sequence : UInt64
  rows : List (Row T)
  deriving DecidableEq, Repr

namespace NumberedDump

variable {T : Type}

def toJson (codec : Codec T) (d : NumberedDump T) : Except Error Json := do
  let rows ← d.rows.mapM (Row.toJson codec)
  return .ofFields [("sequence", .ofNat d.sequence.toNat), ("rows", .array rows)]

def ofJson? (codec : Codec T) (j : Json) : Option (NumberedDump T) := do
  match ← j.members? ["sequence", "rows"] with
  | [some sequence, some rows] =>
    return ⟨← sequence.uint64?, ← rows.list? (Row.ofJson? codec)⟩
  | _ => none

def parse (codec : Codec T) (text : Bytes) : Except Error (NumberedDump T) :=
  match Json.read? text >>= ofJson? codec with
  | some dump => .ok dump
  | none => .error .wrongShape

end NumberedDump

namespace NumberedTable

variable {T : Type}

def build (rows sequence : Space) (codec : Codec T) : Building (NumberedTable T) := do
  return ⟨← Table.build rows codec, ← Sequence.build sequence⟩

def create (t : NumberedTable T) (value : T) : Op UInt64 := do
  let n ← t.sequence.next
  t.table.create (RowId.ofNumber n) value
  return n

def save (t : NumberedTable T) (n : UInt64) (value : T) : Op Unit :=
  t.table.save (RowId.ofNumber n) value

def delete (t : NumberedTable T) (n : UInt64) : Op Unit := t.table.delete (RowId.ofNumber n)

def has (t : NumberedTable T) (n : UInt64) : Op Bool := t.table.has (RowId.ofNumber n)

def get (t : NumberedTable T) (n : UInt64) : Op T := t.table.get (RowId.ofNumber n)

def scan (t : NumberedTable T) (first last : UInt64) (reverse : Bool) : Op (Cursor T) :=
  t.table.scan (.ofNumbers first last) reverse

def dump (t : NumberedTable T) : Op (NumberedDump T) := do
  return ⟨← t.sequence.current, ← t.table.dump⟩

/-- Refuses a row whose number the sequence could still hand out. -/
def checkNumber (last : UInt64) (row : Row T) : Except Error Unit := do
  let n ← row.id.toNumber
  if n = 0 ∨ last < n then throw (.idOutsideSequence n last)

/-- Fills a table whose sequence was never used. -/
def restore (t : NumberedTable T) (d : NumberedDump T) : Op Unit := do
  liftM (d.rows.forM (checkNumber d.sequence))
  t.sequence.start d.sequence
  t.table.restore d.rows

def restoreJson (t : NumberedTable T) (text : Bytes) : Op Unit := do
  t.restore (← NumberedDump.parse t.table.codec text)

end NumberedTable

end IndexedTables
