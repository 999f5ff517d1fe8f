import IndexedTables.Config
import IndexedTables.Row
import IndexedTables.Store.Program
set_option autoImplicit false

namespace IndexedTables

/-- The rows that are still to be read. Loading one may call the store, and may fail. -/
abbrev Cursor (T : Type) := List (Op (Row T))

structure Page (T : Type) where
  rows : List (Row T)
  next : Option RowId
  deriving DecidableEq, Repr

namespace Cursor

variable {T U : Type}

def mapValues (f : T → Except Error U) (c : Cursor T) : Cursor U :=
  c.map fun load => do
    let row ← load
    return ⟨row.id, ← f row.value⟩

def next : Cursor T → Op (Row T) × Cursor T
  | [] => (throw .cursorDone, [])
  | load :: rest => (load, rest)

def first : Cursor T → Op (Row T)
  | [] => throw .notFound
  | load :: _ => load

def readAll (c : Cursor T) : Op (List (Row T)) := c.mapM id

def outcomes (c : Cursor T) : Program (List (Except Error (Row T))) := c.mapM ExceptT.run

/-- At most `limit` rows. One row more is loaded, for its id alone. -/
def page (limit : Nat) (c : Cursor T) : Op (Page T) := do
  let rows ← readAll (c.take limit)
  match c.drop limit with
  | [] => return ⟨rows, none⟩
  | load :: _ => return ⟨rows, some (← load).id⟩

def maxListBytes : Nat := 0x7fffffffffffffff

/-- A page that is asked for. Room for as many rows as the limit states, each of `rowSize` bytes, is
taken before any row is looked for; that there is too little memory for it is left aside. -/
def paginate (rowSize : Nat) (limit : UInt64) (c : Cursor T) : Op (Page T) :=
  if limit = 0 then throw .zeroPageLimit
  else if maxListBytes < limit.toNat * rowSize then throw .capacityOverflow
  else c.page limit.toNat

end Cursor

end IndexedTables
