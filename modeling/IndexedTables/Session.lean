import IndexedTables.Cursor
import IndexedTables.Store.Fault
import IndexedTables.Store.Overlay
set_option autoImplicit false

namespace IndexedTables

/-- Runs a program over the innermost of some overlays as a program over the store below all. -/
def Overlay.serveAll {α : Type} : List Overlay → Program α → Program (α × List Overlay)
  | [], p => (·, []) <$> p
  | o :: outer, p => do
    let ((a, o), outer) ← serveAll outer (o.serve p)
    return (a, o :: outer)

abbrev Cursors := SortedMap String (Cursor Json)

structure Session where
  disk : Disk
  faults : List Fault
  overlays : List Overlay
  cursors : Cursors
  /-- The cursors of the transactions around it, and those outside any. -/
  outerCursors : List Cursors

namespace Session

def fresh : Session := ⟨.ofStore .empty, [], [], .empty, []⟩

variable {α : Type}

def perform (p : Program α) (s : Session) : α × Session :=
  let ((a, overlays), disk) :=
    (Overlay.serveAll s.overlays p).run (Disk.handler (Fault.plan s.faults)) s.disk
  (a, { s with disk, overlays })

def begin (s : Session) : Session :=
  { s with
    overlays := .empty :: s.overlays
    cursors := .empty
    outerCursors := s.cursors :: s.outerCursors }

def leave (s : Session) : Session :=
  { s with
    overlays := s.overlays.tail
    cursors := s.outerCursors.headD s.cursors
    outerCursors := s.outerCursors.tail }

/-- Ends the innermost transaction and makes its changes below. It has ended even if that fails. -/
def commit (s : Session) : Except Error Unit × Session :=
  match s.overlays with
  | [] => (.ok (), s)
  | o :: _ => perform o.commit.run s.leave

def pending (s : Session) : Option Nat := s.overlays.head?.map (·.size)

def takeWrites (s : Session) : List Write × Session :=
  (s.disk.writes, { s with disk := { s.disk with writes := [] } })

/-- The lines told since they were last taken. Ending a transaction takes none of them back. -/
def takeLog (s : Session) : List String × Session :=
  (s.disk.log, { s with disk := { s.disk with log := [] } })

def keep (name : String) (cursor : Cursor Json) (s : Session) : Session :=
  { s with cursors := s.cursors.insert name cursor }

def next (name : String) (s : Session) : Except Error (Row Json) × Session :=
  let (load, rest) := ((s.cursors.find? name).getD []).next
  perform load.run (s.keep name rest)

end Session

end IndexedTables
