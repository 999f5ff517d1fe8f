import IndexedTables.Store.Contents
set_option autoImplicit false

namespace IndexedTables

/-- Which calls fail, and why. Calls are counted from zero. -/
structure FaultPlan where
  call : Nat → Call → Option Error
  /-- The failure of the entry under a key, in the scan that is the given call. -/
  entry : Nat → Bytes → Option Error

def FaultPlan.none : FaultPlan := ⟨fun _ _ => Option.none, fun _ _ => Option.none⟩

inductive Write where
  | set (key value : Bytes)
  | delete (key : Bytes)
  deriving DecidableEq, Repr

def Call.write? : Call → Option Write
  | .set key value => some (.set key value)
  | .delete key => some (.delete key)
  | .get _ | .has _ | .scan _ _ => none

structure Disk where
  store : Store
  calls : Nat
  writes : List Write
  log : List String

namespace Disk

def ofStore (store : Store) : Disk := ⟨store, 0, [], []⟩

def spoil (plan : FaultPlan) (n : Nat) (c : Call) (reply : Except Error c.Reply) :
    Except Error c.Reply :=
  match c, reply with
  | .scan _ _, .ok items => .ok <| items.map fun item => do
      let entry ← item
      match plan.entry n entry.1 with
      | some e => throw e
      | none => return entry
  | _, reply => reply

/-- A call that fails changes nothing but the count of calls. -/
def answer (plan : FaultPlan) (c : Call) (d : Disk) : Except Error c.Reply × Disk :=
  match plan.call d.calls c with
  | some e => (.error e, { d with calls := d.calls + 1 })
  | none =>
    let (reply, store) := d.store.answer c
    (spoil plan d.calls c reply,
      { d with store, calls := d.calls + 1, writes := d.writes ++ c.write?.toList })

def handler (plan : FaultPlan) : Handler Disk :=
  ⟨answer plan, fun line d => { d with log := d.log ++ [line] }⟩

end Disk

end IndexedTables
