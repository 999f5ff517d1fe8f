import IndexedTables.Store.Disk
set_option autoImplicit false

namespace IndexedTables

inductive FaultKind where
  | set
  | delete
  | read
  | iter
  /-- A scan whose start begins so. -/
  | begin
  deriving DecidableEq, Repr

def FaultKind.name : FaultKind → String
  | .set => "set"
  | .delete => "delete"
  | .read => "read"
  | .iter => "iter"
  | .begin => "open"

structure Fault where
  kind : FaultKind
  lead : Bytes
  deriving DecidableEq, Repr

namespace Fault

def error (kind : FaultKind) : Error :=
  .reported .storage ("injected " ++ kind.name ++ " fault")

def strike (faults : List Fault) (kind : FaultKind) (key : Bytes) : Option Error :=
  if faults.any fun f => f.kind = kind && f.lead.isPrefixOf key then some (error kind) else none

/-- Faults last until they are healed, whatever was called before. -/
def plan (faults : List Fault) : FaultPlan where
  call _ c := match c with
    | .get key | .has key => strike faults .read key
    | .set key _ => strike faults .set key
    | .delete key => strike faults .delete key
    | .scan range _ => strike faults .begin (range.start.getD [])
  entry _ := strike faults .iter

end Fault

end IndexedTables
