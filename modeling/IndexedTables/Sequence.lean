import IndexedTables.NumericKey
import IndexedTables.Schema
import IndexedTables.Store.View
set_option autoImplicit false

namespace IndexedTables

structure Sequence where
  space : Space
  deriving DecidableEq, Repr

namespace Sequence

def key : Bytes := [0x01]

def build (space : Space) : Building Sequence := do
  Building.claim space .sequence
  return ⟨space⟩

/-- The last number handed out, zero before the first. -/
def current (q : Sequence) : Op UInt64 := do
  match ← (Op.get key).inSpace q.space with
  | some raw =>
    match numberOfKey raw with
    | .ok n => return n
    | .error _ => throw (.corruptSequence q.space)
  | none => return 0

def peek (q : Sequence) : Op UInt64 := do
  let last ← q.current
  if last = 0xffffffffffffffff then throw (.sequenceExhausted q.space)
  return last + 1

def store (q : Sequence) (n : UInt64) : Op Unit := (Op.set key (numericKey n)).inSpace q.space

def next (q : Sequence) : Op UInt64 := do
  let n ← q.peek
  q.store n
  return n

/-- Starts the sequence behind `n`, if it holds no number yet. -/
def start (q : Sequence) (n : UInt64) : Op Unit := do
  if ← (Op.has key).inSpace q.space then throw (.sequenceStarted q.space)
  q.store n

end Sequence

end IndexedTables
