import IndexedTables.Error
set_option autoImplicit false

namespace IndexedTables

/-- The keys from `start` on and below `stop`. -/
structure KeyRange where
  start : Option Bytes
  stop : Option Bytes
  deriving DecidableEq, Repr

namespace KeyRange

def all : KeyRange := ⟨none, none⟩

def beginningWith (b : Bytes) : KeyRange := ⟨some b, Bytes.upperBound b⟩

/-- One key alone: its least extension is the next key. -/
def only (key : Bytes) : KeyRange := ⟨some key, some (key ++ [0])⟩

def contains (range : KeyRange) (key : Bytes) : Bool :=
  range.start.all (fun start => !decide (key < start)) && range.stop.all fun stop => key < stop

/-- Both bounds are given and nothing lies between them. -/
def inverted : KeyRange → Bool
  | ⟨some start, some stop⟩ => !decide (start < stop)
  | _ => false

def check (range : KeyRange) : Except Error Unit :=
  if range.inverted then .error .emptyRange else .ok ()

def behind (lead : Bytes) (range : KeyRange) : KeyRange where
  start := some (lead ++ range.start.getD [])
  stop := match range.stop with
    | some stop => some (lead ++ stop)
    | none => Bytes.upperBound lead

end KeyRange

end IndexedTables
