import IndexedTables.Bytes
/-!
The packed form of row fields: numbers as eight bytes, least significant first; texts, byte strings
and lists behind their length. A reader takes one value off the front.
-/
set_option autoImplicit false

namespace IndexedTables.Packed

def ofNat (n : Nat) : Bytes := Bytes.littleEndian 8 n

def ofUInt64 (n : UInt64) : Bytes := ofNat n.toNat

def ofBytes (b : Bytes) : Bytes := ofNat b.length ++ b

def ofText (s : String) : Bytes := ofBytes (Bytes.ofText s)

def ofList {α : Type} (item : α → Bytes) (items : List α) : Bytes :=
  ofNat items.length ++ items.flatMap item

/-- Takes a value off the front of the input, if one stands there. -/
abbrev Reader := StateT Bytes Option

def take (n : Nat) : Reader Bytes := fun input =>
  if (input.take n).length = n then some (input.take n, input.drop n) else none

def nat : Reader Nat := Bytes.littleValue <$> take 8

def uint64 : Reader UInt64 := UInt64.ofNat <$> nat

def bytes : Reader Bytes := do take (← nat)

def text : Reader String := do
  match Bytes.toText? (← bytes) with
  | some s => return s
  | none => failure

def many {α : Type} (item : Reader α) : Nat → Reader (List α)
  | 0 => return []
  | n + 1 => do return (← item) :: (← many item n)

def list {α : Type} (item : Reader α) : Reader (List α) := do many item (← nat)

/-- The value at the front of the input. What follows it is not looked at. -/
def read? {α : Type} (r : Reader α) (input : Bytes) : Option α := (r input).map (·.1)

end IndexedTables.Packed
