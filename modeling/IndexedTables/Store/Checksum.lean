import IndexedTables.Bytes
/-!
The 32-bit cyclic redundancy check with the reflected polynomial `0xedb88320`, all ones at the
start and inverted at the end.
-/
set_option autoImplicit false

namespace IndexedTables.Checksum

def shift (c : UInt32) : UInt32 := if c &&& 1 = 1 then (c >>> 1) ^^^ 0xedb88320 else c >>> 1

/-- The remainder once one more byte is taken in. -/
def step (c : UInt32) (b : UInt8) : UInt32 := Nat.repeat shift 8 (c ^^^ b.toUInt32)

def checksum (b : Bytes) : UInt32 := b.foldl step 0xffffffff ^^^ 0xffffffff

end IndexedTables.Checksum
