import IndexedTables.Bytes
set_option autoImplicit false

namespace IndexedTables.Hex

def digit (n : Nat) : Char :=
  if n < 10 then Char.ofNat (48 + n) else Char.ofNat (87 + n)

def value? (b : UInt8) : Option UInt8 :=
  if 48 ≤ b ∧ b ≤ 57 then some (b - 48)
  else if 97 ≤ b ∧ b ≤ 102 then some (b - 87)
  else if 65 ≤ b ∧ b ≤ 70 then some (b - 55)
  else none

def ofByte (b : UInt8) : List Char := [digit (b.toNat / 16), digit (b.toNat % 16)]

def encode (b : Bytes) : String := String.ofList (b.flatMap ofByte)

def ofNat (n : Nat) : String := String.ofList (Nat.toDigits 16 n)

inductive Defect where
  | oddLength
  | badDigit (byte : UInt8) (position : Nat)
  deriving DecidableEq, Repr

/-- Reads pairs of digits from the given position on and names the first byte that is none. -/
def decodeFrom : (position : Nat) → Bytes → Except Defect Bytes
  | _, [] => .ok []
  | _, [_] => .error .oddLength
  | position, high :: low :: rest =>
    match value? high, value? low with
    | none, _ => .error (.badDigit high position)
    | some _, none => .error (.badDigit low (position + 1))
    | some h, some l => do return (h * 16 + l) :: (← decodeFrom (position + 2) rest)

/-- An odd number of bytes is reported before any byte is looked at. -/
def decode (text : String) : Except Defect Bytes :=
  let b := Bytes.ofText text
  if b.length % 2 = 1 then .error .oddLength else decodeFrom 0 b

end IndexedTables.Hex
