import IndexedTables.Bytes.Ascii
import IndexedTables.Bytes.Hex
import IndexedTables.SortedMap
/-!
JSON text as a tree of tokens. Numbers and strings keep the characters they are written with, so a
tree may hold a number or a string that denotes nothing this library can name; `natural?` and
`text?` say what a token denotes.
-/
set_option autoImplicit false

namespace IndexedTables

/-- A JSON value. A string, like the name of a field, holds the bytes between its quotes. -/
inductive Json where
  | null
  | bool (value : Bool)
  | number (literal : Bytes)
  | string (literal : Bytes)
  | array (items : List Json)
  | object (fields : List (Bytes × Json))
  deriving Inhabited

namespace Json

def decimal (n : Nat) : Bytes :=
  if n < 10 then [Ascii.zero + UInt8.ofNat n]
  else decimal (n / 10) ++ [Ascii.zero + UInt8.ofNat (n % 10)]

def decimalValue (digits : Bytes) : Nat :=
  digits.foldl (fun n d => 10 * n + (d - Ascii.zero).toNat) 0

def ofNat (n : Nat) : Json := .number (decimal n)

/-- The natural number that a value is. A sign, a fraction or an exponent makes it none. -/
def natural? : Json → Option Nat
  | .number literal => if literal.all Ascii.isDigit then some (decimalValue literal) else none
  | _ => none

def escapeLetters : List (UInt8 × UInt8) := [
    (Ascii.quote, Ascii.quote), (Ascii.backslash, Ascii.backslash), (0x08, 0x62),
    (Ascii.tab, 0x74), (Ascii.lineFeed, 0x6e), (0x0c, 0x66), (Ascii.carriageReturn, 0x72)]

def escapeByte (b : UInt8) : Bytes :=
  match escapeLetters.lookup b with
  | some letter => [Ascii.backslash, letter]
  | none =>
    if b < Ascii.space then
      [Ascii.backslash, Ascii.letterU, Ascii.zero, Ascii.zero] ++
        (Hex.ofByte b).map fun c => c.toNat.toUInt8
    else [b]

def ofUtf8 (b : Bytes) : Json := .string (b.flatMap escapeByte)

def ofText (s : String) : Json := ofUtf8 (Bytes.ofText s)

def hex4? (a b c d : UInt8) : Option Nat := do
  let a ← Hex.value? a
  let b ← Hex.value? b
  let c ← Hex.value? c
  let d ← Hex.value? d
  return ((a.toNat * 16 + b.toNat) * 16 + c.toNat) * 16 + d.toNat

def unescapeLetter? (letter : UInt8) : Option UInt8 :=
  if letter = Ascii.slash then some Ascii.slash
  else (escapeLetters.find? fun e => e.2 = letter).map (·.1)

def codePoint (n : Nat) : Bytes := String.utf8EncodeChar (Char.ofNat n)

def isHighSurrogate (n : Nat) : Bool := 0xd800 ≤ n && n < 0xdc00

def isLowSurrogate (n : Nat) : Bool := 0xdc00 ≤ n && n < 0xe000

/-- The bytes of a string with its escapes replaced. A surrogate counts only within a pair. -/
def unescape? : Bytes → Option Bytes
  | [] => some []
  | Ascii.backslash :: Ascii.letterU :: a :: b :: c :: d :: rest => do
    let n ← hex4? a b c d
    if isHighSurrogate n then
      match rest with
      | Ascii.backslash :: Ascii.letterU :: a :: b :: c :: d :: rest => do
        let m ← hex4? a b c d
        if isLowSurrogate m then
          return codePoint (0x10000 + (n - 0xd800) * 0x400 + (m - 0xdc00)) ++ (← unescape? rest)
        else none
      | _ => none
    else if isLowSurrogate n then none
    else return codePoint n ++ (← unescape? rest)
  | Ascii.backslash :: letter :: rest => do
    return (← unescapeLetter? letter) :: (← unescape? rest)
  | b :: rest => do
    if b = Ascii.backslash then none else return b :: (← unescape? rest)

def textOf? (literal : Bytes) : Option String := unescape? literal >>= Bytes.toText?

def text? : Json → Option String
  | .string literal => textOf? literal
  | _ => none

def ofFields (fields : List (String × Json)) : Json :=
  .object (fields.map fun (name, value) => ((Bytes.ofText name).flatMap escapeByte, value))

def ofBytes (b : Bytes) : Json := .array (b.map fun x => ofNat x.toNat)

def uint64? (j : Json) : Option UInt64 := do
  let n ← j.natural?
  if n < UInt64.size then some (UInt64.ofNat n) else none

def byte? (j : Json) : Option UInt8 := do
  let n ← j.natural?
  if n < 256 then some (UInt8.ofNat n) else none

def list? {α : Type} (item? : Json → Option α) : Json → Option (List α)
  | .array items => items.mapM item?
  | _ => none

def bytes? : Json → Option Bytes := list? byte?

/-- The values of the named members of a record. A record is an object, each of whose names is a
text and holds any named member at most once, or an array of the members in order, of which the
last may be missing. -/
def members? (names : List String) : Json → Option (List (Option Json))
  | .object fields => do
    let fields ← fields.mapM fun (name, value) => do return (← textOf? name, value)
    names.mapM fun name =>
      match fields.filter fun (other, _) => other = name with
      | [] => some none
      | [(_, value)] => some (some value)
      | _ => none
  | .array items =>
    if items.length ≤ names.length then
      some (items.map some ++ List.replicate (names.length - items.length) none)
    else none
  | _ => none

def renderString (literal : Bytes) : Bytes := Ascii.quote :: literal ++ [Ascii.quote]

mutual

def render : Json → Bytes
  | .null => Ascii.null
  | .bool true => Ascii.yes
  | .bool false => Ascii.no
  | .number literal => literal
  | .string literal => renderString literal
  | .array items => Ascii.openBracket :: renderItems items ++ [Ascii.closeBracket]
  | .object fields => Ascii.openBrace :: renderFields fields ++ [Ascii.closeBrace]

def renderItems : List Json → Bytes
  | [] => []
  | [item] => item.render
  | item :: next :: rest => item.render ++ Ascii.comma :: renderItems (next :: rest)

def renderFields : List (Bytes × Json) → Bytes
  | [] => []
  | [(name, value)] => renderString name ++ Ascii.colon :: value.render
  | (name, value) :: next :: rest =>
    renderString name ++ Ascii.colon :: value.render ++ Ascii.comma :: renderFields (next :: rest)

end

mutual

/-- The value with the fields of every object in ascending order of their names. Of two fields with
one name the later stays. -/
def sortFields : Json → Json
  | .array items => .array (sortItems items)
  | .object fields => .object ((SortedMap.ofList (sortMembers fields)).entries.map (·.2))
  | j => j

def sortItems : List Json → List Json
  | [] => []
  | item :: rest => item.sortFields :: sortItems rest

def sortMembers : List (Bytes × Json) → List (Bytes × Bytes × Json)
  | [] => []
  | (name, value) :: rest =>
    ((unescape? name).getD name, name, value.sortFields) :: sortMembers rest

end

end Json

end IndexedTables
