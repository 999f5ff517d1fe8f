import IndexedTables.Json
set_option autoImplicit false

namespace IndexedTables.Json

def isBlank (b : UInt8) : Bool :=
  b = Ascii.space || b = Ascii.tab || b = Ascii.lineFeed || b = Ascii.carriageReturn

def skipBlanks (input : Bytes) : Bytes := input.dropWhile isBlank

/-- The bytes up to the closing quote, and what follows it. Control characters stand escaped. -/
def readString : Bytes → Option (Bytes × Bytes)
  | [] => none
  | Ascii.quote :: rest => some ([], rest)
  | Ascii.backslash :: Ascii.letterU :: a :: b :: c :: d :: rest => do
    let _ ← hex4? a b c d
    let (literal, rest) ← readString rest
    return (Ascii.backslash :: Ascii.letterU :: a :: b :: c :: d :: literal, rest)
  | Ascii.backslash :: letter :: rest => do
    let _ ← unescapeLetter? letter
    let (literal, rest) ← readString rest
    return (Ascii.backslash :: letter :: literal, rest)
  | b :: rest => do
    if b < Ascii.space || b = Ascii.backslash then none
    let (literal, rest) ← readString rest
    return (b :: literal, rest)

def readDigits (input : Bytes) : Bytes × Bytes :=
  (input.takeWhile Ascii.isDigit, input.dropWhile Ascii.isDigit)

def readInteger : Bytes → Option (Bytes × Bytes)
  | Ascii.zero :: rest => some ([Ascii.zero], rest)
  | input =>
    match readDigits input with
    | ([], _) => none
    | found => some found

def readFraction : Bytes → Option (Bytes × Bytes)
  | Ascii.point :: rest =>
    match readDigits rest with
    | ([], _) => none
    | (digits, rest) => some (Ascii.point :: digits, rest)
  | input => some ([], input)

def readExponent : Bytes → Option (Bytes × Bytes)
  | [] => some ([], [])
  | mark :: rest =>
    if mark = 0x65 || mark = 0x45 then
      let (sign, rest) : Bytes × Bytes := match rest with
        | Ascii.plus :: rest => ([Ascii.plus], rest)
        | Ascii.minus :: rest => ([Ascii.minus], rest)
        | rest => ([], rest)
      match readDigits rest with
      | ([], _) => none
      | (digits, rest) => some (mark :: sign ++ digits, rest)
    else some ([], mark :: rest)

def readNumber (input : Bytes) : Option (Bytes × Bytes) := do
  let (sign, rest) : Bytes × Bytes := match input with
    | Ascii.minus :: rest => ([Ascii.minus], rest)
    | input => ([], input)
  let (integer, rest) ← readInteger rest
  let (fraction, rest) ← readFraction rest
  let (exponent, rest) ← readExponent rest
  return (sign ++ integer ++ fraction ++ exponent, rest)

def after? (word input : Bytes) : Option Bytes :=
  if word.isPrefixOf input then some (input.drop word.length) else none

def readWord (input : Bytes) : Option (Json × Bytes) :=
  match after? Ascii.null input, after? Ascii.yes input, after? Ascii.no input with
  | some rest, _, _ => some (.null, rest)
  | none, some rest, _ => some (.bool true, rest)
  | none, none, some rest => some (.bool false, rest)
  | none, none, none => (readNumber input).map fun (literal, rest) => (.number literal, rest)

mutual

/-- A value after blanks. Each nested value and each further item uses up fuel. -/
def readValue : (fuel : Nat) → Bytes → Option (Json × Bytes)
  | 0, _ => none
  | fuel + 1, input =>
    match skipBlanks input with
    | Ascii.quote :: rest => do
      let (literal, rest) ← readString rest
      return (.string literal, rest)
    | Ascii.openBracket :: rest =>
      match skipBlanks rest with
      | Ascii.closeBracket :: rest => some (.array [], rest)
      | rest => do
        let (items, rest) ← readItems fuel rest
        return (.array items, rest)
    | Ascii.openBrace :: rest =>
      match skipBlanks rest with
      | Ascii.closeBrace :: rest => some (.object [], rest)
      | rest => do
        let (fields, rest) ← readFields fuel rest
        return (.object fields, rest)
    | rest => readWord rest

def readItems : (fuel : Nat) → Bytes → Option (List Json × Bytes)
  | 0, _ => none
  | fuel + 1, input => do
    let (item, rest) ← readValue fuel input
    match skipBlanks rest with
    | Ascii.closeBracket :: rest => return ([item], rest)
    | Ascii.comma :: rest =>
      let (items, rest) ← readItems fuel rest
      return (item :: items, rest)
    | _ => none

def readFields : (fuel : Nat) → Bytes → Option (List (Bytes × Json) × Bytes)
  | 0, _ => none
  | fuel + 1, input => do
    match skipBlanks input with
    | Ascii.quote :: rest =>
      let (name, rest) ← readString rest
      match skipBlanks rest with
      | Ascii.colon :: rest =>
        let (value, rest) ← readValue fuel rest
        match skipBlanks rest with
        | Ascii.closeBrace :: rest => return ([(name, value)], rest)
        | Ascii.comma :: rest =>
          let (fields, rest) ← readFields fuel rest
          return ((name, value) :: fields, rest)
        | _ => none
      | _ => none
    | _ => none

end

/-- A string that denotes no text. It stands where no reader takes what was written. -/
def unread : Json := .string [Ascii.backslash]

mutual

/-- The value without the arrays and objects that stand within `depth` others. -/
def clip : (depth : Nat) → Json → Json
  | 0, .array _ => unread
  | 0, .object _ => unread
  | depth + 1, .array items => .array (clipItems depth items)
  | depth + 1, .object fields => .object (clipFields depth fields)
  | _, j => j

def clipItems (depth : Nat) : List Json → List Json
  | [] => []
  | item :: rest => item.clip depth :: clipItems depth rest

def clipFields (depth : Nat) : List (Bytes × Json) → List (Bytes × Json)
  | [] => []
  | (name, value) :: rest => (name, value.clip depth) :: clipFields depth rest

end

/-- How many arrays and objects are taken at most one within the other. Deeper ones may stand in a
text, but only where they are passed over. -/
def maxDepth : Nat := 127

/-- The value that a whole text holds. Every step of the reader takes up a byte, at most two steps
for one byte, so the fuel is never short. -/
def read? (input : Bytes) : Option Json := do
  let (value, rest) ← readValue (2 * input.length + 2) input
  if (skipBlanks rest).isEmpty then return value.clip maxDepth else none

end IndexedTables.Json
