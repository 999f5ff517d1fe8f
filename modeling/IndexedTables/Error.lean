import IndexedTables.RowId
import IndexedTables.Space
import IndexedTables.Text.Quoted
set_option autoImplicit false

namespace IndexedTables

inductive Kind where
  | io
  | storage
  | notFound
  | uniqueConstraint
  | invalidArgument
  | typeMismatch
  | iteratorDone
  | serialization
  | unknownRequest
  | config
  /-- Not an answer to the caller: the program stops. -/
  | panic
  deriving DecidableEq, Repr

namespace Kind

def message (detail : String) : Kind → String
  | .io => "IO error: " ++ detail
  | .storage => "Storage error: " ++ detail
  | .notFound => "Not found"
  | .uniqueConstraint => "Unique constraint violation: " ++ detail
  | .invalidArgument => "Invalid argument: " ++ detail
  | .typeMismatch => "Type mismatch: " ++ detail
  | .iteratorDone => "Iterator done"
  | .serialization => "Serialization error: " ++ detail
  | .unknownRequest => "Unknown request: " ++ detail
  | .config => "Configuration error: " ++ detail
  | .panic => detail

def recoverable : Kind → Bool
  | .notFound | .uniqueConstraint | .invalidArgument | .typeMismatch | .iteratorDone => true
  | .io | .storage | .serialization | .unknownRequest | .config | .panic => false

end Kind

inductive Error where
  | notFound
  | cursorDone
  | emptyRowId
  | rowIdTooLong (length : Nat)
  | notNumeric (length : Nat)
  | emptyRange
  | spaceTaken (space : Space) (owner : Role)
  | schemaSealed (space : Space) (role : Role)
  | emptyIndexKey
  | emptyEntry
  /-- The last byte of an index entry promises an id that the `available` bytes cannot hold. -/
  | corruptEntry (idLength available : Nat)
  | rowExists (id : RowId) (space : Space)
  | keyTaken (space : Space)
  | corruptSequence (space : Space)
  | sequenceExhausted (space : Space)
  | sequenceStarted (space : Space)
  | idOutsideSequence (id last : UInt64)
  /-- The value belongs under `key`, so it cannot replace the row at `id`. -/
  | rowWouldMove (id key : RowId)
  | rowMisplaced (id key : RowId)
  | zeroPageLimit
  /-- A list is to have room for more bytes than any list can have. -/
  | capacityOverflow
  | emptyKey
  | emptyBeginning
  | unknownModifier (modifier : String)
  | malformedRange
  | invalidRoute (path : String)
  | routeTaken (path : String)
  | unknownRoute (route : String)
  | zeroSetting (name : String)
  | unwritableRow (reason : String)
  | unreadableRow
  | wrongShape
  | noSuchFile
  | snapshotTooShort (length : Nat)
  | snapshotMagic (found : Bytes)
  | snapshotVersion (found : Nat)
  | snapshotChecksum
  | snapshotTruncated (offset : Nat)
  | snapshotCount (stated found : Nat)
  | badHex (text : String) (defect : Hex.Defect)
  | notOneByte (text : String)
  /-- A failure reported by a store, a codec, an index function or an observer. -/
  | reported (kind : Kind) (detail : String)
  deriving DecidableEq, Repr

namespace Error

def parts : Error → Kind × String
  | .notFound => (.notFound, "")
  | .cursorDone => (.iteratorDone, "")
  | .emptyRowId => (.invalidArgument, "empty row id")
  | .rowIdTooLong n => (.invalidArgument, s!"row id too long: {n} bytes (max {RowId.maxLength})")
  | .notNumeric n => (.invalidArgument, s!"expected 8-byte numeric key, got {n} bytes")
  | .emptyRange => (.invalidArgument, "start must be less than end")
  | .spaceTaken space owner =>
    (.invalidArgument, "prefix " ++ space.describe ++ " already used by a " ++ owner.name)
  | .schemaSealed space role =>
    (.invalidArgument,
      "schema is sealed, cannot register " ++ role.name ++ " prefix " ++ space.describe)
  | .emptyIndexKey => (.invalidArgument, "empty index key")
  | .emptyEntry => (.storage, "empty index entry")
  | .corruptEntry n available =>
    (.storage, s!"corrupt index entry: row id length {n} exceeds {available} bytes")
  | .rowExists id space =>
    (.uniqueConstraint,
      "row " ++ id.describe ++ " already exists in table " ++ space.describe)
  | .keyTaken space =>
    (.uniqueConstraint, "index " ++ space.describe ++ " already holds this key")
  | .corruptSequence space =>
    (.storage, "corrupt sequence value under prefix " ++ space.describe)
  | .sequenceExhausted space => (.storage, "sequence " ++ space.describe ++ " exhausted")
  | .sequenceStarted space =>
    (.invalidArgument, "sequence " ++ space.describe ++ " already initialized")
  | .idOutsideSequence id last =>
    (.invalidArgument, s!"row id {id} outside sequence range 1..={last}")
  | .rowWouldMove id key =>
    (.invalidArgument,
      "natural key is immutable: row " ++ id.describe ++ " cannot become " ++ key.describe)
  | .rowMisplaced id key =>
    (.invalidArgument,
      "row " ++ id.describe ++ " is not stored under its natural key " ++ key.describe)
  | .zeroPageLimit => (.invalidArgument, "page limit must be positive")
  | .capacityOverflow => (.panic, "capacity overflow")
  | .emptyKey => (.invalidArgument, "empty key")
  | .emptyBeginning => (.invalidArgument, "empty prefix")
  | .unknownModifier modifier =>
    (.invalidArgument, "unknown modifier: " ++ Text.quoted modifier)
  | .malformedRange => (.invalidArgument, "malformed range payload: ")
  | .invalidRoute path => (.invalidArgument, "invalid route: " ++ Text.quoted path)
  | .routeTaken path => (.invalidArgument, "route already registered: " ++ path)
  | .unknownRoute route => (.unknownRequest, route)
  | .zeroSetting name => (.config, name ++ " must be greater than zero")
  | .unwritableRow reason => (.serialization, "marshal failed: " ++ reason)
  | .unreadableRow => (.serialization, "unmarshal failed: ")
  | .wrongShape => (.typeMismatch, "")
  | .noSuchFile => (.io, "No such file or directory (os error 2)")
  | .snapshotTooShort n => (.storage, s!"Snapshot too short: {n} bytes")
  | .snapshotMagic found =>
    (.storage, "Invalid snapshot magic: expected AORM, got [" ++
      ", ".intercalate (found.map fun b => toString b.toNat) ++ "]")
  | .snapshotVersion found => (.storage, s!"Unsupported snapshot version: {found}")
  | .snapshotChecksum => (.storage, "Snapshot checksum mismatch")
  | .snapshotTruncated offset => (.storage, s!"Truncated snapshot entry at offset {offset}")
  | .snapshotCount stated found =>
    (.storage, s!"Snapshot entry count mismatch: header says {stated}, found {found}")
  | .badHex text .oddLength =>
    (.invalidArgument, "bad hex " ++ Text.quoted text ++ ": Odd number of digits")
  | .badHex text (.badDigit byte position) =>
    (.invalidArgument, "bad hex " ++ Text.quoted text ++ ": Invalid character " ++
      Text.quotedAlone (Char.ofNat byte.toNat) ++ s!" at position {position}")
  | .notOneByte text =>
    (.invalidArgument, "expected a single prefix byte, got " ++ Text.quoted text)
  | .reported kind detail => (kind, detail)

def kind (e : Error) : Kind := e.parts.1

def message (e : Error) : String := e.kind.message e.parts.2

end Error

theorem ok_of_bind {α β : Type} {x : Except Error α} {f : α → Except Error β} {b : β}
    (h : (x >>= f) = .ok b) : ∃ a, x = .ok a ∧ f a = .ok b := by
  cases x with
  | error e => cases h
  | ok a => exact ⟨a, rfl, h⟩

end IndexedTables
