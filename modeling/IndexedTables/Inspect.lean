import IndexedTables.Inspect.Arguments
import IndexedTables.Sequence
import IndexedTables.Store.Contents
import IndexedTables.Store.Snapshot
set_option autoImplicit false

namespace IndexedTables.Inspect

structure Outcome where
  exit : Nat
  lines : List String
  logged : Option Error
  deriving DecidableEq, Repr

def productName : String := "atlasorm"

def versionLine : String := productName ++ "-inspect 0.1.0"

def defaultFile : String := "./" ++ productName ++ ".snapshot"

/-- The bytes of an operand, which may begin with `0x`, once or more often. -/
def stripMarks : List Char → List Char
  | '0' :: 'x' :: rest => stripMarks rest
  | text => text

def readHex (operand : String) : Except Error Bytes :=
  let text := String.ofList (stripMarks operand.toList)
  match Hex.decode text with
  | .ok b => .ok b
  | .error defect => .error (.badHex text defect)

def readSpace (operand : String) : Except Error Space := do
  match ← readHex operand with
  | [space] => return space
  | _ => throw (.notOneByte operand)

def countSpaces (s : Store) : SortedMap Space Nat :=
  (s.entries.filterMap fun e => e.1.head?).foldl
    (fun counts space => counts.insert space ((counts.find? space).getD 0 + 1)) .empty

def statsLines (s : Store) : List String :=
  s!"{s.size} entries" ::
    (countSpaces s).entries.map fun (space, count) => space.describe ++ s!"\t{count}"

def entryLine : Bytes × Bytes → String
  | (key, value) => Hex.encode key ++ s!"\t{value.length} bytes\t" ++ Hex.encode value

def scanLines (start : Bytes) (reverse : Bool) (limit : Nat) : Op (List String) := do
  let items ← (Op.scan .all reverse).within start
  (items.take limit).mapM fun item => liftM (item.map entryLine)

def Command.lines (s : Store) : Command → Except Error (List String)
  | .stats => .ok (statsLines s)
  | .scan start reverse limit => do
    let start ← readHex start
    ((scanLines start reverse limit).run.run Store.handler s).1
  | .sequence space => do
    let sequence : Sequence := ⟨← readSpace space⟩
    let last ← (sequence.current.run.run Store.handler s).1
    return [toString last.toNat]

/-- What a request comes to, given the bytes of the file, if there is one. -/
def Request.outcome (contents : Option Bytes) : Request → Outcome
  | .version => ⟨0, [versionLine], none⟩
  | .run command =>
    match contents.elim (.error .noSuchFile) Snapshot.decode >>= (command.lines ·) with
    | .ok lines => ⟨0, lines, none⟩
    | .error e => ⟨1, [], some e⟩

def misuse : Outcome := ⟨2, [], none⟩

def run (contents : Option Bytes) (arguments : List String) : Outcome :=
  match Invocation.read arguments with
  | none => misuse
  | some invocation => invocation.request.outcome contents

end IndexedTables.Inspect
