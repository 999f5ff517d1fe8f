import IndexedTables.Json.Reader
import IndexedTables.KeyRange
set_option autoImplicit false

namespace IndexedTables

/-- The route of a path and the modifier behind the first question mark. -/
def splitPath (path : String) : String × Option String :=
  match path.toList.span (· ≠ '?') with
  | (_, []) => (path, none)
  | (route, _ :: modifier) => (String.ofList route, some (String.ofList modifier))

inductive Modifier where
  | exact (key : Bytes)
  | beginning (bytes : Bytes)
  | range (range : KeyRange)
  deriving DecidableEq, Repr

namespace Modifier

def bound? : Option Json → Option (Option Bytes)
  | none | some .null => some none
  | some j => j.bytes?.map some

def range? (j : Json) : Option KeyRange := do
  match ← j.members? ["start", "end"] with
  | [start, stop] => return ⟨← bound? start, ← bound? stop⟩
  | _ => none

/-- The range of a payload. An empty payload leaves both sides open. -/
def parseRange (payload : Bytes) : Except Error KeyRange :=
  if payload = [] then .ok .all
  else
    match Json.read? payload >>= range? with
    | some found => .ok found
    | none => .error .malformedRange

def parse (modifier : Option String) (payload : Bytes) : Except Error Modifier :=
  match modifier.getD "" with
  | "" => if payload = [] then .error .emptyKey else .ok (.exact payload)
  | "prefix" => if payload = [] then .error .emptyBeginning else .ok (.beginning payload)
  | "range" => (parseRange payload).map .range
  | other => .error (.unknownModifier other)

end Modifier

end IndexedTables
