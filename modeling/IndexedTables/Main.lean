import IndexedTables.Inspect
set_option autoImplicit false

namespace IndexedTables.Inspect

def contents? (path : String) : IO (Option Bytes) := do
  try return some (← IO.FS.readBinFile path).data.toList
  catch _ => return none

def display (outcome : Outcome) : IO UInt32 := do
  for line in outcome.lines do IO.println line
  if let some e := outcome.logged then IO.eprintln e.message
  return outcome.exit.toUInt32

end IndexedTables.Inspect

open IndexedTables.Inspect in
def main (arguments : List String) : IO UInt32 := do
  match Invocation.read arguments with
  | none => display misuse
  | some invocation =>
    let contents ← contents? (invocation.file.getD defaultFile)
    display (invocation.request.outcome contents)
