import IndexedTables.Bytes
/-!
The arguments of the inspector: the snapshot to look into, then a command with its operands and
options. Options of `scan` may stand anywhere behind it, short ones together; each option may be
given once. Two dashes end the options of any command.
-/
set_option autoImplicit false

namespace IndexedTables.Inspect

inductive Command where
  | stats
  | scan (start : String) (reverse : Bool) (limit : Nat)
  | sequence (space : String)
  deriving DecidableEq, Repr

inductive Request where
  | version
  | run (command : Command)
  deriving DecidableEq, Repr

def defaultLimit : Nat := 50

def readLimit (text : List Char) : Option Nat :=
  let digits := if text.head? = some '+' then text.tail else text
  if digits ≠ [] ∧ digits.all (fun c => '0' ≤ c && c ≤ '9') then
    let n := digits.foldl (fun n c => 10 * n + (c.toNat - 48)) 0
    if n < UInt64.size then some n else none
  else none

/-- An option of `scan`. A limit may stand in the same argument or in the next. -/
inductive Flag where
  | reverse
  | limit (value : Option (List Char))

/-- The options that the letters behind one dash are. A limit takes up all letters after it. -/
def readLetters : List Char → Option (List Flag)
  | [] => some []
  | 'r' :: rest => do return .reverse :: (← readLetters rest)
  | ['l'] => some [.limit none]
  | 'l' :: '=' :: value => some [.limit (some value)]
  | 'l' :: value => some [.limit (some value)]
  | _ => none

def readLong (name : List Char) : Option (List Flag) :=
  match name.span (· ≠ '=') with
  | (word, []) =>
    if word = "reverse".toList then some [.reverse]
    else if word = "limit".toList then some [.limit none]
    else none
  | (word, _ :: value) => if word = "limit".toList then some [.limit (some value)] else none

def isOption : List Char → Bool
  | '-' :: _ :: _ => true
  | _ => false

structure ScanArguments where
  start : Option String
  reverse : Bool
  limit : Option Nat

namespace ScanArguments

def setStart (a : ScanArguments) (text : String) : Option ScanArguments :=
  if a.start.isSome then none else some { a with start := some text }

def setReverse (a : ScanArguments) : Option ScanArguments :=
  if a.reverse then none else some { a with reverse := true }

def setLimit (a : ScanArguments) (text : List Char) : Option ScanArguments := do
  if a.limit.isSome then none
  return { a with limit := some (← readLimit text) }

def setFlags (a : ScanArguments) : List Flag → Option (ScanArguments × Bool)
  | [] => some (a, false)
  | .reverse :: rest => do (← a.setReverse).setFlags rest
  | .limit (some text) :: rest => do (← a.setLimit text).setFlags rest
  | .limit none :: _ => some (a, true)

/-- Takes in the arguments behind `scan`. After two dashes only operands follow. -/
def read (a : ScanArguments) : List String → Option ScanArguments
  | [] => some a
  | arg :: rest =>
    let letters := arg.toList
    if letters = ['-', '-'] then rest.foldlM setStart a
    else if isOption letters then do
      let flags ← match letters with
        | '-' :: '-' :: name => readLong name
        | _ => readLetters letters.tail
      let (a, waits) ← a.setFlags flags
      if waits then
        match rest with
        | [] => none
        | value :: rest => if isOption value.toList then none else
          (← a.setLimit value.toList).read rest
      else a.read rest
    else do (← a.setStart arg).read rest

end ScanArguments

def readOperands : List String → Option (List String)
  | [] => some []
  | arg :: rest =>
    if arg = "--" then some rest
    else if isOption arg.toList then none
    else do return arg :: (← readOperands rest)

def Command.read : List String → Option Command
  | "stats" :: rest => do
    match ← readOperands rest with
    | [] => return .stats
    | _ => none
  | "seq" :: rest => do
    match ← readOperands rest with
    | [space] => return .sequence space
    | _ => none
  | "scan" :: rest => do
    let a ← ScanArguments.read ⟨none, false, none⟩ rest
    return .scan (← a.start) a.reverse (a.limit.getD defaultLimit)
  | _ => none

structure Invocation where
  file : Option String
  request : Request
  deriving DecidableEq, Repr

def readFileOption (arg : String) : Option (Option String) :=
  match arg.toList with
  | ['-', 's'] => some none
  | '-' :: 's' :: '=' :: path => some (some (String.ofList path))
  | '-' :: 's' :: path => some (some (String.ofList path))
  | letters =>
    match letters.span (· ≠ '=') with
    | (word, []) => if word = "--snapshot".toList then some none else none
    | (word, _ :: path) =>
      if word = "--snapshot".toList then some (some (String.ofList path)) else none

/-- Whether an argument asks for the version. Letters behind the short option are not looked at,
for the question is answered once it is met. -/
def asksVersion (arg : String) : Bool :=
  arg = "--version" || ['-', 'V'].isPrefixOf arg.toList

/-- Reads arguments, of which `file` was named before. A file is named once, and not by nothing. -/
def Invocation.readFrom (file : Option String) : List String → Option Invocation
  | [] => none
  | arg :: rest =>
    if asksVersion arg then some ⟨file, .version⟩
    else
      match readFileOption arg, rest with
      | none, _ => do return ⟨file, .run (← Command.read (arg :: rest))⟩
      | some none, [] => none
      | some none, path :: rest =>
        if file.isSome ∨ path = "" ∨ isOption path.toList then none else readFrom (some path) rest
      | some (some path), rest =>
        if file.isSome ∨ path = "" then none else readFrom (some path) rest

def Invocation.read : List String → Option Invocation := readFrom none

end IndexedTables.Inspect
