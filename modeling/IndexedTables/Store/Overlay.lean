import IndexedTables.SortedMap
import IndexedTables.Store.Program
/-!
Overlays: changes kept back from a store. A program over an overlay sees its own changes first and
asks the store below for the rest; nothing is written below before the overlay is committed.
-/
set_option autoImplicit false

namespace IndexedTables

inductive Change where
  | put (value : Bytes)
  | remove
  deriving DecidableEq, Repr

/-- The changes kept back, one for each key touched. -/
abbrev Overlay := SortedMap Bytes Change

def Change.value? : Change → Option Bytes
  | .put value => some value
  | .remove => none

namespace Overlay

def apply (entries : SortedMap Bytes Bytes) : Bytes × Change → SortedMap Bytes Bytes
  | (key, .put value) => entries.insert key value
  | (key, .remove) => entries.erase key

def merge (o : Overlay) (range : KeyRange) (below : List (Bytes × Bytes)) :
    List (Bytes × Bytes) :=
  ((o.entries.filter fun e => range.contains e.1).foldl apply (SortedMap.ofList below)).entries

/-- Runs a program over the overlay as a program over the store below. The store below is read
forward and as a whole; an inverted range is known to be empty without asking. -/
def serve {α : Type} : Program α → Overlay → Program (α × Overlay)
  | .done a, o => .done (a, o)
  | .tell line next, o => .tell line (serve next o)
  | .call (.get key) next, o =>
    match o.find? key with
    | some change => serve (next (.ok change.value?)) o
    | none => .call (.get key) fun reply => serve (next reply) o
  | .call (.has key) next, o =>
    match o.find? key with
    | some change => serve (next (.ok change.value?.isSome)) o
    | none => .call (.get key) fun reply => serve (next (reply.map Option.isSome)) o
  | .call (.set key value) next, o => serve (next (.ok ())) (o.insert key (.put value))
  | .call (.delete key) next, o => serve (next (.ok ())) (o.insert key .remove)
  | .call (.scan range reverse) next, o =>
    if range.inverted then serve (next (.ok [])) o
    else .call (.scan range false) fun reply =>
      let merged := do return o.merge range (← Item.collect (← reply))
      serve (next (merged.map fun entries =>
        (if reverse then entries.reverse else entries).map .ok)) o

def write : Bytes × Change → Op Unit
  | (key, .put value) => Op.set key value
  | (key, .remove) => Op.delete key

/-- Makes every change below, in ascending key order, up to the first that fails. -/
def commit (o : Overlay) : Op Unit := o.entries.forM write

end Overlay

end IndexedTables
