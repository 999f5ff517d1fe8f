import IndexedTables.SortedMap
import IndexedTables.Store.Program
set_option autoImplicit false

namespace IndexedTables

abbrev Store := SortedMap Bytes Bytes

namespace Store

def range (s : Store) (r : KeyRange) : List (Bytes × Bytes) :=
  s.entries.filter fun e => r.contains e.1

def answer : (c : Call) → Store → Except Error c.Reply × Store
  | .get key, s => (.ok (s.find? key), s)
  | .has key, s => (.ok (s.contains key), s)
  | .set key value, s => (.ok (), s.insert key value)
  | .delete key, s => (.ok (), s.erase key)
  | .scan r false, s => (.ok ((s.range r).map .ok), s)
  | .scan r true, s => (.ok ((s.range r).reverse.map .ok), s)

def handler : Handler Store := ⟨answer, fun _ s => s⟩

end Store

end IndexedTables
