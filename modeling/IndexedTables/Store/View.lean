import IndexedTables.Store.Program
set_option autoImplicit false

namespace IndexedTables

def Item.behind (lead : Bytes) (item : Item) : Item :=
  item.map fun (key, value) => (key.drop lead.length, value)

/-- The program with every key put behind `lead`, and `lead` taken off the keys it is shown. -/
def Program.within {α : Type} (lead : Bytes) : Program α → Program α
  | .done a => .done a
  | .tell line next => .tell line (next.within lead)
  | .call (.get key) next => .call (.get (lead ++ key)) fun reply => (next reply).within lead
  | .call (.has key) next => .call (.has (lead ++ key)) fun reply => (next reply).within lead
  | .call (.set key value) next =>
    .call (.set (lead ++ key) value) fun reply => (next reply).within lead
  | .call (.delete key) next => .call (.delete (lead ++ key)) fun reply => (next reply).within lead
  | .call (.scan range reverse) next =>
    .call (.scan (range.behind lead) reverse) fun reply =>
      (next (reply.map fun items => items.map (Item.behind lead))).within lead

namespace Op

variable {α : Type}

def within (lead : Bytes) (op : Op α) : Op α := ExceptT.mk (op.run.within lead)

def inSpace (space : Space) (op : Op α) : Op α := op.within [space]

end Op

end IndexedTables
