import IndexedTables.Index.Unique
import IndexedTables.Query.Modifier
import IndexedTables.Query.Response
set_option autoImplicit false

namespace IndexedTables

/-- What a route leads to: the rows that a modifier asks for, as JSON. -/
structure Target where
  select : Modifier → Op (Cursor Json)

def Table.target {T : Type} (t : Table T) : Target where
  select m := do
    let cursor ← match m with
      | .exact key => t.scan (.only key) false
      | .beginning bytes => t.scan (.beginningWith bytes) false
      | .range range => t.scan range false
    return cursor.mapValues t.codec.toJson

def MultiKeyIndex.target {T : Type} (ix : MultiKeyIndex T) : Target where
  select m := do
    let cursor ← match m with
      | .exact key => ix.get key
      | .beginning bytes => ix.scan (.beginningWith bytes) false
      | .range range => ix.scan range false
    return cursor.mapValues ix.rows.codec.toJson

def UniqueIndex.target {T : Type} (ix : UniqueIndex T) : Target where
  select m := do
    let cursor ← match m with
      | .exact key => ix.get key
      | .beginning bytes => ix.scan (.beginningWith bytes) false
      | .range range => ix.scan range false
    return cursor.mapValues ix.rows.codec.toJson

structure Router where
  routes : SortedMap String Target
  maxRows : Nat

namespace Router

def build (config : Config) : Except Error Router := do
  config.check
  return ⟨SortedMap.empty, config.maxQueryResult⟩

/-- Adds a route. A path is not empty and holds no question mark. -/
def register (r : Router) (path : String) (target : Target) : Except Error Router :=
  if path = "" ∨ '?' ∈ path.toList then .error (.invalidRoute path)
  else if r.routes.contains path then .error (.routeTaken path)
  else .ok { r with routes := r.routes.insert path target }

def paths (r : Router) : List String := r.routes.keys

/-- The answer that holds a page of rows. The fields of every object stand in the order of their
names, whatever order a codec writes them in. -/
def envelope (page : Page Json) : Json :=
  .ofFields [
    ("data", .array (page.rows.map fun row =>
      .ofFields [("key", .ofBytes row.id.bytes), ("value", row.value.sortFields)])),
    ("has_more", .bool page.next.isSome)]

/-- The rows that a request asks for. A key under which there is no row is an error. -/
def select (r : Router) (path : String) (payload : Bytes) : Op (Page Json) := do
  let (route, modifier) := splitPath path
  match r.routes.find? route with
  | none => throw (.unknownRoute route)
  | some target =>
    let modifier ← Modifier.parse modifier payload
    let page ← (← target.select modifier).page r.maxRows
    match modifier, page.rows with
    | .exact _, [] => throw .notFound
    | _, _ => return page

def handle (r : Router) (path : String) (payload : Bytes) : Op Bytes := do
  return (envelope (← r.select path payload)).render

def serve (r : Router) (path : String) (payload : Bytes) : Program Response :=
  Response.ofExcept <$> (r.handle path payload).run

end Router

end IndexedTables
