import IndexedTables.Error
import IndexedTables.SortedMap
set_option autoImplicit false

namespace IndexedTables

structure Schema where
  taken : SortedMap Space Role
  isSealed : Bool

namespace Schema

def empty : Schema := ⟨SortedMap.empty, false⟩

def claim (s : Schema) (space : Space) (role : Role) : Except Error Schema :=
  if s.isSealed then .error (.schemaSealed space role)
  else
    match s.taken.find? space with
    | some owner => .error (.spaceTaken space owner)
    | none => .ok { s with taken := s.taken.insert space role }

def close (s : Schema) : Schema := { s with isSealed := true }

def spaces (s : Schema) : List (Space × Role) := s.taken.entries

end Schema

/-- Building on a schema: what was taken before a failure stays taken. -/
abbrev Building := ExceptT Error (StateM Schema)

def Building.claim (space : Space) (role : Role) : Building Unit := do
  match (← get).claim space role with
  | .ok schema => set schema
  | .error e => throw e

end IndexedTables
