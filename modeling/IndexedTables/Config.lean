import IndexedTables.Error
set_option autoImplicit false

namespace IndexedTables

structure Config where
  maxQueryResult : Nat := 50
  defaultPageLimit : UInt64 := 100
  deriving DecidableEq, Repr, Inhabited

namespace Config

def check (c : Config) : Except Error Unit :=
  if c.maxQueryResult = 0 then .error (.zeroSetting "max_query_result")
  else if c.defaultPageLimit = 0 then .error (.zeroSetting "default_page_limit")
  else .ok ()

/-- The limit that a page request means: zero asks for the default. -/
def pageLimit (c : Config) (limit : UInt64) : UInt64 :=
  if limit = 0 then c.defaultPageLimit else limit

end Config

end IndexedTables
