import IndexedTables.Error
set_option autoImplicit false

namespace IndexedTables

inductive Status where
  | ok
  | notFound
  | badRequest
  | internal
  deriving DecidableEq, Repr

def Status.code : Status → Nat
  | .ok => 0
  | .notFound => 1
  | .badRequest => 2
  | .internal => 3

def Status.name : Status → String
  | .ok => "Ok"
  | .notFound => "NotFound"
  | .badRequest => "BadRequest"
  | .internal => "Internal"

structure Response where
  status : Status
  payload : Bytes
  deriving DecidableEq, Repr

namespace Response

/-- A failure that the caller can mend is described; of any other nothing is shown. -/
def ofError (e : Error) : Response :=
  match e.kind with
  | .notFound => ⟨.notFound, Bytes.ofText "not found"⟩
  | .invalidArgument | .unknownRequest | .typeMismatch => ⟨.badRequest, Bytes.ofText e.message⟩
  | _ => ⟨.internal, Bytes.ofText "internal error"⟩

def ofExcept : Except Error Bytes → Response
  | .ok payload => ⟨.ok, payload⟩
  | .error e => ofError e

end Response

end IndexedTables
