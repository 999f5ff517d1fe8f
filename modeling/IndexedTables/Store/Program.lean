import IndexedTables.KeyRange
/-!
Operations on an ordered store, kept apart from any store. A program is a tree of calls; its
continuation sees every reply, failures included. An operation is a program that may fail, and it
ends at the first failure that it does not handle.
-/
set_option autoImplicit false

namespace IndexedTables

inductive Call where
  | get (key : Bytes)
  | has (key : Bytes)
  | set (key value : Bytes)
  | delete (key : Bytes)
  | scan (range : KeyRange) (reverse : Bool)
  deriving DecidableEq, Repr

abbrev Item := Except Error (Bytes × Bytes)

def Item.collect (items : List Item) : Except Error (List (Bytes × Bytes)) := items.mapM id

/-- What a call that succeeds is answered. -/
@[reducible] def Call.Reply : Call → Type
  | .get _ => Option Bytes
  | .has _ => Bool
  | .set _ _ => Unit
  | .delete _ => Unit
  | .scan _ _ => List Item

/-- Calls to a store, each chosen by the replies before it, with lines told to a log between. -/
inductive Program (α : Type) : Type where
  | done (answer : α)
  | call (c : Call) (next : Except Error c.Reply → Program α)
  | tell (line : String) (next : Program α)

namespace Program

variable {α β γ : Type}

def bind : Program α → (α → Program β) → Program β
  | .done a, f => f a
  | .call c next, f => .call c fun reply => (next reply).bind f
  | .tell line next, f => .tell line (next.bind f)

instance : Monad Program where
  pure := .done
  bind := bind

theorem bind_done (p : Program α) : p.bind .done = p := by
  induction p with
  | done a => rfl
  | call c next ih => exact congrArg (Program.call c) (funext ih)
  | tell line next ih => exact congrArg (Program.tell line) ih

theorem bind_assoc (p : Program α) (f : α → Program β) (g : β → Program γ) :
    (p.bind f).bind g = p.bind fun a => (f a).bind g := by
  induction p with
  | done a => rfl
  | call c next ih => exact congrArg (Program.call c) (funext ih)
  | tell line next ih => exact congrArg (Program.tell line) ih

instance : LawfulMonad Program :=
  LawfulMonad.mk' Program bind_done (fun _ _ => rfl) bind_assoc

end Program

abbrev Op := ExceptT Error Program

namespace Op

variable {α : Type}

def ofCall (c : Call) : Op c.Reply := ExceptT.mk (.call c .done)

def get (key : Bytes) : Op (Option Bytes) := ofCall (.get key)

def has (key : Bytes) : Op Bool := ofCall (.has key)

def set (key value : Bytes) : Op Unit := ofCall (.set key value)

def delete (key : Bytes) : Op Unit := ofCall (.delete key)

def scan (range : KeyRange) (reverse : Bool) : Op (List Item) := ofCall (.scan range reverse)

def tell (line : String) : Op Unit := ExceptT.mk (.tell line (.done (.ok ())))

end Op

/-- What answers calls: how the state replies to each and what it does with a told line. -/
structure Handler (σ : Type) where
  answer : (c : Call) → σ → Except Error c.Reply × σ
  hear : String → σ → σ

def Program.run {α σ : Type} (h : Handler σ) : Program α → σ → α × σ
  | .done a, s => (a, s)
  | .call c next, s => (next (h.answer c s).1).run h (h.answer c s).2
  | .tell line next, s => next.run h (h.hear line s)

theorem Program.run_bind {α β σ : Type} (h : Handler σ) (p : Program α) (f : α → Program β)
    (s : σ) : (p.bind f).run h s = (f (p.run h s).1).run h (p.run h s).2 := by
  induction p generalizing s with
  | done a => rfl
  | call c next ih => exact ih _ _
  | tell line next ih => exact ih _

end IndexedTables
