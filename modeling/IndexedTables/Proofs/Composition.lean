import IndexedTables.Index.Indexer
import IndexedTables.Table.Natural
import IndexedTables.Table.Numbered
/-!
Properties of operations that are kept by doing one thing after another. What has such a property
call by call has it as a whole: here each operation is taken apart, once for all such properties.
-/
set_option autoImplicit false

namespace IndexedTables.Op

/-- Whatever makes no call has the property, and so does one operation after another. -/
structure Closed (P : (α : Type) → Op α → Prop) : Prop where
  lift : ∀ {α : Type} (x : Except Error α), P α (liftM x)
  bind : ∀ {α β : Type} {op : Op α} {f : α → Op β}, P α op → (∀ a, P β (f a)) → P β (op >>= f)

namespace Closed

variable {P : (α : Type) → Op α → Prop} (c : Closed P)

include c

theorem pure {α : Type} (a : α) : P α (Pure.pure a) := c.lift (.ok a)

theorem throw {α : Type} (e : Error) : P α (MonadExcept.throw e) := c.lift (.error e)

theorem forM {α : Type} {f : α → Op Unit} {as : List α} (h : ∀ a ∈ as, P _ (f a)) :
    P _ (as.forM f) := by
  induction as with
  | nil => exact c.pure ()
  | cons a rest ih =>
    obtain ⟨ha, hrest⟩ := List.forall_mem_cons.1 h
    exact c.bind ha fun _ => ih hrest

theorem mapM {α β : Type} {f : α → Op β} {as : List α} (h : ∀ a ∈ as, P _ (f a)) :
    P _ (as.mapM f) := by
  induction as with
  | nil => exact c.pure []
  | cons a rest ih =>
    obtain ⟨ha, hrest⟩ := List.forall_mem_cons.1 h
    rw [List.mapM_cons]
    exact c.bind ha fun b => c.bind (ih hrest) fun bs => c.pure (b :: bs)

section Sequences

variable {q : Sequence}

theorem current (get : P _ ((Op.get Sequence.key).inSpace q.space)) : P _ q.current := by
  refine c.bind get fun found => ?_
  cases found with
  | none => exact c.pure 0
  | some raw =>
    cases hraw : numberOfKey raw with
    | ok n => simpa [hraw] using c.pure n
    | error e => simpa [hraw] using c.throw (.corruptSequence q.space)

theorem peek (get : P _ ((Op.get Sequence.key).inSpace q.space)) : P _ q.peek := by
  refine c.bind (c.current get) fun last => ?_
  by_cases hlast : last = 0xffffffffffffffff
  · simpa [hlast] using c.throw (.sequenceExhausted q.space)
  · simpa [hlast] using c.pure (last + 1)

theorem next (get : P _ ((Op.get Sequence.key).inSpace q.space)) (store : ∀ n, P _ (q.store n)) :
    P _ q.next :=
  c.bind (c.peek get) fun n => c.bind (store n) fun _ => c.pure n

theorem start (has : P _ ((Op.has Sequence.key).inSpace q.space)) {n : UInt64}
    (store : P _ (q.store n)) : P _ (q.start n) := by
  refine c.bind has fun started => ?_
  cases started with
  | true => exact c.bind (c.throw _) fun _ => store
  | false => exact store

end Sequences

variable {T : Type}

theorem saved {ix : Indexer T} {id : RowId} (add : ∀ key, P _ (ix.add id key))
    (remove : ∀ key, P _ (ix.remove id key)) (new : T) (old : Option T) :
    P _ (ix.observer.saved id new old) := by
  cases old with
  | none => exact c.bind (c.lift _) fun keys => c.forM fun key _ => add key
  | some old =>
    refine c.bind (c.lift _) fun newKeys => c.bind (c.lift _) fun oldKeys => ?_
    exact c.bind (c.forM fun key _ => remove key) fun _ => c.forM fun key _ => add key

theorem removed {ix : Indexer T} {id : RowId} (remove : ∀ key, P _ (ix.remove id key)) (old : T) :
    P _ (ix.observer.removed id old) :=
  c.bind (c.lift _) fun _ => c.forM fun key _ => remove key

theorem row {rows : Rows T} {id : RowId} (get : P _ ((Op.get id.bytes).inSpace rows.space)) :
    P _ (rows.get id) := by
  refine c.bind get fun found => ?_
  cases found with
  | some stored => exact c.lift _
  | none => exact c.throw _

section Tables

variable {t : Table T} {id : RowId}

theorem write {value : T} {old : Option T}
    (set : ∀ stored, P _ ((Op.set id.bytes stored).inSpace t.space))
    (saved : ∀ o ∈ t.observers, P _ (o.saved id value old)) : P _ (t.write id value old) :=
  c.bind (c.lift _) fun stored => c.bind (set stored) fun _ => c.forM saved

theorem create {value : T} (has : P _ ((Op.has id.bytes).inSpace t.space))
    (write : P _ (t.write id value none)) : P _ (t.create id value) := by
  refine c.bind (c.lift _) fun _ => c.bind has fun present => ?_
  cases present with
  | true => exact c.bind (c.throw _) fun _ => write
  | false => exact write

theorem save {value : T} (get : P _ ((Op.get id.bytes).inSpace t.space))
    (write : ∀ old, P _ (t.write id value (some old))) : P _ (t.save id value) :=
  c.bind (c.row get) write

theorem delete (get : P _ ((Op.get id.bytes).inSpace t.space))
    (delete : P _ ((Op.delete id.bytes).inSpace t.space))
    (removed : ∀ o ∈ t.observers, ∀ old, P _ (o.removed id old)) : P _ (t.delete id) :=
  c.bind (c.row get) fun old => c.bind delete fun _ => c.forM fun o ho => removed o ho old

theorem restore {rows : List (Row T)} (dump : P _ t.dump) (delete : ∀ id, P _ (t.delete id))
    (create : ∀ row ∈ rows, P _ (t.create row.id row.value)) : P _ (t.restore rows) := by
  rw [t.restore_eq]
  refine c.bind dump fun present => c.bind (c.forM fun row _ => delete row.id) fun _ => ?_
  exact c.forM create

end Tables

theorem numberedCreate {t : NumberedTable T} {value : T} (next : P _ t.sequence.next)
    (create : ∀ id, P _ (t.table.create id value)) : P _ (t.create value) :=
  c.bind next fun n => c.bind (create _) fun _ => c.pure n

theorem numberedRestore {t : NumberedTable T} (start : ∀ n, P _ (t.sequence.start n))
    (restore : ∀ rows, P _ (t.table.restore rows)) (dump : NumberedDump T) :
    P _ (t.restore dump) :=
  c.bind (c.lift _) fun _ => c.bind (start dump.sequence) fun _ => restore dump.rows

theorem saveAt {t : NaturalTable T} {id : RowId} {value : T} (save : P _ (t.table.save id value)) :
    P _ (t.saveAt id value) := by
  by_cases hkey : t.key value = id
  · simpa [NaturalTable.saveAt, hkey] using save
  · simpa [NaturalTable.saveAt, hkey] using
      c.bind (c.throw (.rowWouldMove id (t.key value))) fun _ : Unit => save

end Closed

end IndexedTables.Op
