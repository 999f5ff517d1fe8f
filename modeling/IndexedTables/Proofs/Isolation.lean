import Mathlib.Data.List.Nodup
import Mathlib.Logic.Relation
import IndexedTables.Proofs.Building
import IndexedTables.Proofs.Confinement
import IndexedTables.Proofs.TableWrites
set_option autoImplicit false

namespace IndexedTables

variable {α T U : Type}

inductive MultiKeyIndex.Scans (ix : MultiKeyIndex T) : {U : Type} → Op (Cursor U) → Prop where
  | get (key : Bytes) : Scans ix (ix.get key)
  | scan (range : KeyRange) (reverse : Bool) : Scans ix (ix.scan range reverse)
  | select (m : Modifier) : Scans ix (ix.target.select m)

inductive NumberIndex.Scans (ix : NumberIndex T) : {U : Type} → Op (Cursor U) → Prop where
  | get (n : UInt64) : Scans ix (ix.get n)
  | scan (first last : UInt64) (reverse : Bool) : Scans ix (ix.scan first last reverse)

inductive UniqueIndex.Scans (ix : UniqueIndex T) : {U : Type} → Op (Cursor U) → Prop where
  | get (key : Bytes) : Scans ix (ix.get key)
  | scan (range : KeyRange) (reverse : Bool) : Scans ix (ix.scan range reverse)
  | select (m : Modifier) : Scans ix (ix.target.select m)

inductive Table.Scans (t : Table T) (indexers : List (Indexer T)) :
    List Space → {U : Type} → Op (Cursor U) → Prop where
  | scan (range : KeyRange) (reverse : Bool) : Scans t indexers [t.space] (t.scan range reverse)
  | numbers (q : Sequence) (first last : UInt64) (reverse : Bool) :
    Scans t indexers [t.space] (NumberedTable.scan ⟨t, q⟩ first last reverse)
  | select (m : Modifier) : Scans t indexers [t.space] (t.target.select m)
  | multiKey {ix : Indexer T} (hix : ix ∈ indexers) (hpolicy : ix.policy = .multiKey)
    {U : Type} {op : Op (Cursor U)} (h : MultiKeyIndex.Scans ⟨ix.space, t.toRows⟩ op) :
    Scans t indexers [ix.space, t.space] op
  | number {ix : Indexer T} (hix : ix ∈ indexers) (hpolicy : ix.policy = .multiKey)
    {U : Type} {op : Op (Cursor U)} (h : NumberIndex.Scans ⟨⟨ix.space, t.toRows⟩⟩ op) :
    Scans t indexers [ix.space, t.space] op
  | unique {ix : Indexer T} (hix : ix ∈ indexers) (hpolicy : ix.policy = .unique)
    {U : Type} {op : Op (Cursor U)} (h : UniqueIndex.Scans ⟨ix.space, t.toRows⟩ op) :
    Scans t indexers [ix.space, t.space] op

inductive UniqueIndex.Reads (ix : UniqueIndex T) : {α : Type} → Op α → Prop where
  | has (key : Bytes) : Reads ix (ix.has key)
  | owner (key : Bytes) : Reads ix (ix.owner key)
  | getOne (key : Bytes) : Reads ix (ix.getOne key)

/-- What reads a table and its indexes, with the spaces that each reads. -/
inductive Table.Reads (t : Table T) (indexers : List (Indexer T)) :
    List Space → {α : Type} → Op α → Prop where
  | has (id : RowId) : Reads t indexers [t.space] (t.has id)
  | get (id : RowId) : Reads t indexers [t.space] (t.get id)
  | page (key : Option RowId) (limit : UInt64) (config : Config) :
    Reads t indexers [t.space] (t.page key limit config)
  | dump : Reads t indexers [t.space] t.dump
  | multiKey {ix : Indexer T} (hix : ix ∈ indexers) (hpolicy : ix.policy = .multiKey)
    (key : Bytes) :
    Reads t indexers [ix.space, t.space] (MultiKeyIndex.has ⟨ix.space, t.toRows⟩ key)
  | number {ix : Indexer T} (hix : ix ∈ indexers) (hpolicy : ix.policy = .multiKey) (n : UInt64) :
    Reads t indexers [ix.space, t.space] (NumberIndex.has ⟨⟨ix.space, t.toRows⟩⟩ n)
  | unique {ix : Indexer T} (hix : ix ∈ indexers) (hpolicy : ix.policy = .unique)
    {α : Type} {op : Op α} (h : UniqueIndex.Reads ⟨ix.space, t.toRows⟩ op) :
    Reads t indexers [ix.space, t.space] op
  | scan {spaces : List Space} {U : Type} {op : Op (Cursor U)} (h : t.Scans indexers spaces op) :
    Reads t indexers spaces op
  /-- Loading a row of a cursor that the scan answered, at any later time. -/
  | load {spaces : List Space} {U : Type} {op : Op (Cursor U)} (h : t.Scans indexers spaces op)
    {plan : FaultPlan} {d : Disk} {c : Cursor U} (answered : (op.onDisk plan d).1 = .ok c)
    {load : Op (Row U)} (mem : load ∈ c) : Reads t indexers spaces load
  | readAll {spaces : List Space} {U : Type} {op : Op (Cursor U)}
    (h : t.Scans indexers spaces op) : Reads t indexers spaces (op >>= Cursor.readAll)
  | pageOf {spaces : List Space} {U : Type} {op : Op (Cursor U)} (h : t.Scans indexers spaces op)
    (rowSize : Nat) (limit : UInt64) :
    Reads t indexers spaces (op >>= Cursor.paginate rowSize limit)
  | handle {spaces : List Space} {r : Router} {path : String} {target : Target}
    (route : r.routes.find? (splitPath path).1 = some target)
    (h : ∀ m, t.Scans indexers spaces (target.select m)) (payload : Bytes) :
    Reads t indexers spaces (r.handle path payload)
  | serve {spaces : List Space} {r : Router} {path : String} {target : Target}
    (route : r.routes.find? (splitPath path).1 = some target)
    (h : ∀ m, t.Scans indexers spaces (target.select m)) (payload : Bytes) :
    Reads t indexers spaces (liftM (r.serve path payload) : Op Response)

inductive Sequence.Reads (q : Sequence) : {α : Type} → Op α → Prop where
  | current : Reads q q.current
  | peek : Reads q q.peek

inductive NumberedTable.Reads (t : NumberedTable T) : List Space → {α : Type} → Op α → Prop where
  | has (n : UInt64) : Reads t [t.table.space] (t.has n)
  | get (n : UInt64) : Reads t [t.table.space] (t.get n)
  | dump : Reads t [t.table.space, t.sequence.space] t.dump
  | sequence {α : Type} {op : Op α} (h : t.sequence.Reads op) : Reads t [t.sequence.space] op

inductive NaturalTable.Reads (t : NaturalTable T) : List Space → {α : Type} → Op α → Prop where
  | has (id : RowId) : Reads t [t.table.space] (t.has id)
  | get (id : RowId) : Reads t [t.table.space] (t.get id)
  | dump : Reads t [t.table.space] t.dump

inductive Table.Writes (t : Table T) : {α : Type} → Op α → Prop where
  | create (id : RowId) (value : T) : Writes t (t.create id value)
  | save (id : RowId) (value : T) : Writes t (t.save id value)
  | delete (id : RowId) : Writes t (t.delete id)
  | restore (rows : List (Row T)) : Writes t (t.restore rows)

inductive Sequence.Writes (q : Sequence) : {α : Type} → Op α → Prop where
  | next : Writes q q.next
  | start (n : UInt64) : Writes q (q.start n)

inductive NumberedTable.Writes (t : NumberedTable T) : {α : Type} → Op α → Prop where
  | create (value : T) : Writes t (t.create value)
  | save (n : UInt64) (value : T) : Writes t (t.save n value)
  | delete (n : UInt64) : Writes t (t.delete n)
  | restore (d : NumberedDump T) : Writes t (t.restore d)
  | restoreJson (text : Bytes) : Writes t (t.restoreJson text)
  | sequence {α : Type} {op : Op α} (h : t.sequence.Writes op) : Writes t op

inductive NaturalTable.Writes (t : NaturalTable T) : {α : Type} → Op α → Prop where
  | create (value : T) : Writes t (t.create value)
  | save (value : T) : Writes t (t.save value)
  | saveAt (id : RowId) (value : T) : Writes t (t.saveAt id value)
  | delete (value : T) : Writes t (t.delete value)
  | restore (rows : List (Row T)) : Writes t (t.restore rows)
  | restoreJson (text : Bytes) : Writes t (t.restoreJson text)

inductive Ids (T : Type) where
  | given
  | counted (q : Sequence)
  | keyed (key : T → RowId)

/-- What is built on a schema: a table with its indexes, or a sequence alone. -/
inductive Structure : Type 1 where
  | table {T : Type} (t : Table T) (indexers : List (Indexer T)) (ids : Ids T)
  | sequence (q : Sequence)

namespace Structure

def spaces : Structure → List Space
  | table t indexers .given => t.spaces indexers
  | table t indexers (.counted q) => NumberedTable.spaces ⟨t, q⟩ indexers
  | table t indexers (.keyed _) => t.spaces indexers
  | sequence q => [q.space]

def Reads (st : Structure) (spaces : List Space) (op : Op α) : Prop :=
  match st with
  | table t indexers .given => t.Reads indexers spaces op
  | table t indexers (.counted q) =>
    t.Reads indexers spaces op ∨ NumberedTable.Reads ⟨t, q⟩ spaces op
  | table t indexers (.keyed key) =>
    t.Reads indexers spaces op ∨ NaturalTable.Reads ⟨t, key⟩ spaces op
  | sequence q => spaces = [q.space] ∧ q.Reads op

def Writes (st : Structure) (op : Op α) : Prop :=
  match st with
  | table t _ .given => t.Writes op
  | table t _ (.counted q) => t.Writes op ∨ NumberedTable.Writes ⟨t, q⟩ op
  | table t _ (.keyed key) => t.Writes op ∨ NaturalTable.Writes ⟨t, key⟩ op
  | sequence q => q.Writes op

/-- Any operations on the structure, one after the other and with any outcomes, lead from one store
to the other. -/
def Runs (st : Structure) : Store → Store → Prop :=
  Relation.ReflTransGen fun s s' => ∃ (α : Type) (op : Op α),
    ((∃ spaces, st.Reads spaces op) ∨ st.Writes op) ∧ op.Reaches s s'

def Observed : Structure → Prop
  | table t indexers _ => t.observers = indexers.map Indexer.observer
  | sequence _ => True

end Structure

open Op

theorem Table.Scans.lists {t : Table T} {indexers : List (Indexer T)} {spaces : List Space}
    {op : Op (Cursor U)} (h : t.Scans indexers spaces op) : op.Lists spaces := by
  cases h with
  | scan range reverse => exact t.lists_scan range reverse
  | numbers q first last reverse => exact t.lists_scan (.ofNumbers first last) reverse
  | select m => exact t.lists_select m
  | @multiKey ix _ _ _ _ h =>
    cases h with
    | get key => exact MultiKeyIndex.lists_get _ key
    | scan range reverse => exact MultiKeyIndex.lists_scan _ range reverse
    | select m => exact MultiKeyIndex.lists_select _ m
  | @number ix _ _ _ _ h =>
    cases h with
    | get n => exact MultiKeyIndex.lists_get _ (numericKey n)
    | scan first last reverse => exact MultiKeyIndex.lists_scan _ (.ofNumbers first last) reverse
  | @unique ix _ _ _ _ h =>
    cases h with
    | get key => exact UniqueIndex.lists_get _ key
    | scan range reverse => exact UniqueIndex.lists_scan _ range reverse
    | select m => exact UniqueIndex.lists_select _ m

theorem Table.Scans.subset {t : Table T} {indexers : List (Indexer T)} {spaces : List Space}
    {op : Op (Cursor U)} (h : t.Scans indexers spaces op) : spaces ⊆ t.spaces indexers := by
  cases h <;> simp [Table.spaces] <;> grind

theorem Table.Reads.inside {t : Table T} {indexers : List (Indexer T)} {spaces : List Space}
    {op : Op α} (h : t.Reads indexers spaces op) : op.Inside spaces := by
  cases h with
  | has id => exact t.inside_has id
  | get id => exact t.toRows.inside_get id
  | page key limit config => exact t.inside_page key limit config
  | dump => exact t.inside_dump
  | @multiKey ix _ _ key => exact (MultiKeyIndex.mk ix.space t.toRows).inside_has key
  | @number ix _ _ n => exact (MultiKeyIndex.mk ix.space t.toRows).inside_has (numericKey n)
  | @unique ix _ _ _ _ h =>
    cases h with
    | has key => exact (UniqueIndex.mk ix.space t.toRows).inside_has key
    | owner key => exact (UniqueIndex.mk ix.space t.toRows).inside_owner key
    | getOne key => exact (UniqueIndex.mk ix.space t.toRows).inside_getOne key
  | scan h => exact h.lists.inside
  | load h answered mem => exact h.lists.load answered mem
  | readAll h => exact h.lists.readAll
  | pageOf h rowSize limit => exact h.lists.paginate rowSize limit
  | handle route h payload => exact Router.inside_handle route (fun m => (h m).lists) payload
  | serve route h payload => exact Router.inside_serve route (fun m => (h m).lists) payload

theorem Table.Reads.subset {t : Table T} {indexers : List (Indexer T)} {spaces : List Space}
    {op : Op α} (h : t.Reads indexers spaces op) : spaces ⊆ t.spaces indexers := by
  cases h with
  | scan h => exact h.subset
  | load h => exact h.subset
  | readAll h => exact h.subset
  | pageOf h => exact h.subset
  | handle _ h => exact (h (.range .all)).subset
  | serve _ h => exact (h (.range .all)).subset
  | _ => simp [Table.spaces]; try grind

theorem Sequence.Reads.inside {q : Sequence} {op : Op α} (h : q.Reads op) :
    op.Inside [q.space] := by
  cases h with
  | current => exact q.inside_current
  | peek => exact q.inside_peek

theorem Sequence.Writes.inside {q : Sequence} {op : Op α} (h : q.Writes op) :
    op.Inside [q.space] := by
  cases h with
  | next => exact q.inside_next
  | start n => exact q.inside_start n

theorem NumberedTable.Reads.inside {t : NumberedTable T} {spaces : List Space} {op : Op α}
    (h : t.Reads spaces op) : op.Inside spaces := by
  cases h with
  | has n => exact t.table.inside_has (.ofNumber n)
  | get n => exact t.table.toRows.inside_get (.ofNumber n)
  | dump => exact t.inside_dump
  | sequence h => exact h.inside

theorem NaturalTable.Reads.inside {t : NaturalTable T} {spaces : List Space} {op : Op α}
    (h : t.Reads spaces op) : op.Inside spaces := by
  cases h with
  | has id => exact t.table.inside_has id
  | get id => exact t.table.toRows.inside_get id
  | dump => exact t.table.inside_dump

section Writes

variable {t : Table T} {indexers : List (Indexer T)}

theorem Table.Writes.inside (observed : t.observers = indexers.map Indexer.observer) {op : Op α}
    (h : t.Writes op) : op.Inside (t.spaces indexers) := by
  cases h with
  | create id value => exact inside_create observed id value
  | save id value => exact inside_save observed id value
  | delete id => exact inside_delete observed id
  | restore rows => exact inside_restore observed rows

theorem NumberedTable.Writes.inside {q : Sequence}
    (observed : t.observers = indexers.map Indexer.observer) {op : Op α}
    (h : NumberedTable.Writes ⟨t, q⟩ op) : op.Inside (NumberedTable.spaces ⟨t, q⟩ indexers) := by
  have rows : t.spaces indexers ⊆ NumberedTable.spaces ⟨t, q⟩ indexers := by
    simp [NumberedTable.spaces]
  cases h with
  | create value => exact inside_create observed value
  | save n value => exact (Table.inside_save observed (.ofNumber n) value).mono rows
  | delete n => exact (Table.inside_delete observed (.ofNumber n)).mono rows
  | restore d => exact inside_restore observed d
  | restoreJson text => exact .bind (.lift _) fun d => inside_restore observed d
  | sequence h => exact h.inside.mono (by simp [NumberedTable.spaces])

theorem NaturalTable.Writes.inside {key : T → RowId}
    (observed : t.observers = indexers.map Indexer.observer) {op : Op α}
    (h : NaturalTable.Writes ⟨t, key⟩ op) : op.Inside (t.spaces indexers) := by
  cases h with
  | create value => exact inside_create (t := ⟨t, key⟩) observed value
  | save value => exact Table.inside_save observed (key value) value
  | saveAt id value =>
    exact (inside_closed _).saveAt (t := ⟨t, key⟩) (Table.inside_save observed id value)
  | delete value => exact Table.inside_delete observed (key value)
  | restore rows => exact inside_restore (t := ⟨t, key⟩) observed rows
  | restoreJson text =>
    exact .bind (.lift _) fun rows => inside_restore (t := ⟨t, key⟩) observed rows

end Writes

namespace Structure

variable {st : Structure} {spaces : List Space} {op : Op α}

theorem Reads.inside (h : st.Reads spaces op) : op.Inside spaces := by
  cases st with
  | table t indexers ids =>
    cases ids with
    | given => exact Table.Reads.inside h
    | counted q => exact h.elim Table.Reads.inside NumberedTable.Reads.inside
    | keyed key => exact h.elim Table.Reads.inside NaturalTable.Reads.inside
  | sequence q =>
    obtain ⟨rfl, h⟩ := h
    exact h.inside

theorem Reads.subset (h : st.Reads spaces op) : spaces ⊆ st.spaces := by
  cases st with
  | table t indexers ids =>
    cases ids with
    | given => exact Table.Reads.subset h
    | counted q =>
      rcases h with h | h
      · exact List.Subset.trans h.subset (by simp [Structure.spaces, NumberedTable.spaces])
      · cases h <;> simp [Structure.spaces, NumberedTable.spaces, Table.spaces]
    | keyed key =>
      rcases h with h | h
      · exact h.subset
      · cases h <;> simp [Structure.spaces, Table.spaces]
  | sequence q =>
    obtain ⟨rfl, _⟩ := h
    exact List.Subset.refl _

theorem Writes.inside (observed : st.Observed) (h : st.Writes op) : op.Inside st.spaces := by
  cases st with
  | table t indexers ids =>
    cases ids with
    | given => exact Table.Writes.inside observed h
    | counted q =>
      rcases h with h | h
      · exact (Table.Writes.inside observed h).mono
          (by simp [Structure.spaces, NumberedTable.spaces])
      · exact NumberedTable.Writes.inside observed h
    | keyed key =>
      rcases h with h | h
      · exact Table.Writes.inside observed h
      · exact NaturalTable.Writes.inside observed h
  | sequence q => exact Sequence.Writes.inside h

theorem Runs.sameBut (observed : st.Observed) {s s' : Store} (h : st.Runs s s') :
    Store.SameBut st.spaces s s' := by
  induction h with
  | refl => exact .refl _ s
  | tail _ step ih =>
    obtain ⟨α, op, hop, hreaches⟩ := step
    have inside : op.Inside st.spaces := by
      rcases hop with ⟨spaces, hreads⟩ | hwrites
      · exact hreads.inside.mono hreads.subset
      · exact hwrites.inside observed
    exact ih.trans (inside.obeys _ _ hreaches)

end Structure

/-- These structures were built on the schema, in any order, indexes being attached as they came. -/
inductive Schema.Holds : List Structure → Schema → Prop where
  | empty : Holds [] .empty
  | table {structures : List Structure} {schema schema' : Schema} {T : Type} {space : Space}
    {codec : Codec T} {t : Table T} (h : Holds structures schema)
    (run : (Table.build space codec).run.run schema = (.ok t, schema')) :
    Holds (.table t [] .given :: structures) schema'
  | numbered {structures : List Structure} {schema schema' : Schema} {T : Type}
    {rows sequence : Space} {codec : Codec T} {t : NumberedTable T} (h : Holds structures schema)
    (run : (NumberedTable.build rows sequence codec).run.run schema = (.ok t, schema')) :
    Holds (.table t.table [] (.counted t.sequence) :: structures) schema'
  | natural {structures : List Structure} {schema schema' : Schema} {T : Type} {space : Space}
    {codec : Codec T} {key : T → RowId} {t : NaturalTable T} (h : Holds structures schema)
    (run : (NaturalTable.build space codec key).run.run schema = (.ok t, schema')) :
    Holds (.table t.table [] (.keyed t.key) :: structures) schema'
  | sequence {structures : List Structure} {schema schema' : Schema} {space : Space} {q : Sequence}
    (h : Holds structures schema)
    (run : (Sequence.build space).run.run schema = (.ok q, schema')) :
    Holds (.sequence q :: structures) schema'
  | multiKey {before after : List Structure} {schema schema' : Schema} {T : Type} {t t' : Table T}
    {indexers : List (Indexer T)} {ids : Ids T} {space : Space}
    {keys : T → Except Error (List Bytes)} {ix : MultiKeyIndex T}
    (h : Holds (before ++ .table t indexers ids :: after) schema)
    (run : (MultiKeyIndex.attach t space keys).run.run schema = (.ok (t', ix), schema')) :
    Holds (before ++ .table t' (indexers ++ [⟨space, .multiKey, keys⟩]) ids :: after) schema'
  | number {before after : List Structure} {schema schema' : Schema} {T : Type} {t t' : Table T}
    {indexers : List (Indexer T)} {ids : Ids T} {space : Space}
    {numbers : T → Except Error (List UInt64)} {ix : NumberIndex T}
    (h : Holds (before ++ .table t indexers ids :: after) schema)
    (run : (NumberIndex.attach t space numbers).run.run schema = (.ok (t', ix), schema')) :
    Holds (before ++
      .table t' (indexers ++
        [⟨space, .multiKey, fun value => (numbers value).map (·.map numericKey)⟩]) ids ::
      after) schema'
  | unique {before after : List Structure} {schema schema' : Schema} {T : Type} {t t' : Table T}
    {indexers : List (Indexer T)} {ids : Ids T} {space : Space} {key : T → Except Error Bytes}
    {ix : UniqueIndex T} (h : Holds (before ++ .table t indexers ids :: after) schema)
    (run : (UniqueIndex.attach t space key).run.run schema = (.ok (t', ix), schema')) :
    Holds (before ++ .table t' (indexers ++
      [⟨space, .unique, fun value => (key value).map fun key => [key]⟩]) ids :: after) schema'
  | beside {structures : List Structure} {schema schema' : Schema} {space : Space} {role : Role}
    (h : Holds structures schema) (claim : schema.claim space role = .ok schema') :
    Holds structures schema'
  | close {structures : List Structure} {schema : Schema} (h : Holds structures schema) :
    Holds structures schema.close

/-- No space is used twice, and all are taken. -/
structure Schema.Separates (structures : List Structure) (schema : Schema) : Prop where
  nodup : (structures.flatMap Structure.spaces).Nodup
  taken : ∀ space ∈ structures.flatMap Structure.spaces, schema.taken.contains space
  observed : ∀ st ∈ structures, st.Observed

namespace Schema

variable {structures structures' before after : List Structure} {schema schema' : Schema}
  {space : Space} {role : Role}

theorem Separates.claim (h : Separates structures schema)
    (hclaim : schema.claim space role = .ok schema')
    (spaces : List.Perm (structures'.flatMap Structure.spaces)
      (space :: structures.flatMap Structure.spaces))
    (observed : ∀ st ∈ structures', st.Observed) : Separates structures' schema' := by
  obtain ⟨hfree, htaken⟩ := claim_ok hclaim
  refine ⟨spaces.nodup_iff.2 (List.nodup_cons.2 ⟨?_, h.nodup⟩), fun other hother => ?_, observed⟩
  · exact fun hmem => hfree (h.taken space hmem)
  · rw [htaken]
    exact (List.mem_cons.1 (spaces.mem_iff.1 hother)).imp_right (h.taken other)

theorem Separates.beside (h : Separates structures schema)
    (hclaim : schema.claim space role = .ok schema') : Separates structures schema' := by
  obtain ⟨_, htaken⟩ := claim_ok hclaim
  exact ⟨h.nodup, fun other hother => (htaken other).2 (.inr (h.taken other hother)), h.observed⟩

theorem Separates.attach {t : Table T} {indexers : List (Indexer T)} {ids : Ids T}
    (h : Separates (before ++ .table t indexers ids :: after) schema) {ix : Indexer T}
    (hclaim : schema.claim ix.space role = .ok schema') :
    Separates (before ++ .table (t.observe ix.observer) (indexers ++ [ix]) ids :: after)
      schema' := by
  refine h.claim hclaim ?_ fun st hst => ?_
  · rw [List.perm_iff_count]
    intro other
    cases ids <;> simp [Structure.spaces, Table.spaces, NumberedTable.spaces, Table.observe,
      List.count_cons] <;> omega
  · have observed := h.observed
    simp only [List.mem_append, List.mem_cons] at hst observed
    rcases hst with hbefore | rfl | hafter
    · exact observed st (.inl hbefore)
    · have htable : t.observers = indexers.map Indexer.observer := observed _ (.inr (.inl rfl))
      simp [Structure.Observed, Table.observe, htable]
    · exact observed st (.inr (.inr hafter))

theorem Separates.cons (h : Separates structures schema) {st : Structure}
    (hclaim : schema.claim space role = .ok schema') (spaces : st.spaces = [space])
    (observed : st.Observed) : Separates (st :: structures) schema' :=
  h.claim hclaim (by simp [spaces]) (List.forall_mem_cons.2 ⟨observed, h.observed⟩)

theorem Holds.separates (h : Holds structures schema) : Separates structures schema := by
  induction h with
  | empty => exact ⟨by simp, by simp, by simp⟩
  | table _ run ih =>
    obtain ⟨hclaim, rfl⟩ := Building.ok_of_claim run
    exact ih.cons hclaim rfl rfl
  | numbered _ run ih =>
    obtain ⟨t, schema₁, hrows, run⟩ := Building.ok_of_bind run
    obtain ⟨q, schema₂, hsequence, run⟩ := Building.ok_of_bind run
    cases run
    obtain ⟨hclaim, ht⟩ := Building.ok_of_claim hrows
    obtain ⟨hclaim', rfl⟩ := Building.ok_of_claim hsequence
    -- Between the two claims stands the table without its sequence.
    have rows : Separates (.table t [] .given :: _) schema₁ :=
      ih.cons hclaim (by rw [← ht]; rfl) (by rw [← ht]; rfl)
    subst ht
    refine rows.claim hclaim' ?_ (List.forall_mem_cons.2 ⟨rfl, ih.observed⟩)
    simpa [Structure.spaces, Table.spaces, NumberedTable.spaces] using List.Perm.swap _ _ _
  | natural _ run ih =>
    obtain ⟨t, schema₁, hrows, run⟩ := Building.ok_of_bind run
    cases run
    obtain ⟨hclaim, rfl⟩ := Building.ok_of_claim hrows
    exact ih.cons hclaim rfl rfl
  | sequence _ run ih =>
    obtain ⟨hclaim, rfl⟩ := Building.ok_of_claim run
    exact ih.cons hclaim rfl trivial
  | multiKey _ run ih =>
    obtain ⟨hclaim, hbuilt⟩ := Building.ok_of_claim run
    cases hbuilt
    exact ih.attach hclaim
  | number _ run ih =>
    simp only [NumberIndex.attach, MultiKeyIndex.attach, bind_assoc, pure_bind] at run
    obtain ⟨hclaim, hbuilt⟩ := Building.ok_of_claim run
    cases hbuilt
    exact ih.attach hclaim
  | unique _ run ih =>
    obtain ⟨hclaim, hbuilt⟩ := Building.ok_of_claim run
    cases hbuilt
    exact ih.attach hclaim
  | beside _ claim ih => exact ih.beside claim
  | close _ ih => exact ⟨ih.nodup, ih.taken, ih.observed⟩

/-- However a table is built, its observers are those of its indexes, each with a space of its
own. -/
theorem Holds.indexedBy {T : Type} {t : Table T} {indexers : List (Indexer T)} {ids : Ids T}
    (h : Holds structures schema) (ht : .table t indexers ids ∈ structures) :
    t.IndexedBy indexers := by
  have separates := h.separates
  refine ⟨separates.observed _ ht, ?_⟩
  have own := (List.nodup_flatMap.1 separates.nodup).1 _ ht
  cases ids with
  | given => exact own
  | counted q => exact own.sublist (List.sublist_append_left _ _)
  | keyed key => exact own

end Schema

namespace Structure

/-- What is done to the structure and what it answers is confined to its spaces. -/
structure Confined (st : Structure) : Prop where
  runs : ∀ s s', st.Runs s s' → Store.SameBut st.spaces s s'
  subset : ∀ {α : Type} (op : Op α) spaces, st.Reads spaces op → spaces ⊆ st.spaces
  answers : ∀ {α : Type} (op : Op α) spaces, st.Reads spaces op →
    ∀ s s', Store.Agree spaces s s' → (op.on s).1 = (op.on s').1

/-- They share no space, and nothing done to one changes what the other answers. -/
structure Apart (st other : Structure) : Prop where
  spaces : ∀ space ∈ st.spaces, space ∉ other.spaces
  answers : ∀ {α : Type} (op : Op α) spaces, st.Reads spaces op →
    ∀ s s', other.Runs s s' → (op.on s').1 = (op.on s).1

theorem Observed.confined {st : Structure} (observed : st.Observed) : st.Confined where
  runs _ _ h := h.sameBut observed
  subset _ _ h := h.subset
  answers _ _ h _ _ same := (h.inside.agree same).1

theorem Confined.apart {st other : Structure} (h : st.Confined) (hother : other.Confined)
    (spaces : ∀ space ∈ st.spaces, space ∉ other.spaces) : st.Apart other where
  spaces := spaces
  answers op read hread s s' hruns :=
    h.answers op read hread s' s ((hother.runs s s' hruns).agree fun space hspace =>
      spaces space (h.subset op read hread hspace))

end Structure

/-- Structures built on one schema are confined to their own spaces and apart from each other. -/
theorem Schema.structures_isolated {structures : List Structure} {schema : Schema}
    (h : Holds structures schema) :
    (∀ st ∈ structures, st.Confined) ∧
      structures.Pairwise fun st other => st.Apart other ∧ other.Apart st := by
  have separates := h.separates
  have confined : ∀ st ∈ structures, st.Confined := fun st hst =>
    (separates.observed st hst).confined
  refine ⟨confined, (List.nodup_flatMap.1 separates.nodup).2.imp_of_mem ?_⟩
  intro st other hst hother disjoint
  exact ⟨(confined st hst).apart (confined other hother) fun space h h' => disjoint h h',
    (confined other hother).apart (confined st hst) fun space h h' => disjoint h' h⟩

def outermost : Structure :=
  .table ⟨⟨0x00, wordCodec⟩, [Indexer.observer ⟨0x7f, .multiKey, letters.keys⟩]⟩
    [⟨0x7f, .multiKey, letters.keys⟩] (.counted ⟨0xff⟩)

def outermostSchema : Schema :=
  Schema.close ⟨.ofList [(0x00, .table), (0xff, .sequence), (0x7f, .index), (0x01, .sequence)],
    false⟩

theorem outermost_held : Schema.Holds [.sequence ⟨0x01⟩, outermost] outermostSchema := by
  have numbered : Schema.Holds [.table ⟨⟨0x00, wordCodec⟩, []⟩ [] (.counted ⟨0xff⟩)]
      ⟨.ofList [(0x00, .table), (0xff, .sequence)], false⟩ :=
    @Schema.Holds.numbered [] .empty _ Bytes 0x00 0xff wordCodec
      ⟨⟨⟨0x00, wordCodec⟩, []⟩, ⟨0xff⟩⟩ .empty rfl
  have lettered : Schema.Holds [outermost]
      ⟨.ofList [(0x00, .table), (0xff, .sequence), (0x7f, .index)], false⟩ :=
    @Schema.Holds.multiKey [] [] _ _ Bytes _ _ [] _ 0x7f letters.keys ⟨0x7f, ⟨0x00, wordCodec⟩⟩
      numbered rfl
  exact .close (@Schema.Holds.sequence _ _ _ 0x01 ⟨0x01⟩ lettered rfl)

theorem outermost_isolated :
    Schema.Holds [.sequence ⟨0x01⟩, outermost] outermostSchema ∧ outermost.Confined ∧
      (Structure.sequence ⟨0x01⟩).Apart outermost ∧ outermost.Apart (.sequence ⟨0x01⟩) := by
  obtain ⟨confined, apart⟩ := Schema.structures_isolated outermost_held
  obtain ⟨here, there⟩ := (List.pairwise_cons.1 apart).1 outermost (by simp)
  exact ⟨outermost_held, confined outermost (by simp), here, there⟩

end IndexedTables
