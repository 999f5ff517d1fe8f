import IndexedTables.Proofs.Disks
import IndexedTables.Query.Router
set_option autoImplicit false

namespace IndexedTables

variable {α β T U : Type}

/-- Put together from operations in these spaces. -/
inductive Op.Inside (spaces : List Space) : {α : Type} → Op α → Prop where
  | lift {α : Type} (x : Except Error α) : Inside spaces (liftM x : Op α)
  | inSpace {α : Type} {space : Space} (h : space ∈ spaces) (op : Op α) :
    Inside spaces (op.inSpace space)
  | bind {α β : Type} {op : Op α} {f : α → Op β} (h : Inside spaces op)
    (hf : ∀ a, Inside spaces (f a)) : Inside spaces (op >>= f)
  | outcome {α β : Type} {op : Op α} (h : Inside spaces op) (f : Except Error α → β) :
    Inside spaces (liftM (f <$> op.run) : Op β)

/-- The stores hold the same in these spaces. -/
def Store.Agree (spaces : List Space) (s s' : Store) : Prop :=
  ∀ space ∈ spaces, ∀ key, s.find? (space :: key) = s'.find? (space :: key)

namespace Store

variable {spaces more : List Space} {s s' : Store}

theorem Agree.part (h : Agree spaces s s') {space : Space} (hspace : space ∈ spaces) :
    s.part space = s'.part space :=
  SortedMap.ext_find? fun key => by simpa using h space hspace key

theorem SameBut.agree (h : SameBut spaces s s') (apart : ∀ space ∈ more, space ∉ spaces) :
    Agree more s' s := fun space hspace key =>
  h _ fun other hother hbegins => apart space hspace (by simp_all)

end Store

namespace Op

variable {spaces more : List Space} {op : Op α}

theorem on_outcome (f : Except Error α → β) (s : Store) :
    (liftM (f <$> op.run) : Op β).on s = (.ok (f (op.on s).1), (op.on s).2) := by
  change Program.run Store.handler (Program.bind (Program.bind _ _) _) s = _
  rw [Program.run_bind, Program.run_bind]
  rfl

theorem onDisk_outcome (f : Except Error α → β) (plan : FaultPlan) (d : Disk) :
    (liftM (f <$> op.run) : Op β).onDisk plan d =
      (.ok (f (op.onDisk plan d).1), (op.onDisk plan d).2) := by
  change Program.run (Disk.handler plan) (Program.bind (Program.bind _ _) _) d = _
  rw [Program.run_bind, Program.run_bind]
  rfl

namespace Inside

theorem mono (h : op.Inside spaces) (sub : spaces ⊆ more) : op.Inside more := by
  induction h with
  | lift x => exact .lift x
  | inSpace hspace op => exact .inSpace (sub hspace) op
  | bind _ _ ih ihf => exact .bind ih ihf
  | outcome _ f ih => exact .outcome ih f

theorem pure (a : α) : (Pure.pure a : Op α).Inside spaces := .lift (.ok a)

theorem throw (e : Error) : (MonadExcept.throw e : Op α).Inside spaces := .lift (.error e)

theorem obeys (h : op.Inside spaces) : op.Obeys (Store.SameBut spaces) := by
  induction h with
  | lift x => exact Op.obeys_lift x
  | inSpace hspace op =>
    refine (Op.obeys_inSpace _ op).mono fun s s' frame => frame.mono ?_
    simpa using hspace
  | bind _ _ ih ihf => exact ih.bind ihf
  | outcome _ f ih =>
    intro s s' hrun
    obtain ⟨plan, d, rfl, rfl⟩ := hrun
    rw [onDisk_outcome]
    exact ih _ _ ⟨plan, d, rfl, rfl⟩

/-- On stores that hold the same in these spaces the answers are the same, and so is what the
spaces hold afterwards. -/
theorem agree (h : op.Inside spaces) {s s' : Store} (same : Store.Agree spaces s s') :
    (op.on s).1 = (op.on s').1 ∧ Store.Agree spaces (op.on s).2 (op.on s').2 := by
  induction h generalizing s s' with
  | lift x => simpa using same
  | @inSpace _ space hspace op =>
    obtain ⟨answer, inside, outside⟩ := Program.run_within [space] op.run s
    obtain ⟨answer', inside', outside'⟩ := Program.run_within [space] op.run s'
    -- Within its space the operation sees the same map on both sides; elsewhere it does nothing.
    have hpart : s.under [space] = s'.under [space] := same.part hspace
    refine ⟨answer.trans (hpart ▸ answer'.symm), fun other hother key => ?_⟩
    by_cases hsame : other = space
    · subst hsame
      have hinside := inside.trans (hpart ▸ inside'.symm)
      have hkey := congrArg (SortedMap.find? · key) hinside
      rw [Store.find?_under, Store.find?_under] at hkey
      exact hkey
    · have hbegins : ¬ [space] <+: other :: key := by simpa using Ne.symm hsame
      exact (outside _ hbegins).trans ((same other hother key).trans (outside' _ hbegins).symm)
  | @bind _ _ op f _ _ ih ihf =>
    obtain ⟨hanswer, hagree⟩ := ih same
    rw [on_bind, on_bind]
    rcases hs : op.on s with ⟨e | a, s₁⟩ <;> rcases hs' : op.on s' with ⟨e' | a', s₁'⟩ <;>
      rw [hs, hs'] at hanswer hagree <;> cases hanswer
    · exact ⟨rfl, hagree⟩
    · exact ihf _ hagree
  | outcome _ f ih =>
    obtain ⟨hanswer, hagree⟩ := ih same
    rw [on_outcome, on_outcome, hanswer]
    exact ⟨rfl, hagree⟩

theorem sameBut (h : op.Inside spaces) (s : Store) : Store.SameBut spaces s (op.on s).2 :=
  h.obeys _ _ ⟨.none, .ofStore s, rfl, (Disk.run_none op.run (.ofStore s)).2⟩

end Inside

theorem inside_closed (spaces : List Space) : Closed fun _ op => op.Inside spaces := ⟨.lift, .bind⟩

theorem inside_page {c : Cursor U} (hc : ∀ load ∈ c, load.Inside spaces) (limit : Nat) :
    (c.page limit).Inside spaces := by
  have readAll : (Cursor.readAll (c.take limit)).Inside spaces :=
    (inside_closed spaces).mapM fun load hload => hc load (List.mem_of_mem_take hload)
  refine readAll.bind fun rows => ?_
  cases hdrop : c.drop limit with
  | nil => exact .pure _
  | cons load others =>
    have hload : load ∈ c.drop limit := by simp [hdrop]
    exact (hc load (List.mem_of_mem_drop hload)).bind fun row => .pure _

/-- Some entries in these spaces are read, and each row is loaded from there when it is asked
for. -/
def Lists (spaces : List Space) (op : Op (Cursor U)) : Prop :=
  ∃ (β : Type) (read : Op β) (rows : β → Cursor U), op = (do return rows (← read)) ∧
    read.Inside spaces ∧ ∀ b, ∀ load ∈ rows b, load.Inside spaces

namespace Lists

variable {op : Op (Cursor U)}

theorem inside (h : op.Lists spaces) : op.Inside spaces := by
  obtain ⟨β, read, rows, rfl, hread, _⟩ := h
  exact hread.bind fun b => .pure (rows b)

theorem load (h : op.Lists spaces) {plan : FaultPlan} {d : Disk} {c : Cursor U}
    (hc : (op.onDisk plan d).1 = .ok c) {load : Op (Row U)} (hload : load ∈ c) :
    load.Inside spaces := by
  obtain ⟨β, read, rows, rfl, _, hrows⟩ := h
  rw [onDisk_bind] at hc
  rcases hread : read.onDisk plan d with ⟨e | b, d'⟩
  · rw [hread] at hc
    cases hc
  · rw [hread] at hc
    cases hc
    exact hrows b load hload

theorem bind (h : op.Lists spaces) {f : Cursor U → Op α}
    (hf : ∀ c : Cursor U, (∀ load ∈ c, load.Inside spaces) → (f c).Inside spaces) :
    (op >>= f).Inside spaces := by
  obtain ⟨β, read, rows, rfl, hread, hrows⟩ := h
  rw [bind_assoc]
  refine hread.bind fun b => ?_
  rw [pure_bind]
  exact hf _ (hrows b)

theorem before (h : op.Lists spaces) (x : Except Error α) :
    (do let _ ← x; op : Op (Cursor U)).Lists spaces := by
  obtain ⟨β, read, rows, rfl, hread, hrows⟩ := h
  refine ⟨β, (do let _ ← x; read), rows, ?_, .bind (.lift x) fun _ => hread, hrows⟩
  exact (bind_assoc _ _ _).symm

theorem mapValues (h : op.Lists spaces) (f : U → Except Error T) :
    (do return (← op).mapValues f : Op (Cursor T)).Lists spaces := by
  obtain ⟨β, read, rows, rfl, hread, hrows⟩ := h
  refine ⟨β, read, fun b => (rows b).mapValues f, by simp, hread, fun b load hload => ?_⟩
  obtain ⟨inner, hinner, rfl⟩ := List.mem_map.1 hload
  exact (hrows b inner hinner).bind fun row => .bind (.lift (f row.value)) fun value =>
    .pure (Row.mk row.id value)

theorem readAll (h : op.Lists spaces) : (op >>= Cursor.readAll).Inside spaces :=
  h.bind fun _ hc => (inside_closed spaces).mapM hc

theorem page (h : op.Lists spaces) (limit : Nat) : (op >>= Cursor.page limit).Inside spaces :=
  h.bind fun _ hc => inside_page hc limit

theorem paginate (h : op.Lists spaces) (rowSize : Nat) (limit : UInt64) :
    (op >>= Cursor.paginate rowSize limit).Inside spaces := by
  refine h.bind fun c hc => ?_
  unfold Cursor.paginate
  split
  · exact .throw .zeroPageLimit
  · split
    · exact .throw .capacityOverflow
    · exact inside_page hc limit.toNat

end Lists

end Op

open Op

theorem Rows.inside_get (rows : Rows T) (id : RowId) : (rows.get id).Inside [rows.space] :=
  (inside_closed _).row (.inSpace (by simp) _)

theorem lists_scan {spaces : List Space} {space : Space} (hspace : space ∈ spaces)
    (range : KeyRange) (reverse : Bool) {rows : List Item → Cursor U}
    (hrows : ∀ items, ∀ load ∈ rows items, load.Inside spaces) :
    (do return rows (← (Op.scan range reverse).inSpace space) : Op (Cursor U)).Lists spaces :=
  ⟨List Item, _, rows, rfl, .inSpace hspace _, hrows⟩

namespace Table

theorem lists_scan (t : Table T) (range : KeyRange) (reverse : Bool) :
    (t.scan range reverse).Lists [t.space] := by
  refine (IndexedTables.lists_scan (by simp) range reverse fun items => ?_).before _
  exact List.forall_mem_map.2 fun item _ => .lift (t.ofItem item)

theorem lists_select (t : Table T) (m : Modifier) : (t.target.select m).Lists [t.space] := by
  cases m with
  | exact key => exact (t.lists_scan (.only key) false).mapValues _
  | beginning bytes => exact (t.lists_scan (.beginningWith bytes) false).mapValues _
  | range range => exact (t.lists_scan range false).mapValues _

theorem inside_has (t : Table T) (id : RowId) : (t.has id).Inside [t.space] :=
  .inSpace (by simp) _

theorem inside_page (t : Table T) (key : Option RowId) (limit : UInt64) (config : Config) :
    (t.page key limit config).Inside [t.space] :=
  (t.lists_scan _ false).paginate t.codec.rowSize (config.pageLimit limit)

theorem inside_dump (t : Table T) : t.dump.Inside [t.space] := (t.lists_scan .all false).readAll

end Table

namespace MultiKeyIndex

variable (ix : MultiKeyIndex T)

theorem inside_load (entry : Except Error IndexEntry) :
    (ix.load entry).Inside [ix.space, ix.rows.space] :=
  .bind (.lift entry) fun e => .bind ((ix.rows.inside_get e.id).mono (by simp)) fun value =>
    .pure (Row.mk e.id value)

theorem inside_has (key : Bytes) : (ix.has key).Inside [ix.space, ix.rows.space] :=
  .bind (.lift _) fun _ => .bind (.inSpace (by simp) _) fun items => .lift (holds key items)

theorem lists_get (key : Bytes) : (ix.get key).Lists [ix.space, ix.rows.space] := by
  refine (IndexedTables.lists_scan (by simp) (.beginningWith key) false fun items => ?_).before _
  exact List.forall_mem_map.2 fun entry _ => ix.inside_load entry

theorem lists_scan (range : KeyRange) (reverse : Bool) :
    (ix.scan range reverse).Lists [ix.space, ix.rows.space] := by
  refine (IndexedTables.lists_scan (by simp) range reverse fun items => ?_).before _
  exact List.forall_mem_map.2 fun entry _ => ix.inside_load entry

theorem lists_select (m : Modifier) : (ix.target.select m).Lists [ix.space, ix.rows.space] := by
  cases m with
  | exact key => exact (ix.lists_get key).mapValues _
  | beginning bytes => exact (ix.lists_scan (.beginningWith bytes) false).mapValues _
  | range range => exact (ix.lists_scan range false).mapValues _

end MultiKeyIndex

namespace UniqueIndex

variable (ix : UniqueIndex T)

theorem inside_load (item : Item) : (ix.load item).Inside [ix.space, ix.rows.space] :=
  .bind (.lift item) fun entry => .bind ((ix.rows.inside_get ⟨entry.2⟩).mono (by simp)) fun value =>
    .pure (Row.mk ⟨entry.2⟩ value)

theorem inside_has (key : Bytes) : (ix.has key).Inside [ix.space, ix.rows.space] :=
  .bind (.lift _) fun _ => .inSpace (by simp) _

theorem inside_owner (key : Bytes) : (ix.owner key).Inside [ix.space, ix.rows.space] := by
  refine .bind (.lift _) fun _ => .bind (.inSpace (by simp) _) fun found => ?_
  cases found with
  | some id => exact .pure (RowId.mk id)
  | none => exact .throw _

theorem lists_get (key : Bytes) : (ix.get key).Lists [ix.space, ix.rows.space] := by
  refine (IndexedTables.lists_scan (by simp) (.only key) false fun items => ?_).before _
  exact List.forall_mem_map.2 fun item _ => ix.inside_load item

theorem inside_getOne (key : Bytes) : (ix.getOne key).Inside [ix.space, ix.rows.space] := by
  refine (ix.lists_get key).bind fun c hc => ?_
  cases c with
  | nil => exact .throw _
  | cons load rest => exact hc load List.mem_cons_self

theorem lists_scan (range : KeyRange) (reverse : Bool) :
    (ix.scan range reverse).Lists [ix.space, ix.rows.space] := by
  refine (IndexedTables.lists_scan (by simp) range reverse fun items => ?_).before _
  exact List.forall_mem_map.2 fun item _ => ix.inside_load item

theorem lists_select (m : Modifier) : (ix.target.select m).Lists [ix.space, ix.rows.space] := by
  cases m with
  | exact key => exact (ix.lists_get key).mapValues _
  | beginning bytes => exact (ix.lists_scan (.beginningWith bytes) false).mapValues _
  | range range => exact (ix.lists_scan range false).mapValues _

end UniqueIndex

theorem Router.inside_select {spaces : List Space} {r : Router} {path : String} {target : Target}
    (found : r.routes.find? (splitPath path).1 = some target)
    (h : ∀ m, (target.select m).Lists spaces) (payload : Bytes) :
    (r.select path payload).Inside spaces := by
  unfold Router.select
  simp only [found]
  refine .bind (.lift _) fun m => ?_
  rw [← bind_assoc]
  refine .bind ((h m).page r.maxRows) fun page => ?_
  cases m <;> cases page.rows <;> first | exact .pure page | exact .throw _

theorem Router.inside_handle {spaces : List Space} {r : Router} {path : String} {target : Target}
    (found : r.routes.find? (splitPath path).1 = some target)
    (h : ∀ m, (target.select m).Lists spaces) (payload : Bytes) :
    (r.handle path payload).Inside spaces :=
  .bind (Router.inside_select found h payload) fun page => .pure (envelope page).render

theorem Router.inside_serve {spaces : List Space} {r : Router} {path : String} {target : Target}
    (found : r.routes.find? (splitPath path).1 = some target)
    (h : ∀ m, (target.select m).Lists spaces) (payload : Bytes) :
    (liftM (r.serve path payload) : Op Response).Inside spaces :=
  .outcome (Router.inside_handle found h payload) Response.ofExcept

namespace Sequence

variable (q : Sequence)

theorem inside_current : q.current.Inside [q.space] :=
  (inside_closed _).current (.inSpace (by simp) _)

theorem inside_peek : q.peek.Inside [q.space] := (inside_closed _).peek (.inSpace (by simp) _)

theorem inside_next : q.next.Inside [q.space] :=
  (inside_closed _).next (.inSpace (by simp) _) fun _ => .inSpace (by simp) _

theorem inside_start (n : UInt64) : (q.start n).Inside [q.space] :=
  (inside_closed _).start (.inSpace (by simp) _) (.inSpace (by simp) _)

end Sequence

namespace Table

variable {t : Table T} {indexers : List (Indexer T)}

def spaces (t : Table T) (indexers : List (Indexer T)) : List Space :=
  t.space :: indexers.map (·.space)

theorem inside_own (t : Table T) (op : Op α) :
    (op.inSpace t.space).Inside (t.spaces indexers) := .inSpace (by simp [spaces]) op

section

variable (observed : t.observers = indexers.map Indexer.observer)

include observed

theorem inside_observer (id : RowId) {o : Observer T} (ho : o ∈ t.observers) :
    (∀ new old, (o.saved id new old).Inside (indexers.map (·.space))) ∧
      ∀ old, (o.removed id old).Inside (indexers.map (·.space)) := by
  rw [observed] at ho
  obtain ⟨ix, hix, rfl⟩ := List.mem_map.1 ho
  have hspace : ix.space ∈ indexers.map (·.space) := List.mem_map_of_mem hix
  exact ⟨(inside_closed _).saved (fun _ => .inSpace hspace _) fun _ => .inSpace hspace _,
    (inside_closed _).removed fun _ => .inSpace hspace _⟩

theorem inside_write (id : RowId) (value : T) (old : Option T) :
    (t.write id value old).Inside (t.spaces indexers) :=
  (inside_closed _).write (fun _ => t.inside_own _) fun _ ho =>
    ((inside_observer observed id ho).1 value old).mono (List.subset_cons_self ..)

theorem inside_create (id : RowId) (value : T) : (t.create id value).Inside (t.spaces indexers) :=
  (inside_closed _).create (t.inside_own _) (inside_write observed id value none)

theorem inside_save (id : RowId) (value : T) : (t.save id value).Inside (t.spaces indexers) :=
  (inside_closed _).save (t.inside_own _) fun old => inside_write observed id value (some old)

theorem inside_delete (id : RowId) : (t.delete id).Inside (t.spaces indexers) :=
  (inside_closed _).delete (t.inside_own _) (t.inside_own _) fun _ ho old =>
    ((inside_observer observed id ho).2 old).mono (List.subset_cons_self ..)

theorem inside_restore (rows : List (Row T)) : (t.restore rows).Inside (t.spaces indexers) :=
  (inside_closed _).restore (t.inside_dump.mono (by simp [spaces])) (inside_delete observed)
    fun row _ => inside_create observed row.id row.value

end

end Table

namespace NumberedTable

variable {t : NumberedTable T} {indexers : List (Indexer T)}

def spaces (t : NumberedTable T) (indexers : List (Indexer T)) : List Space :=
  t.table.spaces indexers ++ [t.sequence.space]

theorem inside_dump (t : NumberedTable T) : t.dump.Inside [t.table.space, t.sequence.space] :=
  .bind (t.sequence.inside_current.mono (by simp)) fun n =>
    .bind (t.table.inside_dump.mono (by simp)) fun rows => .pure (NumberedDump.mk n rows)

theorem inside_create (observed : t.table.observers = indexers.map Indexer.observer) (value : T) :
    (t.create value).Inside (t.spaces indexers) :=
  (inside_closed _).numberedCreate (t.sequence.inside_next.mono (by simp [spaces])) fun id =>
    (Table.inside_create observed id value).mono (by simp [spaces])

theorem inside_restore (observed : t.table.observers = indexers.map Indexer.observer)
    (d : NumberedDump T) : (t.restore d).Inside (t.spaces indexers) :=
  (inside_closed _).numberedRestore
    (fun n => (t.sequence.inside_start n).mono (by simp [spaces]))
    (fun rows => (Table.inside_restore observed rows).mono (by simp [spaces])) d

end NumberedTable

namespace NaturalTable

variable {t : NaturalTable T} {indexers : List (Indexer T)}

theorem inside_create (observed : t.table.observers = indexers.map Indexer.observer) (value : T) :
    (t.create value).Inside (t.table.spaces indexers) :=
  (Table.inside_create observed _ value).bind fun _ => .pure (t.key value)

theorem inside_restore (observed : t.table.observers = indexers.map Indexer.observer)
    (rows : List (Row T)) : (t.restore rows).Inside (t.table.spaces indexers) :=
  .bind (.lift _) fun _ => Table.inside_restore observed rows

end NaturalTable

end IndexedTables
