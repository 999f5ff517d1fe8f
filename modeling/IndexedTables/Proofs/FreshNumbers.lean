import IndexedTables.Proofs.Counters
set_option autoImplicit false

namespace IndexedTables

inductive NumberedStep (T : Type) where
  | create (value : T)
  | save (n : UInt64) (value : T)
  | delete (n : UInt64)
  | restore (dump : NumberedDump T)
  | restoreJson (text : Bytes)
  | next
  | peek
  | current
  | start (n : UInt64)

variable {T : Type}

/-- Adds a row as `create` does, but whether or not the id is free. -/
def Table.createRegardless (t : Table T) (id : RowId) (value : T) : Op Unit := do
  id.check
  let _ ← t.has id
  t.write id value none

namespace NumberedTable

def take (t : NumberedTable T) : NumberedStep T → Op (Option UInt64)
  | .create value => do return some (← t.create value)
  | .save n value => do t.save n value; return none
  | .delete n => do t.delete n; return none
  | .restore dump => do t.restore dump; return none
  | .restoreJson text => do t.restoreJson text; return none
  | .next => do return some (← t.sequence.next)
  | .peek => do let _ ← t.sequence.peek; return none
  | .current => do let _ ← t.sequence.current; return none
  | .start n => do t.sequence.start n; return none

def handed : Except Error (Option UInt64) → List UInt64
  | .ok (some n) => [n]
  | .ok none | .error _ => []

def run (t : NumberedTable T) (plan : FaultPlan) :
    List (NumberedStep T) → Disk → List UInt64 × Disk
  | [], d => ([], d)
  | step :: rest, d =>
    let (answer, d) := (t.take step).onDisk plan d
    let (numbers, d) := t.run plan rest d
    (handed answer ++ numbers, d)

def createRegardless (t : NumberedTable T) (value : T) : Op UInt64 := do
  let n ← t.sequence.next
  t.table.createRegardless (RowId.ofNumber n) value
  return n

/-- The id is a number from one to `last`. -/
def Numbers (last : UInt64) (id : RowId) : Prop :=
  ∃ n, id = .ofNumber n ∧ 1 ≤ n ∧ n ≤ last

/-- The sequence stands at `last`, and every row has a number that it has passed. -/
structure Counts (t : NumberedTable T) (last : UInt64) (s : Store) : Prop where
  counter : t.sequence.Stands last s
  rows : t.table.Holds (fun id _ => Numbers last id) s

variable {t : NumberedTable T} {indexers : List (Indexer T)} {last : UInt64} {s s' : Store}

theorem Numbers.mono {last' : UInt64} (h : last ≤ last') {id : RowId}
    (hid : Numbers last id) : Numbers last' id := by
  obtain ⟨n, rfl, low, high⟩ := hid
  exact ⟨n, rfl, low, UInt64.le_trans high h⟩

theorem check_iff {row : Row T} : checkNumber last row = .ok () ↔ Numbers last row.id := by
  obtain ⟨id, value⟩ := row
  have inside : ∀ n : UInt64, ¬ (n = 0 ∨ last < n) ↔ 1 ≤ n ∧ n ≤ last := by
    intro n
    have hzero : n = 0 ↔ n.toNat = 0 := ⟨fun same => same ▸ rfl, fun same => UInt64.toNat.inj same⟩
    rw [hzero, UInt64.lt_iff_toNat_lt, UInt64.le_iff_toNat_le, UInt64.le_iff_toNat_le]
    simp
    omega
  unfold checkNumber Numbers
  constructor
  · intro h
    cases hn : id.toNumber with
    | error e => simp [hn, bind, Except.bind] at h
    | ok n =>
      by_cases outside : n = 0 ∨ last < n
      · simp [hn, bind, Except.bind, outside] at h
      · exact ⟨n, congrArg RowId.mk (eq_numericKey_of_number hn), (inside n).1 outside⟩
  · intro found
    obtain ⟨n, rfl, bounds⟩ := found
    have hn : (RowId.ofNumber n).toNumber = .ok n := numberOfKey_numericKey n
    simp [hn, bind, Except.bind, (inside n).2 bounds]
    rfl

theorem one_le_of_lt {m n : UInt64} (h : m < n) : 1 ≤ n := by
  rw [UInt64.lt_iff_toNat_lt] at h
  rw [UInt64.le_iff_toNat_le]
  exact Nat.one_le_of_lt h

theorem Counts.moved (h : t.Counts last s) (apart : t.sequence.space ≠ t.table.space) {n : UInt64}
    (hn : last ≤ n) : t.Counts n (t.sequence.moved n s) where
  counter := t.sequence.stands_moved n s
  rows := by
    have frame : Store.SameBut [t.sequence.space] s (t.sequence.moved n s) :=
      Store.sameBut_insert s t.sequence.space Sequence.key (numericKey n)
    have numbered : t.table.Holds (fun id _ => Numbers n id) s := fun id stored hstored =>
      (h.rows id stored hstored).mono hn
    exact Table.holds_of_part numbered (frame.part (by simpa using apart.symm))

section

variable (observed : t.table.observers = indexers.map Indexer.observer)
  (rowsApart : t.table.space ∉ indexers.map (·.space))
  (apart : t.sequence.space ∉ t.table.spaces indexers)

include apart in
theorem space_ne : t.sequence.space ≠ t.table.space :=
  fun same => apart (same ▸ List.mem_cons_self)

include apart in
theorem Counts.of_rows (h : t.Counts last s) {α : Type} {op : Op α}
    (inside : op.Inside (t.table.spaces indexers))
    (keeps : op.Obeys (Store.Keeps (t.table.Holds fun id _ => Numbers last id)))
    (hrun : op.Reaches s s') : t.Counts last s' where
  counter := h.counter.of_sameBut (inside.obeys s s' hrun) apart
  rows := keeps s s' hrun h.rows

include observed rowsApart apart

theorem Counts.of_create (h : t.Counts last s) {n : UInt64} (low : 1 ≤ n) (high : n ≤ last)
    {value : T} (hrun : (t.table.create (.ofNumber n) value).Reaches s s') : t.Counts last s' :=
  h.of_rows apart (Table.inside_create observed _ value)
    (Table.create_keeps observed rowsApart fun _ _ => ⟨n, rfl, low, high⟩) hrun

theorem Counts.of_restore (h : t.Counts last s) {dump : NumberedDump T}
    (hrun : (t.restore dump).Reaches s s') : ∃ last', last ≤ last' ∧ t.Counts last' s' := by
  rcases Op.reaches_lift hrun with rfl | ⟨_, hcheck, hrun⟩
  · exact ⟨last, UInt64.le_refl last, h⟩
  have started : last = 0 → t.Counts dump.sequence (t.sequence.moved dump.sequence s) := by
    intro hzero
    subst hzero
    exact h.moved (space_ne apart) (UInt64.zero_le ..)
  rcases (t.sequence.strict_start _).reaches_bind hrun with hstart | ⟨_, s₁, hstart, hrestore⟩
  · rcases h.counter.of_start hstart with rfl | ⟨rfl, rfl⟩
    · exact ⟨last, UInt64.le_refl last, h⟩
    · exact ⟨dump.sequence, UInt64.zero_le .., started rfl⟩
  · obtain ⟨rfl, rfl⟩ := h.counter.of_start_ok hstart
    refine ⟨dump.sequence, UInt64.zero_le .., ?_⟩
    have keeps : (t.table.restore dump.rows).Obeys
        (Store.Keeps (t.table.Holds fun id _ => Numbers dump.sequence id)) :=
      Table.restore_keeps observed rowsApart fun row hrow _ _ =>
        check_iff.1 (forM_eq_ok_iff.1 hcheck row hrow)
    exact (started rfl).of_rows apart (Table.inside_restore observed dump.rows) keeps hrestore

theorem Counts.of_step (h : t.Counts last s) (step : NumberedStep T)
    (hrun : (t.take step).Reaches s s') : ∃ last', last ≤ last' ∧ t.Counts last' s' := by
  have still : s' = s → ∃ last', last ≤ last' ∧ t.Counts last' s' := by
    intro same
    exact ⟨last, UInt64.le_refl last, same ▸ h⟩
  have moved : ∀ {n}, last ≤ n → s' = t.sequence.moved n s →
      ∃ last', last ≤ last' ∧ t.Counts last' s' := by
    intro n hn same
    exact ⟨n, hn, same ▸ h.moved (space_ne apart) hn⟩
  cases step with
  | create value =>
    rcases t.sequence.strict_next.reaches_bind (Op.reaches_of_return hrun) with
      hnext | ⟨n, s₁, hnext, hrest⟩
    · rcases h.counter.of_next hnext with same | ⟨hlast, same⟩
      · exact still same
      · exact moved (UInt64.le_of_lt hlast) same
    · -- The counter has moved before the row is written, so no row gets ahead of it.
      obtain ⟨hlast, _, rfl⟩ := h.counter.of_next_ok hnext
      have counted := h.moved (space_ne apart) (UInt64.le_of_lt hlast)
      exact ⟨n, UInt64.le_of_lt hlast, counted.of_create observed rowsApart apart
        (one_le_of_lt hlast) (UInt64.le_refl n) (Op.reaches_of_return hrest)⟩
  | save n value =>
    have keeps : (t.table.save (.ofNumber n) value).Obeys
        (Store.Keeps (t.table.Holds fun id _ => Numbers last id)) :=
      Table.save_keeps observed rowsApart fun _ _ hold _ => hold
    exact ⟨last, UInt64.le_refl last, h.of_rows apart (Table.inside_save observed _ value) keeps
      (Op.reaches_of_return hrun)⟩
  | delete n =>
    exact ⟨last, UInt64.le_refl last, h.of_rows apart (Table.inside_delete observed _)
      (Table.delete_keeps observed rowsApart _) (Op.reaches_of_return hrun)⟩
  | restore dump => exact h.of_restore observed rowsApart apart (Op.reaches_of_return hrun)
  | restoreJson text =>
    rcases Op.reaches_lift (Op.reaches_of_return hrun) with same | ⟨dump, _, hrestore⟩
    · exact still same
    · exact h.of_restore observed rowsApart apart hrestore
  | next =>
    rcases h.counter.of_next (Op.reaches_of_return hrun) with same | ⟨hlast, same⟩
    · exact still same
    · exact moved (UInt64.le_of_lt hlast) same
  | peek => exact still (Sequence.obeys_peek s s' (Op.reaches_of_return hrun)).symm
  | current => exact still (Sequence.obeys_current s s' (Op.reaches_of_return hrun)).symm
  | start n =>
    rcases h.counter.of_start (Op.reaches_of_return hrun) with same | ⟨rfl, same⟩
    · exact still same
    · exact moved (UInt64.zero_le ..) same

theorem Counts.of_handed (h : t.Counts last s) {step : NumberedStep T} {n : UInt64}
    (hrun : (t.take step).on s = (.ok (some n), s')) : last < n ∧ t.Counts n s' := by
  cases step <;> obtain ⟨_, s₁, h₁, h₂⟩ := Op.ok_of_bind hrun <;> cases h₂
  case create value =>
    obtain ⟨_, s₂, hnext, hrest⟩ := Op.ok_of_bind h₁
    obtain ⟨_, s₃, hcreate, hdone⟩ := Op.ok_of_bind hrest
    cases hdone
    obtain ⟨hlast, _, rfl⟩ := h.counter.of_next_ok hnext
    have counted := h.moved (space_ne apart) (UInt64.le_of_lt hlast)
    exact ⟨hlast, counted.of_create observed rowsApart apart (one_le_of_lt hlast)
      (UInt64.le_refl n) (Op.reaches_of_on hcreate)⟩
  case next =>
    obtain ⟨hlast, _, rfl⟩ := h.counter.of_next_ok h₁
    exact ⟨hlast, h.moved (space_ne apart) (UInt64.le_of_lt hlast)⟩

omit rowsApart apart in
theorem strict_take (step : NumberedStep T) : (t.take step).Strict := by
  have indexed : t.table.Indexed := Table.indexed_of_observers observed
  have restore : ∀ dump, (t.restore dump).Strict :=
    Op.strict_closed.numberedRestore t.sequence.strict_start indexed.strict_restore
  have returned : ∀ {α : Type} {op : Op α} (f : α → Option UInt64), op.Strict →
      (do return f (← op) : Op (Option UInt64)).Strict := fun f hop =>
    hop.bind fun a => Op.strict_closed.pure (f a)
  cases step with
  | create value =>
    exact returned some (Op.strict_closed.numberedCreate t.sequence.strict_next
      fun id => indexed.strict_create id value)
  | save n value => exact returned _ (indexed.strict_save (.ofNumber n) value)
  | delete n => exact returned _ (indexed.strict_delete (.ofNumber n))
  | restore dump => exact returned _ (restore dump)
  | restoreJson text => exact returned _ ((Op.strict_lift _).bind restore)
  | next => exact returned some t.sequence.strict_next
  | peek => exact returned _ t.sequence.strict_peek
  | current => exact returned _ (Op.strict_closed.current ((Op.strict_get _).inSpace _))
  | start n => exact returned _ (t.sequence.strict_start n)

theorem Counts.of_take {d : Disk} (h : t.Counts last d.store) (plan : FaultPlan)
    (step : NumberedStep T) : ∃ last', last ≤ last' ∧
      t.Counts last' ((t.take step).onDisk plan d).2.store ∧
      ∀ n ∈ handed ((t.take step).onDisk plan d).1, last < n ∧ n ≤ last' := by
  have reached : (t.take step).Reaches d.store ((t.take step).onDisk plan d).2.store :=
    ⟨plan, d, rfl, rfl⟩
  obtain ⟨last', hlast, counted⟩ := h.of_step observed rowsApart apart step reached
  cases hanswer : ((t.take step).onDisk plan d).1 with
  | error e => exact ⟨last', hlast, counted, by simp [handed]⟩
  | ok answer =>
    cases answer with
    | none => exact ⟨last', hlast, counted, by simp [handed]⟩
    | some n =>
      obtain ⟨hn, counted⟩ := h.of_handed observed rowsApart apart
        ((strict_take observed step).on_of_ok hanswer)
      exact ⟨n, UInt64.le_of_lt hn, counted, by simpa [handed] using hn⟩

omit observed rowsApart apart

theorem run_append (t : NumberedTable T) (plan : FaultPlan) (steps more : List (NumberedStep T))
    (d : Disk) : (t.run plan (steps ++ more) d).2 = (t.run plan more (t.run plan steps d).2).2 := by
  induction steps generalizing d with
  | nil => rfl
  | cons step rest ih => exact ih _

include observed rowsApart apart

theorem Counts.of_run {d : Disk} (h : t.Counts last d.store) (plan : FaultPlan)
    (steps : List (NumberedStep T)) : ∃ last', last ≤ last' ∧
      t.Counts last' (t.run plan steps d).2.store ∧
      (t.run plan steps d).1.Pairwise (· < ·) ∧
      ∀ n ∈ (t.run plan steps d).1, last < n ∧ n ≤ last' := by
  induction steps generalizing last d with
  | nil => exact ⟨last, UInt64.le_refl last, h, .nil, by simp [run]⟩
  | cons step rest ih =>
    obtain ⟨mid, hmid, counted, first⟩ := h.of_take observed rowsApart apart plan step
    obtain ⟨last', hlast', after, ascending, others⟩ := ih counted
    have one : (handed ((t.take step).onDisk plan d).1).Pairwise (· < ·) := by
      rcases ((t.take step).onDisk plan d).1 with e | _ | n <;> simp [handed]
    refine ⟨last', UInt64.le_trans hmid hlast', after, List.pairwise_append.2 ⟨one, ascending,
      fun n hn m hm => UInt64.lt_of_le_of_lt (first n hn).2 (others m hm).1⟩, fun n hn => ?_⟩
    rcases List.mem_append.1 hn with hn | hn
    · exact ⟨(first n hn).1, UInt64.le_trans (first n hn).2 hlast'⟩
    · exact ⟨UInt64.lt_of_le_of_lt hmid (others n hn).1, (others n hn).2⟩

end

/-- On this store the operation fails, whatever else does, and leaves the store as it was. -/
def FailsOn {α : Type} (op : Op α) (s : Store) : Prop :=
  ∀ plan (d : Disk), d.store = s →
    (∃ e, (op.onDisk plan d).1 = .error e) ∧ (op.onDisk plan d).2.store = s

structure Fresh (t : NumberedTable T) (last : UInt64) (s : Store) : Prop where
  current : t.sequence.current.on s = (.ok last, s)
  ids : ∀ id stored, s.find? (t.table.space :: id) = some stored →
    id.length = 8 ∧ ∃ n, numberOfKey id = .ok n ∧ 1 ≤ n ∧ n ≤ last
  peek : t.sequence.peek.on s = ((t.sequence.next.on s).1, s)
  foretold : ∀ plan plan' (d d' : Disk) m n, d.store = s → d'.store = s →
    (t.sequence.peek.onDisk plan d).1 = .ok m → (t.sequence.next.onDisk plan' d').1 = .ok n → m = n
  unused : ∀ n, (t.sequence.next.on s).1 = .ok n → s.find? (t.table.space :: numericKey n) = none
  /-- No row is ever refused because its id is taken. -/
  free : ∀ value plan (d : Disk), d.store = s →
    (t.create value).onDisk plan d = (t.createRegardless value).onDisk plan d
  exhausted : last = 0xffffffffffffffff →
    FailsOn t.sequence.next s ∧ ∀ value, FailsOn (t.create value) s

theorem onDisk_create_of_free {t : Table T} {id : RowId} {plan : FaultPlan} {d : Disk}
    (free : d.store.find? (t.space :: id.bytes) = none) (value : T) :
    (t.create id value).onDisk plan d = (t.createRegardless id value).onDisk plan d := by
  have asked : (t.has id).onDisk plan d = Disk.answer plan (.has (t.space :: id.bytes)) d := rfl
  have absent : d.store.contains (t.space :: id.bytes) = false := by
    simp [SortedMap.contains, free]
  cases hcheck : id.check with
  | error e => simp [Table.create, Table.createRegardless, Op.onDisk_bind, hcheck]
  | ok _ =>
    simp only [Table.create, Table.createRegardless, Op.onDisk_bind, Op.onDisk_lift, hcheck, asked]
    cases hfault : plan.call d.calls (.has (t.space :: id.bytes)) with
    | some e => rw [Disk.answer_of_fault hfault]
    | none =>
      rw [Disk.answer_of_sound hfault]
      simp [Disk.spoil, Store.answer, absent]

theorem Counts.not_stored (h : t.Counts last s) {n : UInt64} (hn : last < n) :
    s.find? (t.table.space :: numericKey n) = none := by
  rw [Option.eq_none_iff_forall_ne_some]
  intro stored hstored
  obtain ⟨m, hm, _, hlast⟩ := h.rows (.ofNumber n) stored hstored
  have same : n = m := numericKey_injective (congrArg RowId.bytes hm)
  subst same
  exact UInt64.lt_irrefl _ (UInt64.lt_of_lt_of_le hn hlast)

theorem Counts.free (h : t.Counts last s) (apart : t.sequence.space ≠ t.table.space) (value : T)
    (plan : FaultPlan) {d : Disk} (hd : d.store = s) :
    (t.create value).onDisk plan d = (t.createRegardless value).onDisk plan d := by
  subst hd
  unfold create createRegardless
  rw [Op.onDisk_bind, Op.onDisk_bind]
  rcases hnext : t.sequence.next.onDisk plan d with ⟨e | n, d'⟩
  · rfl
  · have hon := t.sequence.strict_next.on_of_ok (congrArg Prod.fst hnext)
    rw [hnext] at hon
    obtain ⟨hn, _, hstore⟩ := h.counter.of_next_ok hon
    have free : d'.store.find? (t.table.space :: (RowId.ofNumber n).bytes) = none := by
      have ne : t.table.space :: numericKey n ≠ t.sequence.space :: Sequence.key :=
        fun same => apart (List.cons.inj same).1.symm
      rw [hstore, Sequence.moved]
      exact (SortedMap.find?_insert_of_ne _ _ ne).trans (h.not_stored hn)
    simp only [Op.onDisk_bind, onDisk_create_of_free free]

theorem Counts.exhausted (h : t.Counts 0xffffffffffffffff s) :
    FailsOn t.sequence.next s ∧ ∀ value, FailsOn (t.create value) s := by
  have next_fails : FailsOn t.sequence.next s := by
    intro plan d hd
    subst hd
    constructor
    · cases hanswer : (t.sequence.next.onDisk plan d).1 with
      | error e => exact ⟨e, rfl⟩
      | ok n =>
        have hon := t.sequence.strict_next.on_of_ok hanswer
        rw [h.counter.on_next] at hon
        cases hon
    · rcases h.counter.of_next ⟨plan, d, rfl, rfl⟩ with same | ⟨hlast, _⟩
      · exact same
      · exact absurd hlast (by decide)
  refine ⟨next_fails, fun value plan d hd => ?_⟩
  obtain ⟨⟨e, he⟩, hstore⟩ := next_fails plan d hd
  have hrun : (t.create value).onDisk plan d = (.error e, (t.sequence.next.onDisk plan d).2) := by
    unfold create
    rw [Op.onDisk_bind]
    rcases hnext : t.sequence.next.onDisk plan d with ⟨answer, d'⟩
    rw [hnext] at he
    cases he
    rfl
  rw [hrun]
  exact ⟨⟨e, rfl⟩, hstore⟩

theorem Counts.fresh (h : t.Counts last s) (apart : t.sequence.space ≠ t.table.space) :
    t.Fresh last s where
  current := h.counter.on_current
  ids id stored hstored := by
    obtain ⟨n, hid, low, high⟩ := h.rows ⟨id⟩ stored hstored
    cases hid
    exact ⟨by simp [numericKey], n, numberOfKey_numericKey n, low, high⟩
  peek := by
    rw [h.counter.on_peek, h.counter.on_next]
    split <;> rfl
  foretold plan plan' d d' m n hd hd' hpeek hnext := by
    have foreseen := t.sequence.strict_peek.on_of_ok hpeek
    have handed := t.sequence.strict_next.on_of_ok hnext
    rw [hd, h.counter.on_peek] at foreseen
    rw [hd', h.counter.on_next] at handed
    split at foreseen <;> simp_all
  unused n hn := by
    rcases hrun : t.sequence.next.on s with ⟨answer, s'⟩
    rw [hrun] at hn
    cases hn
    exact h.not_stored (h.counter.of_next_ok hrun).1
  free value plan d hd := h.free apart value plan hd
  exhausted hlast := by
    subst hlast
    exact h.exhausted

/-- From nothing stored on, after any run and whatever failed in it, the rows have numbers that the
sequence has passed, it goes on from where it was, and the numbers handed out ascend. -/
theorem numbers_never_reused (observed : t.table.observers = indexers.map Indexer.observer)
    (rowsApart : t.table.space ∉ indexers.map (·.space))
    (apart : t.sequence.space ∉ t.table.spaces indexers) {d : Disk}
    (noRows : d.store.part t.table.space = .empty)
    (noNumber : d.store.part t.sequence.space = .empty) (plan : FaultPlan)
    (steps more : List (NumberedStep T)) :
    ∃ last last', last ≤ last' ∧ t.Fresh last (t.run plan steps d).2.store ∧
      t.Fresh last' (t.run plan (steps ++ more) d).2.store ∧
      (t.run plan (steps ++ more) d).1.Pairwise (· < ·) ∧
      ∀ n ∈ (t.run plan (steps ++ more) d).1, n ≤ last' := by
  have start : t.Counts 0 d.store :=
    ⟨Sequence.stands_of_empty noNumber, Table.holds_of_empty noRows⟩
  obtain ⟨last, _, counted, _, _⟩ := start.of_run observed rowsApart apart plan steps
  obtain ⟨last', hlast', after, _, _⟩ := counted.of_run observed rowsApart apart plan more
  obtain ⟨_, _, whole, ascending, bounds⟩ :=
    start.of_run observed rowsApart apart plan (steps ++ more)
  rw [← run_append] at after
  have same := whole.counter.eq_of_current after.counter.on_current
  subst same
  exact ⟨last, last', hlast', counted.fresh (space_ne apart), after.fresh (space_ne apart),
    ascending, fun n hn => (bounds n hn).2⟩

end NumberedTable

def countedWords : NumberedTable Bytes := ⟨words, ⟨0x04⟩⟩

/-- The second word is refused for its initial and stays under its number; then the disk jams when
a number is asked for. -/
theorem countedWords_run :
    let steps : List (NumberedStep Bytes) := [.create [0x61, 0x62], .create [0x61], .next]
    let more : List (NumberedStep Bytes) := [.next, .delete 1, .create [0x63], .restore ⟨9, []⟩]
    let (numbers, d) := countedWords.run (jamming 17 []) (steps ++ more) (.ofStore .empty)
    numbers = [1, 3, 4] ∧ numbers.Pairwise (· < ·) ∧
      d.store.contains (0x01 :: numericKey 2) ∧ countedWords.Fresh 4 d.store := by
  intro steps more
  obtain ⟨_, last, _, _, fresh, ascending, _⟩ := @NumberedTable.numbers_never_reused Bytes
    countedWords wordIndexers rfl (by decide) (by decide) (.ofStore .empty) rfl rfl
    (jamming 17 []) steps more
  have four : last = 4 := by
    have current := congrArg Prod.fst fresh.current
    cases current
    rfl
  exact ⟨rfl, ascending, rfl, four ▸ fresh⟩

end IndexedTables
