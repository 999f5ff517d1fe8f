import IndexedTables.Proofs.Disks
import IndexedTables.Proofs.TableWrites
/-!
Writes on a store that fails. The first failure that an operation is shown ends it: it is the
answer, nothing more is written, and what was written before is the beginning of what is written
when nothing fails.
-/
set_option autoImplicit false

namespace IndexedTables

variable {α β : Type}

namespace Program

def Decided (next : Except Error (List Item) → Program α) (before : List Item) : Prop :=
  ∀ rest rest', next (.ok (before ++ rest)) = next (.ok (before ++ rest'))

/-- The reply shows this failure: the call failed, or an item that is read. -/
def Shown : (c : Call) → (Except Error c.Reply → Program α) → Except Error c.Reply → Error → Prop
  | _, _, .error shown, e => shown = e
  | .scan _ _, next, .ok items, e =>
    ∃ before after, items = before ++ .error e :: after ∧ ¬ Decided next before
  | _, _, .ok _, _ => False

/-- Under the plan the program is shown this failure, when these writes have been made. -/
inductive Struck (plan : FaultPlan) : Program α → Disk → Error → List Write → Prop where
  | here {c : Call} {next : Except Error c.Reply → Program α} {d : Disk} {e : Error}
      (h : Shown c next (Disk.answer plan c d).1 e) : Struck plan (.call c next) d e d.writes
  | later {c : Call} {next : Except Error c.Reply → Program α} {d : Disk} {e : Error}
      {writes : List Write}
      (h : Struck plan (next (Disk.answer plan c d).1) (Disk.answer plan c d).2 e writes) :
      Struck plan (.call c next) d e writes
  | told {line : String} {next : Program α} {d : Disk} {e : Error} {writes : List Write}
      (h : Struck plan next ((Disk.handler plan).hear line d) e writes) :
      Struck plan (.tell line next) d e writes

/-- A failure that is shown is the answer, at once. -/
def Strict : Program (Except Error α) → Prop
  | .done _ => True
  | .tell _ next => next.Strict
  | .call c next =>
    (∀ reply e, Shown c next reply e → next reply = .done (.error e)) ∧
      ∀ reply, (next reply).Strict

end Program

theorem Item.map_cases {f : Bytes × Bytes → Item}
    (hf : ∀ entry, f entry = .ok entry ∨ ∃ e, f entry = .error e) (entries : List (Bytes × Bytes)) :
    entries.map f = entries.map .ok ∨ ∃ before e after rest,
      entries.map f = before ++ .error e :: after ∧
        (entries.map .ok : List Item) = before ++ rest := by
  induction entries with
  | nil => exact .inl rfl
  | cons entry rest ih =>
    rcases hf entry with hok | ⟨e, herror⟩
    · rcases ih with same | ⟨before, e, after, others, hmap, hrest⟩
      · simp [hok, same]
      · exact .inr ⟨.ok entry :: before, e, after, others, by simp [hok, hmap], by simp [hrest]⟩
    · exact .inr ⟨[], e, rest.map f, _, by simp [herror], rfl⟩

theorem Disk.spoil_cases (plan : FaultPlan) (n : Nat) (range : KeyRange) (reverse : Bool)
    (entries : List (Bytes × Bytes)) :
    spoil plan n (.scan range reverse) (.ok (entries.map .ok)) = .ok (entries.map .ok) ∨
      ∃ before e after rest,
        spoil plan n (.scan range reverse) (.ok (entries.map .ok)) =
          .ok (before ++ .error e :: after) ∧
        (entries.map .ok : List Item) = before ++ rest := by
  simp only [spoil, Except.ok.injEq, List.map_map]
  refine Item.map_cases (fun entry => ?_) entries
  cases hentry : plan.entry n entry.1 with
  | some e => exact .inr ⟨e, by simp [bind, Except.bind, hentry]; rfl⟩
  | none => exact .inl (by simp [bind, Except.bind, hentry]; rfl)

namespace Program

variable {plan : FaultPlan} {d : Disk} {c : Call} {next : Except Error c.Reply → Program α}

theorem writes_of_shown {e : Error} (h : Shown c next (Disk.answer plan c d).1 e) :
    (Disk.answer plan c d).2.writes = d.writes := by
  cases hfault : plan.call d.calls c with
  | some e' => rw [Disk.answer_of_fault hfault]
  | none =>
    rw [Disk.answer_of_sound hfault] at h ⊢
    cases c <;> simp_all [Shown, Disk.spoil, Store.answer, Disk.answer, FaultPlan.none, Call.write?]

theorem next_of_not_shown (h : ∀ e, ¬ Shown c next (Disk.answer plan c d).1 e) :
    next (Disk.answer plan c d).1 = next (Disk.answer .none c d).1 ∧
      (Disk.answer plan c d).2 = (Disk.answer .none c d).2 := by
  cases hfault : plan.call d.calls c with
  | some e =>
    rw [Disk.answer_of_fault hfault] at h
    exact absurd rfl (h e)
  | none =>
    rw [Disk.answer_of_sound hfault] at h ⊢
    refine ⟨?_, rfl⟩
    rw [(Disk.answer_none c d).1]
    cases c with
    | scan range reverse =>
      have hscan : ∃ entries : List (Bytes × Bytes),
          (d.store.answer (.scan range reverse)).1 = .ok (entries.map .ok) := by
        cases reverse <;> exact ⟨_, rfl⟩
      obtain ⟨entries, hentries⟩ := hscan
      rw [hentries] at h ⊢
      rcases Disk.spoil_cases plan d.calls range reverse entries with
        same | ⟨before, e, after, rest, hspoiled, hrest⟩
      · rw [same]
      · rw [hspoiled] at h ⊢
        -- A spoiled scan does not show its failure if the program leaves the rest of it unread.
        have decided : Decided next before := by
          by_contra read
          exact h e ⟨before, after, rfl, read⟩
        rw [hrest]
        exact decided _ _
    | _ => rfl

theorem writes_grow (p : Program α) (plan : FaultPlan) (d : Disk) :
    d.writes <+: (p.run (Disk.handler plan) d).2.writes := by
  induction p generalizing d with
  | done a => exact List.prefix_rfl
  | tell line next ih => exact ih ((Disk.handler plan).hear line d)
  | call c next ih =>
    have hanswer : d.writes <+: (Disk.answer plan c d).2.writes := by
      cases hfault : plan.call d.calls c with
      | some e => simp [Disk.answer_of_fault hfault]
      | none => simp [Disk.answer_of_sound hfault, (Disk.answer_none c d).2]
    exact hanswer.trans (ih _ _)

theorem not_struck_done {a : α} {e : Error} {writes : List Write} :
    ¬ Struck plan (.done a) d e writes := nofun

theorem struck_tell_iff {line : String} {p : Program α} {e : Error} {writes : List Write} :
    Struck plan (.tell line p) d e writes ↔
      p.Struck plan ((Disk.handler plan).hear line d) e writes := by
  constructor
  · intro h
    cases h with
    | told h => exact h
  · exact .told

theorem struck_call_iff (hnone : ∀ e, ¬ Shown c next (Disk.answer plan c d).1 e) {e : Error}
    {writes : List Write} : Struck plan (.call c next) d e writes ↔
      (next (Disk.answer plan c d).1).Struck plan (Disk.answer plan c d).2 e writes := by
  constructor
  · intro h
    cases h with
    | here h => exact absurd h (hnone e)
    | later h => exact h
  · exact .later

theorem Strict.struck_iff {next : Except Error c.Reply → Program (Except Error α)}
    (h : Strict (.call c next)) {e : Error} (he : Shown c next (Disk.answer plan c d).1 e)
    (e' : Error) (writes : List Write) :
    Struck plan (.call c next) d e' writes ↔ e' = e ∧ writes = d.writes := by
  have ended := h.1 _ e he
  constructor
  · intro hstruck
    cases hstruck with
    | here h' =>
      have same := (h.1 _ e' h').symm.trans ended
      cases same
      exact ⟨rfl, rfl⟩
    | later h' =>
      rw [ended] at h'
      exact absurd h' not_struck_done
  · intro same
    obtain ⟨rfl, rfl⟩ := same
    exact .here he

/-- A strict program is shown no failure and runs as if there were no faults; or it is shown one,
which is its answer, and writes nothing more. -/
theorem Strict.run_cases {p : Program (Except Error α)} (h : p.Strict) (plan : FaultPlan)
    (d : Disk) :
    (p.run (Disk.handler plan) d = p.run (Disk.handler .none) d ∧
      ∀ e writes, ¬ p.Struck plan d e writes) ∨
    ∃ e, (p.run (Disk.handler plan) d).1 = .error e ∧
      (∀ e' writes, p.Struck plan d e' writes ↔
        e' = e ∧ writes = (p.run (Disk.handler plan) d).2.writes) ∧
      (p.run (Disk.handler plan) d).2.writes <+: (p.run (Disk.handler .none) d).2.writes := by
  induction p generalizing d with
  | done a => exact .inl ⟨rfl, fun e writes => not_struck_done⟩
  | tell line next ih =>
    simp only [struck_tell_iff]
    exact ih h ((Disk.handler plan).hear line d)
  | call c next ih =>
    -- Either this call shows its failure and ends the program, or it is as on a sound disk.
    by_cases hshown : ∃ e, Shown c next (Disk.answer plan c d).1 e
    · obtain ⟨e, he⟩ := hshown
      have hrun : (Program.call c next).run (Disk.handler plan) d =
          (.error e, (Disk.answer plan c d).2) := by
        change (next (Disk.answer plan c d).1).run (Disk.handler plan) _ = _
        rw [h.1 _ e he]
        rfl
      rw [hrun, writes_of_shown he]
      exact .inr ⟨e, rfl, h.struck_iff he, writes_grow _ _ _⟩
    · have hnone := not_exists.1 hshown
      obtain ⟨hnext, hdisk⟩ := next_of_not_shown hnone
      have hrun : (Program.call c next).run (Disk.handler plan) d =
          (next (Disk.answer .none c d).1).run (Disk.handler plan) (Disk.answer .none c d).2 := by
        rw [← hnext, ← hdisk]
        rfl
      simp only [struck_call_iff hnone, hrun, hnext, hdisk]
      exact ih _ (h.2 _) _

theorem shown_of_comp {f : Program α → Program β} {reply : Except Error c.Reply} {e : Error}
    (h : Shown c (fun reply => f (next reply)) reply e) : Shown c next reply e := by
  cases reply with
  | error shown => exact h
  | ok found =>
    cases c with
    | scan range reverse =>
      obtain ⟨before, after, rfl, read⟩ := h
      exact ⟨before, after, rfl, fun decided => read fun rest rest' =>
        congrArg f (decided rest rest')⟩
    | _ => exact h

theorem Strict.bind {p : Program (Except Error α)} {g : Except Error α → Program (Except Error β)}
    (h : p.Strict) (hg : ∀ a, (g (.ok a)).Strict)
    (herror : ∀ e, g (.error e) = .done (.error e)) : (p.bind g).Strict := by
  induction p with
  | done answer =>
    cases answer with
    | ok a => exact hg a
    | error e =>
      change (g (.error e)).Strict
      rw [herror]
      trivial
  | tell line next ih => exact ih h
  | call c next ih =>
    refine ⟨fun reply e he => ?_, fun reply => ih reply (h.2 reply)⟩
    change (next reply).bind g = _
    rw [h.1 reply e (shown_of_comp (f := fun p => p.bind g) he)]
    exact herror e

theorem Strict.within {p : Program (Except Error α)} (h : p.Strict) (lead : Bytes) :
    (p.within lead).Strict := by
  induction p with
  | done answer => trivial
  | tell line next ih => exact ih h
  | call c next ih =>
    cases c with
    | scan range reverse =>
      refine ⟨fun reply e he => ?_, fun reply => ih _ (h.2 _)⟩
      refine congrArg (Program.within lead) (h.1 _ e ?_)
      cases reply with
      | error shown => exact he
      | ok items =>
        obtain ⟨before, after, rfl, read⟩ := he
        refine ⟨before.map (Item.behind lead), after.map (Item.behind lead), ?_, ?_⟩
        · simp [Item.behind, Except.map]
        · intro decided
          refine read fun rest rest' => congrArg (Program.within lead) ?_
          simpa [Except.map] using
            decided (rest.map (Item.behind lead)) (rest'.map (Item.behind lead))
    | _ =>
      refine ⟨fun reply e he => congrArg (Program.within lead) (h.1 reply e ?_),
        fun reply => ih _ (h.2 _)⟩
      cases reply with
      | error shown => exact he
      | ok found => exact he.elim

end Program

namespace Op

def Strict (op : Op α) : Prop := Program.Strict op.run

theorem strict_lift (x : Except Error α) : (liftM x : Op α).Strict := by
  cases x <;> trivial

theorem strict_call {c : Call} (hc : ∀ range reverse, c ≠ .scan range reverse) :
    (ofCall c).Strict := by
  refine ⟨fun reply e he => ?_, fun reply => trivial⟩
  cases reply with
  | error shown =>
    cases he
    rfl
  | ok found =>
    cases c with
    | scan range reverse => exact absurd rfl (hc range reverse)
    | _ => exact he.elim

theorem strict_get (key : Bytes) : (get key).Strict := strict_call (by simp)

theorem strict_has (key : Bytes) : (has key).Strict := strict_call (by simp)

theorem strict_set (key value : Bytes) : (set key value).Strict := strict_call (by simp)

theorem strict_delete (key : Bytes) : (delete key).Strict := strict_call (by simp)

theorem Strict.bind {op : Op α} {f : α → Op β} (h : op.Strict) (hf : ∀ a, (f a).Strict) :
    (op >>= f).Strict :=
  Program.Strict.bind h hf fun _ => rfl

theorem Strict.inSpace {op : Op α} (h : op.Strict) (space : Space) : (op.inSpace space).Strict :=
  Program.Strict.within h [space]

theorem strict_closed : Closed fun _ op => op.Strict := ⟨strict_lift, .bind⟩

theorem strict_scan {f : Item → Except Error α} (hf : ∀ e, f (.error e) = .error e)
    (range : KeyRange) (reverse : Bool) :
    (scan range reverse >>= fun items => (liftM (items.mapM f) : Op (List α))).Strict := by
  refine ⟨fun reply e he => ?_, fun reply => ?_⟩
  · cases reply with
    | error shown =>
      cases he
      rfl
    | ok items =>
      obtain ⟨before, after, rfl, read⟩ := he
      change ExceptT.run (liftM ((before ++ .error e :: after).mapM f)) = _
      cases hbefore : before.mapM f with
      | error first =>
        refine absurd (fun rest rest' => ?_) read
        change ExceptT.run (liftM ((before ++ rest).mapM f)) =
          ExceptT.run (liftM ((before ++ rest').mapM f))
        rw [List.mapM_append, List.mapM_append, hbefore]
        rfl
      | ok found =>
        rw [List.mapM_append, hbefore, List.mapM_cons, hf]
        rfl
  · cases reply with
    | error e => trivial
    | ok items => exact strict_lift _

end Op

variable {T : Type}

theorem Indexer.strict_add (ix : Indexer T) (id : RowId) (key : Bytes) :
    (ix.add id key).Strict := by
  refine Op.Strict.inSpace ?_ _
  cases ix.policy with
  | multiKey =>
    refine (Op.strict_lift _).bind fun entry => (Op.strict_has entry).bind fun held => ?_
    cases held with
    | true => exact Op.strict_closed.pure ()
    | false => exact Op.strict_set entry []
  | unique =>
    refine (Op.strict_has key).bind fun held => ?_
    cases held with
    | true => exact (Op.strict_closed.throw _).bind fun _ => Op.strict_set key id.bytes
    | false => exact Op.strict_set key id.bytes

theorem Indexer.strict_remove (ix : Indexer T) (id : RowId) (key : Bytes) :
    (ix.remove id key).Strict := by
  refine Op.Strict.inSpace ?_ _
  cases ix.policy with
  | multiKey => exact (Op.strict_lift _).bind fun entry => Op.strict_delete entry
  | unique =>
    refine (Op.strict_get key).bind fun owner => ?_
    by_cases own : owner = some id.bytes
    · simpa [own] using Op.strict_delete key
    · simpa [own] using Op.strict_closed.pure ()

namespace Table

variable {t : Table T}

def Indexed (t : Table T) : Prop := ∀ o ∈ t.observers, ∃ ix : Indexer T, o = ix.observer

theorem indexed_of_observers {indexers : List (Indexer T)}
    (h : t.observers = indexers.map Indexer.observer) : t.Indexed := by
  intro o ho
  rw [h] at ho
  obtain ⟨ix, _, rfl⟩ := List.mem_map.1 ho
  exact ⟨ix, rfl⟩

theorem Indexed.strict_observer (h : t.Indexed) (id : RowId) {o : Observer T}
    (ho : o ∈ t.observers) :
    (∀ new old, (o.saved id new old).Strict) ∧ ∀ old, (o.removed id old).Strict := by
  obtain ⟨ix, rfl⟩ := h o ho
  exact ⟨Op.strict_closed.saved (ix.strict_add id) (ix.strict_remove id),
    Op.strict_closed.removed (ix.strict_remove id)⟩

theorem Indexed.strict_write (h : t.Indexed) (id : RowId) (value : T) (old : Option T) :
    (t.write id value old).Strict :=
  Op.strict_closed.write (fun stored => (Op.strict_set id.bytes stored).inSpace t.space)
    fun _ ho => (h.strict_observer id ho).1 value old

theorem Indexed.strict_create (h : t.Indexed) (id : RowId) (value : T) :
    (t.create id value).Strict :=
  Op.strict_closed.create ((Op.strict_has id.bytes).inSpace t.space) (h.strict_write id value none)

theorem Indexed.strict_save (h : t.Indexed) (id : RowId) (value : T) : (t.save id value).Strict :=
  Op.strict_closed.save ((Op.strict_get id.bytes).inSpace t.space) fun old =>
    h.strict_write id value (some old)

theorem Indexed.strict_delete (h : t.Indexed) (id : RowId) : (t.delete id).Strict :=
  Op.strict_closed.delete ((Op.strict_get id.bytes).inSpace t.space)
    ((Op.strict_delete id.bytes).inSpace t.space) fun _ ho => (h.strict_observer id ho).2

theorem readAll_scan (t : Table T) (range : KeyRange) (reverse : Bool) :
    (t.scan range reverse >>= Cursor.readAll) = (do
      range.check
      let items ← Op.scan (range.behind [t.space]) reverse
      (liftM (items.mapM fun item => t.ofItem (item.behind [t.space])) : Op (List (Row T)))) := by
  simp only [scan, bind_assoc, pure_bind, Op.inSpace_scan]
  refine bind_congr fun _ => bind_congr fun items => ?_
  simp only [Cursor.readAll, List.mapM_map, Function.comp_def, id]
  exact Op.mapM_lift _ items

theorem strict_dump (t : Table T) : t.dump.Strict := by
  unfold dump
  rw [readAll_scan]
  exact (Op.strict_lift _).bind fun _ => Op.strict_scan (fun e => rfl) _ _

theorem Indexed.strict_restore (h : t.Indexed) (rows : List (Row T)) : (t.restore rows).Strict :=
  Op.strict_closed.restore t.strict_dump h.strict_delete fun row _ =>
    h.strict_create row.id row.value

end Table

namespace Sequence

theorem strict_store (q : Sequence) (n : UInt64) : (q.store n).Strict :=
  (Op.strict_set key (numericKey n)).inSpace q.space

theorem strict_next (q : Sequence) : q.next.Strict :=
  Op.strict_closed.next ((Op.strict_get key).inSpace q.space) q.strict_store

theorem strict_start (q : Sequence) (n : UInt64) : (q.start n).Strict :=
  Op.strict_closed.start ((Op.strict_has key).inSpace q.space) (q.strict_store n)

end Sequence

/-- Whatever fails, the first failure that the operation is shown ends it. -/
structure Op.FailStops (op : Op α) : Prop where
  begins : ∀ plan d, (op.onDisk plan d).2.writes <+: (op.onDisk .none d).2.writes
  completes : ∀ plan d a, (op.onDisk plan d).1 = .ok a → op.onDisk plan d = op.onDisk .none d
  /-- A failure that is shown is the answer, and nothing is written after it. -/
  stops : ∀ plan d e writes, op.run.Struck plan d e writes →
    (op.onDisk plan d).1 = .error e ∧ (op.onDisk plan d).2.writes = writes
  spared : ∀ plan d, (∀ e writes, ¬ op.run.Struck plan d e writes) →
    op.onDisk plan d = op.onDisk .none d

theorem Op.Strict.failStops {op : Op α} (h : op.Strict) : op.FailStops where
  begins plan d := by
    rcases Program.Strict.run_cases h plan d with ⟨same, _⟩ | ⟨e, _, _, begins⟩
    · simp [onDisk, same]
    · exact begins
  completes plan d a hok := by
    rcases Program.Strict.run_cases h plan d with ⟨same, _⟩ | ⟨e, herror, _⟩
    · exact same
    · cases hok.symm.trans herror
  stops plan d e writes hstruck := by
    rcases Program.Strict.run_cases h plan d with ⟨_, unstruck⟩ | ⟨e', herror, struck, _⟩
    · exact absurd hstruck (unstruck e writes)
    · obtain ⟨rfl, rfl⟩ := (struck e writes).1 hstruck
      exact ⟨herror, rfl⟩
  spared plan d unstruck := by
    rcases Program.Strict.run_cases h plan d with ⟨same, _⟩ | ⟨e, _, struck, _⟩
    · exact same
    · exact absurd ((struck e _).2 ⟨rfl, rfl⟩) (unstruck e _)

structure Table.FailStops (t : Table T) : Prop where
  create : ∀ id value, (t.create id value).FailStops
  save : ∀ id value, (t.save id value).FailStops
  delete : ∀ id, (t.delete id).FailStops
  restore : ∀ rows, (t.restore rows).FailStops

structure NumberedTable.FailStops (t : NumberedTable T) : Prop where
  create : ∀ value, (t.create value).FailStops
  save : ∀ n value, (t.save n value).FailStops
  delete : ∀ n, (t.delete n).FailStops
  restore : ∀ dump, (t.restore dump).FailStops
  restoreJson : ∀ text, (t.restoreJson text).FailStops

structure NaturalTable.FailStops (t : NaturalTable T) : Prop where
  create : ∀ value, (t.create value).FailStops
  save : ∀ value, (t.save value).FailStops
  saveAt : ∀ id value, (t.saveAt id value).FailStops
  delete : ∀ value, (t.delete value).FailStops
  restore : ∀ rows, (t.restore rows).FailStops
  restoreJson : ∀ text, (t.restoreJson text).FailStops

structure Sequence.FailStops (q : Sequence) : Prop where
  next : q.next.FailStops
  start : ∀ n, (q.start n).FailStops

namespace Table

variable {t : Table T}

theorem Indexed.failStops (h : t.Indexed) : t.FailStops where
  create id value := (h.strict_create id value).failStops
  save id value := (h.strict_save id value).failStops
  delete id := (h.strict_delete id).failStops
  restore rows := (h.strict_restore rows).failStops

theorem Indexed.numbered (h : t.Indexed) (q : Sequence) : NumberedTable.FailStops ⟨t, q⟩ := by
  have restore : ∀ dump, (NumberedTable.restore ⟨t, q⟩ dump).Strict :=
    Op.strict_closed.numberedRestore q.strict_start h.strict_restore
  constructor
  case create =>
    intro value
    exact (Op.strict_closed.numberedCreate q.strict_next (h.strict_create · value)).failStops
  case save => exact fun n value => (h.strict_save (.ofNumber n) value).failStops
  case delete => exact fun n => (h.strict_delete (.ofNumber n)).failStops
  case restore => exact fun dump => (restore dump).failStops
  case restoreJson => exact fun text => ((Op.strict_lift _).bind restore).failStops

theorem Indexed.natural (h : t.Indexed) (key : T → RowId) : NaturalTable.FailStops ⟨t, key⟩ := by
  have restore : ∀ rows, (NaturalTable.restore ⟨t, key⟩ rows).Strict := fun rows =>
    (Op.strict_lift _).bind fun _ => h.strict_restore rows
  constructor
  case create =>
    intro value
    exact ((h.strict_create (key value) value).bind fun _ => Op.strict_closed.pure _).failStops
  case save => exact fun value => (h.strict_save (key value) value).failStops
  case saveAt => exact fun id value => (Op.strict_closed.saveAt (h.strict_save id value)).failStops
  case delete => exact fun value => (h.strict_delete (key value)).failStops
  case restore => exact fun rows => (restore rows).failStops
  case restoreJson => exact fun text => ((Op.strict_lift _).bind restore).failStops

/-- On a store whose calls may fail in any way, every write to a table with indexes and to a
sequence ends at the first failure that it is shown, with this failure for its answer. -/
theorem writes_fail_stop (h : t.Indexed) (q : Sequence) (key : T → RowId) :
    t.FailStops ∧ NumberedTable.FailStops ⟨t, q⟩ ∧ NaturalTable.FailStops ⟨t, key⟩ ∧
      q.FailStops :=
  ⟨h.failStops, h.numbered q, h.natural key,
    q.strict_next.failStops, fun n => (q.strict_start n).failStops⟩

end Table

def jam : Error := .reported .storage "jammed"

def jamming (call : Nat) (key : Bytes) : FaultPlan where
  call n _ := if n = call then some jam else none
  entry _ met := if met = key then some jam else none

theorem words_jammed :
    let create := words.create ⟨[1]⟩ [0x61]
    let d := (create.onDisk .none (.ofStore .empty)).2
    words.Indexed ∧
      (create.onDisk (jamming 3 []) (.ofStore .empty)).1 = .error jam ∧
      (create.onDisk (jamming 3 []) (.ofStore .empty)).2.writes = [.set [0x01, 1] [0x61]] ∧
      ((words.restore []).onDisk (jamming 99 [0x01, 1]) d).1 = .error jam ∧
      ((words.restore []).onDisk (jamming 99 [0x01, 1]) d).2.writes = d.writes := by
  have indexed : words.Indexed := by
    intro o ho
    obtain ⟨ix, _, rfl⟩ := List.mem_map.1 ho
    exact ⟨ix, rfl⟩
  obtain ⟨fails, _⟩ := Table.writes_fail_stop indexed ⟨0x04⟩ fun word => ⟨word⟩
  obtain ⟨hcreate, hwrites⟩ := (fails.create ⟨[1]⟩ [0x61]).stops (jamming 3 []) (.ofStore .empty)
    jam [.set [0x01, 1] [0x61]] (.later (.later (.later (.here rfl))))
  refine ⟨indexed, hcreate, hwrites, ?_⟩
  refine (fails.restore []).stops (jamming 99 [0x01, 1]) _ jam _ (.here ⟨[], [], rfl, ?_⟩)
  -- Without the item there is nothing to remove, and the restore succeeds.
  intro decided
  have same : (.done (.ok ()) : Program (Except Error Unit)) = .done (.error jam) :=
    decided [] [.error jam]
  cases same

end IndexedTables
