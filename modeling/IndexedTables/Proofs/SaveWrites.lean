import Mathlib.Data.List.Forall2
import Mathlib.Data.List.Nodup
import IndexedTables.Proofs.FailStop
set_option autoImplicit false

namespace IndexedTables

def Write.behind (lead : Bytes) : Write → Write
  | .set key value => .set (lead ++ key) value
  | .delete key => .delete (lead ++ key)

def Write.key : Write → Bytes
  | .set key _ => key
  | .delete key => key

theorem Space.eq_of_begins {space other : Space} {key : Bytes} (h : [space] <+: key)
    (h' : [other] <+: key) : space = other := by
  obtain ⟨rest, rfl⟩ := h
  have same : other = space := by simpa using h'
  exact same.symm

/-- The writes that a program makes on a store where nothing fails, first to last. -/
def Program.written {α : Type} : Program α → Store → List Write
  | .done _, _ => []
  | .tell _ next, s => next.written s
  | .call c next, s => c.write?.toList ++ (next (s.answer c).1).written (s.answer c).2

namespace Program

variable {α β : Type}

theorem writes_run (p : Program α) (d : Disk) :
    (p.run (Disk.handler .none) d).2.writes = d.writes ++ p.written d.store := by
  induction p generalizing d with
  | done a => simp [run, written]
  | tell line next ih => exact ih _
  | call c next ih =>
    obtain ⟨hreply, hwrites⟩ := Disk.answer_none c d
    change ((next (Disk.answer .none c d).1).run (Disk.handler .none)
      (Disk.answer .none c d).2).2.writes = _
    rw [ih, hwrites, hreply, written, List.append_assoc]
    rfl

theorem written_bind (p : Program α) (f : α → Program β) (s : Store) :
    (p.bind f).written s = p.written s ++
      (f (p.run Store.handler s).1).written (p.run Store.handler s).2 := by
  induction p generalizing s with
  | done a => rfl
  | tell line next ih => exact ih s
  | call c next ih =>
    change c.write?.toList ++ ((next (s.answer c).1).bind f).written _ = _
    rw [ih, written, List.append_assoc]
    rfl

theorem written_within (lead : Bytes) (p : Program α) (s : Store) :
    (p.within lead).written s = (p.written (s.under lead)).map (Write.behind lead) := by
  induction p generalizing s with
  | done a => rfl
  | tell line next ih => exact ih s
  | call c next ih =>
    cases c with
    | get key =>
      have h := ih (.ok (s.find? (lead ++ key))) s
      simpa [within, written, Store.answer, Call.write?] using h
    | has key =>
      have h := ih (.ok (s.contains (lead ++ key))) s
      simpa [within, written, Store.answer, Call.write?] using h
    | set key value =>
      have h := ih (.ok ()) (s.insert (lead ++ key) value)
      rw [Store.under_insert] at h
      simpa [within, written, Store.answer, Call.write?, Write.behind] using h
    | delete key =>
      have h := ih (.ok ()) (s.erase (lead ++ key))
      rw [Store.under_erase] at h
      simpa [within, written, Store.answer, Call.write?, Write.behind] using h
    | scan range reverse =>
      have h := ih ((s.under lead).answer (.scan range reverse)).1 s
      rw [← Store.answer_scan_behind] at h
      simp only [within, written, Store.answer_scan_keeps, Call.write?, Option.toList_none,
        List.nil_append]
      rw [← Store.answer_scan_behind]
      exact h

end Program

namespace Op

variable {α β : Type}

def written (op : Op α) (s : Store) : List Write := Program.written op.run s

theorem written_bind (op : Op α) (f : α → Op β) (s : Store) :
    (op >>= f).written s = op.written s ++ match op.on s with
      | (.ok a, s') => (f a).written s'
      | (.error _, _) => [] := by
  unfold written on
  rw [ExceptT.run_bind]
  change Program.written (Program.bind _ _) s = _
  rw [Program.written_bind]
  rcases op.run.run Store.handler s with ⟨e | a, s'⟩ <;> rfl

theorem written_bind_of_ok {op : Op α} {s s' : Store} {a : α} (h : op.on s = (.ok a, s'))
    (f : α → Op β) : (op >>= f).written s = op.written s ++ (f a).written s' := by
  rw [written_bind, h]

theorem written_inSpace (space : Space) (op : Op α) (s : Store) :
    (op.inSpace space).written s = (op.written (s.part space)).map (Write.behind [space]) :=
  Program.written_within [space] op.run s

@[simp] theorem written_lift (x : Except Error α) (s : Store) :
    (liftM x : Op α).written s = [] := by cases x <;> rfl

@[simp] theorem written_get (key : Bytes) (s : Store) : (get key).written s = [] := rfl

@[simp] theorem written_has (key : Bytes) (s : Store) : (has key).written s = [] := rfl

@[simp] theorem written_set (key value : Bytes) (s : Store) :
    (set key value).written s = [.set key value] := rfl

@[simp] theorem written_delete (key : Bytes) (s : Store) :
    (delete key).written s = [.delete key] := rfl

theorem written_forM {f : α → Op Unit} {w : α → Write} {P : List α → Store → Prop}
    (turn : ∀ a rest s s', P (a :: rest) s → (f a).on s = (.ok (), s') →
      (f a).written s = [w a] ∧ P rest s')
    {as : List α} {s s' : Store} (hP : P as s) (h : (as.forM f).on s = (.ok (), s')) :
    (as.forM f).written s = as.map w := by
  induction as generalizing s with
  | nil => rfl
  | cons a rest ih =>
    rw [on_forM_cons] at h
    obtain ⟨_, s₁, h₁, h₂⟩ := ok_of_bind h
    obtain ⟨hwritten, hrest⟩ := turn a rest s s₁ hP h₁
    change (f a >>= fun _ => rest.forM f).written s = _
    rw [written_bind_of_ok h₁, hwritten, ih hrest h₂, List.map_cons]
    rfl

end Op

theorem KeySet.ascending_without (a b : KeySet) : (a.without b).Pairwise (· < ·) :=
  List.Pairwise.filter _ (List.pairwise_map.2 a.ascending)

namespace Indexer

variable {T : Type} {ix : Indexer T} {E : Set IndexEntry} {s s' : Store} {id : RowId}

def entering (ix : Indexer T) (id : RowId) (key : Bytes) : Write :=
  .set (ix.space :: (ix.policy.slot ⟨key, id⟩).1) (ix.policy.slot ⟨key, id⟩).2

def leaving (ix : Indexer T) (id : RowId) (key : Bytes) : Write :=
  .delete (ix.space :: (ix.policy.slot ⟨key, id⟩).1)

theorem written_add (h : ix.policy.Keeps E (s.part ix.space)) (hid : id.Valid) {key : Bytes}
    (hnew : ⟨key, id⟩ ∉ E) (free : ¬ ix.Taken E key) :
    (ix.add id key).written s = [ix.entering id key] := by
  obtain ⟨space, policy, keys⟩ := ix
  let e : IndexEntry := ⟨key, id⟩
  rw [add, Op.written_inSpace]
  cases policy with
  | multiKey =>
    have hencode : e.encode = .ok (e.key ++ e.tail) := IndexEntry.encode_of_valid hid
    have habsent := mt (h.contains_multiKey (e := e) hid).1 hnew
    simp [Op.written_bind, hencode, habsent, e, Write.behind, entering, Policy.slot]
  | unique =>
    have habsent : ¬ (s.part space).contains key := by
      rw [SortedMap.contains, Option.isSome_iff_exists]
      rintro ⟨owner, howner⟩
      exact free ⟨rfl, _, (h.find?_unique key owner).1 howner, rfl⟩
    simp [Op.written_bind, habsent, Write.behind, entering, Policy.slot]

theorem written_remove (h : ix.policy.Keeps E (s.part ix.space)) (hid : id.Valid) {key : Bytes}
    (hmem : ⟨key, id⟩ ∈ E) : (ix.remove id key).written s = [ix.leaving id key] := by
  obtain ⟨space, policy, keys⟩ := ix
  let e : IndexEntry := ⟨key, id⟩
  rw [remove, Op.written_inSpace]
  cases policy with
  | multiKey =>
    have hencode : e.encode = .ok (e.key ++ e.tail) := IndexEntry.encode_of_valid hid
    simp [Op.written_bind, hencode, e, Write.behind, leaving, Policy.slot]
  | unique =>
    have howner : (s.part space).find? key = some id.bytes := (h.find?_unique key _).2 hmem
    simp [Op.written_bind, howner, Write.behind, leaving, Policy.slot]

theorem written_forM_remove (h : ix.policy.Keeps E (s.part ix.space)) (hid : id.Valid)
    {keys : List Bytes} (nodup : keys.Nodup) (present : ∀ key ∈ keys, ⟨key, id⟩ ∈ E)
    (hrun : (keys.forM (ix.remove id)).on s = (.ok (), s')) :
    (keys.forM (ix.remove id)).written s = keys.map (ix.leaving id) := by
  refine Op.written_forM (P := fun keys s => ∃ E, ix.policy.Keeps E (s.part ix.space) ∧
    keys.Nodup ∧ ∀ key ∈ keys, ⟨key, id⟩ ∈ E) ?_ ⟨E, h, nodup, present⟩ hrun
  rintro key rest s s₁ ⟨E, h, nodup, present⟩ hturn
  obtain ⟨hnew, nodup⟩ := List.nodup_cons.1 nodup
  obtain ⟨hkey, hrest⟩ := List.forall_mem_cons.1 present
  obtain ⟨s₂, h₂, turns⟩ := on_remove h hid key
  cases hturn.symm.trans h₂
  refine ⟨written_remove h hid hkey, _, turns.kept, nodup, fun k hk => ⟨hrest k hk, ?_⟩⟩
  intro same
  cases same
  exact hnew hk

theorem written_forM_add (h : ix.policy.Keeps E (s.part ix.space)) (hid : id.Valid)
    {keys : List Bytes} (nodup : keys.Nodup) (absent : ∀ key ∈ keys, ⟨key, id⟩ ∉ E)
    (hrun : (keys.forM (ix.add id)).on s = (.ok (), s')) :
    (keys.forM (ix.add id)).written s = keys.map (ix.entering id) := by
  refine Op.written_forM (P := fun keys s => ∃ E, ix.policy.Keeps E (s.part ix.space) ∧
    keys.Nodup ∧ ∀ key ∈ keys, ⟨key, id⟩ ∉ E) ?_ ⟨E, h, nodup, absent⟩ hrun
  rintro key rest s s₁ ⟨E, h, nodup, absent⟩ hturn
  obtain ⟨hnew, nodup⟩ := List.nodup_cons.1 nodup
  obtain ⟨hkey, hrest⟩ := List.forall_mem_cons.1 absent
  have free : ¬ ix.Taken E key := by
    intro taken
    rw [on_add_of_taken h taken] at hturn
    cases hturn
  obtain ⟨s₂, h₂, turns⟩ := on_add h hid free
  cases hturn.symm.trans h₂
  refine ⟨written_add h hid hkey free, _, turns.kept, nodup, fun k hk found => ?_⟩
  rcases found with same | hmem
  · cases same
    exact hnew hk
  · exact hrest k hk hmem

/-- From one value to another a row loses these keys and gains those, each once and in order. -/
structure KeyDiff (ix : Indexer T) (old new : T) (lost gained : List Bytes) : Prop where
  oldKeys : ∃ keys, ix.keys old = .ok keys
  newKeys : ∃ keys, ix.keys new = .ok keys
  mem_lost : ∀ key, key ∈ lost ↔ ix.Derives old key ∧ ¬ ix.Derives new key
  mem_gained : ∀ key, key ∈ gained ↔ ix.Derives new key ∧ ¬ ix.Derives old key
  lost_ascending : lost.Pairwise (· < ·)
  gained_ascending : gained.Pairwise (· < ·)

/-- One write takes the row from each key that it loses, in the order of the keys, and then one
enters it under each key that it gains. -/
def WritesDiff (ix : Indexer T) (id : RowId) (old new : T) (ws : List Write) : Prop :=
  ∃ lost gained, ix.KeyDiff old new lost gained ∧
    ws = lost.map (ix.leaving id) ++ gained.map (ix.entering id)

variable {live : LiveRows T} {old new : T}

theorem keyDiff_without {prior next : KeySet} (oldKeys : ∃ keys, ix.keys old = .ok keys)
    (newKeys : ∃ keys, ix.keys new = .ok keys)
    (memPrior : ∀ key, key ∈ prior.keys ↔ ix.Derives old key)
    (memNext : ∀ key, key ∈ next.keys ↔ ix.Derives new key) :
    ix.KeyDiff old new (prior.without next) (next.without prior) where
  oldKeys := oldKeys
  newKeys := newKeys
  mem_lost key := by rw [KeySet.mem_without, memPrior, memNext]
  mem_gained key := by rw [KeySet.mem_without, memPrior, memNext]
  lost_ascending := prior.ascending_without next
  gained_ascending := next.ascending_without prior

theorem written_update (h : ix.policy.Keeps (ix.entriesOf live) (s.part ix.space))
    (hid : id.Valid) (present : live.find? id.bytes = some old) {oldKeys : List Bytes}
    (hold : ix.keys old = .ok oldKeys) (hrun : (ix.update id new old).on s = (.ok (), s')) :
    ix.WritesDiff id old new ((ix.update id new old).written s) := by
  cases hkeys : ix.keys new with
  | error e =>
    rw [update, keySet_of_error hkeys] at hrun
    cases hrun
  | ok newKeys =>
    obtain ⟨next, hnext, memNext⟩ := keySet_of_ok hkeys
    obtain ⟨prior, hprior, memPrior⟩ := keySet_of_ok hold
    obtain ⟨s₁, h₁, turns⟩ := on_forM_remove h hid (prior.without next)
    simp only [update, Op.on_bind, Op.on_lift, hnext, hprior, h₁] at hrun
    have diff := keyDiff_without ⟨oldKeys, hold⟩ ⟨newKeys, hkeys⟩ memPrior memNext
    have hlost : ∀ key ∈ prior.without next, ⟨key, id⟩ ∈ ix.entriesOf live := fun key hkey =>
      (mem_entriesOf_iff present rfl).2 ((diff.mem_lost key).1 hkey).1
    have hgained : ∀ key ∈ next.without prior,
        ⟨key, id⟩ ∉ ix.entriesOf live \ entriesAt id (prior.without next) := fun key hkey found =>
      ((diff.mem_gained key).1 hkey).2 ((mem_entriesOf_iff present rfl).1 found.1)
    have hremoved := written_forM_remove h hid (prior.without_nodup next) hlost h₁
    have hadded := written_forM_add turns.kept hid (next.without_nodup prior) hgained hrun
    refine ⟨_, _, diff, ?_⟩
    simp only [update, Op.written_bind, Op.on_lift, hnext, hprior, Op.written_lift, h₁, hremoved,
      hadded, List.nil_append]

theorem written_forM_saved {indexers : List (Indexer T)}
    (spaces : (indexers.map (·.space)).Nodup) (h : InStep indexers live s) (hid : id.Valid)
    (present : live.find? id.bytes = some old)
    (derives : ∀ ix ∈ indexers, ∃ keys, ix.keys old = .ok keys)
    (hrun : ((indexers.map observer).forM fun o => o.saved id new (some old)).on s = (.ok (), s')) :
    ∃ ws, List.Forall₂ (fun ix => ix.WritesDiff id old new) indexers ws ∧
      ((indexers.map observer).forM fun o => o.saved id new (some old)).written s =
        ws.flatten := by
  induction indexers generalizing s with
  | nil => exact ⟨[], .nil, rfl⟩
  | cons ix rest ih =>
    obtain ⟨hnew, spaces⟩ := List.nodup_cons.1 spaces
    obtain ⟨⟨keys, hkeys⟩, derives⟩ := List.forall_mem_cons.1 derives
    have hix := h ix List.mem_cons_self
    rw [List.map_cons, Op.on_forM_cons] at hrun
    obtain ⟨_, s₁, h₁, h₂⟩ := Op.ok_of_bind hrun
    have hupdate : (ix.update id new old).on s = (.ok (), s₁) := h₁
    rcases @update_cases _ ix live s id new old hix hid present keys hkeys with
      ⟨e, s₂, herror, _⟩ | ⟨s₂, hok, _, turns⟩
    · cases hupdate.symm.trans herror
    · cases hupdate.symm.trans hok
      obtain ⟨ws, hws, hwritten⟩ := ih spaces (h.tail hnew turns.frame) derives h₂
      refine ⟨_ :: ws, .cons (written_update hix hid present hkeys hupdate) hws, ?_⟩
      change (ix.update id new old >>= fun _ => _).written s = _
      rw [Op.written_bind_of_ok hupdate, List.flatten_cons, ← hwritten]

theorem WritesDiff.begins {ws : List Write} (h : ix.WritesDiff id old new ws) :
    ∀ w ∈ ws, [ix.space] <+: w.key := by
  obtain ⟨lost, gained, _, rfl⟩ := h
  intro w hw
  rcases List.mem_append.1 hw with hleft | hentered
  · obtain ⟨key, _, rfl⟩ := List.mem_map.1 hleft
    exact ⟨_, rfl⟩
  · obtain ⟨key, _, rfl⟩ := List.mem_map.1 hentered
    exact ⟨_, rfl⟩

theorem WritesDiff.eq_nil {ws : List Write} (h : ix.WritesDiff id old new ws)
    (same : ∀ key, ix.Derives old key ↔ ix.Derives new key) : ws = [] := by
  obtain ⟨lost, gained, diff, rfl⟩ := h
  have hlost : lost = [] := List.eq_nil_iff_forall_not_mem.2 fun key hmem =>
    ((diff.mem_lost key).1 hmem).2 ((same key).1 ((diff.mem_lost key).1 hmem).1)
  have hgained : gained = [] := List.eq_nil_iff_forall_not_mem.2 fun key hmem =>
    ((diff.mem_gained key).1 hmem).2 ((same key).2 ((diff.mem_gained key).1 hmem).1)
  rw [hlost, hgained]
  rfl

theorem exists_diff_of_mem {indexers : List (Indexer T)} {ws : List (List Write)}
    (h : List.Forall₂ (fun ix => ix.WritesDiff id old new) indexers ws) {w : Write}
    (hw : w ∈ ws.flatten) : ∃ ix ∈ indexers, ∃ diff, ix.WritesDiff id old new diff ∧ w ∈ diff := by
  induction h with
  | nil => simp at hw
  | cons hfirst hrest ih =>
    rw [List.flatten_cons] at hw
    rcases List.mem_append.1 hw with hdiff | hlater
    · exact ⟨_, List.mem_cons_self, _, hfirst, hdiff⟩
    · obtain ⟨ix, hix, found⟩ := ih hlater
      exact ⟨ix, List.mem_cons_of_mem _ hix, found⟩

theorem spared_of_same_keys {indexers : List (Indexer T)} {ws : List (List Write)}
    (spaces : (indexers.map (·.space)).Nodup)
    (h : List.Forall₂ (fun ix => ix.WritesDiff id old new) indexers ws) (hix : ix ∈ indexers)
    (same : ∀ key, ix.Derives old key ↔ ix.Derives new key) {w : Write} (hw : w ∈ ws.flatten) :
    ¬ [ix.space] <+: w.key := by
  intro begins
  obtain ⟨other, hother, diff, hdiff, hmem⟩ := exists_diff_of_mem h hw
  -- A write tells by its first byte which index made it.
  have hspace : other.space = ix.space := Space.eq_of_begins (hdiff.begins w hmem) begins
  cases List.inj_on_of_nodup_map spaces hother hix hspace
  rw [hdiff.eq_nil same] at hmem
  cases hmem

end Indexer

namespace Table

variable {T : Type} {t : Table T} {indexers : List (Indexer T)} {live : LiveRows T} {s s' : Store}
  {id : RowId} {old new : T}

theorem written_get (t : Table T) (id : RowId) (s : Store) : (t.get id).written s = [] := by
  have hread : ((Op.get id.bytes).inSpace t.space).on s =
      (.ok (s.find? (t.space :: id.bytes)), s) := Op.on_inSpace_of_reads (by simp)
  rw [get, Rows.get, Op.written_bind_of_ok hread, Op.written_inSpace, Op.written_get]
  cases s.find? (t.space :: id.bytes) with
  | some stored => exact Op.written_lift (t.codec.unmarshal stored) s
  | none => rfl

/-- The writes that put a new value of a row in the place of the old one: the row itself, and then
what each index makes of the change, index by index. -/
structure WritesDiff (t : Table T) (indexers : List (Indexer T)) (id : RowId) (old new : T)
    (writes : List Write) : Prop where
  listed : ∃ stored diffs, t.codec.marshal new = .ok stored ∧
    List.Forall₂ (fun ix => ix.WritesDiff id old new) indexers diffs ∧
    writes = .set (t.space :: id.bytes) stored :: diffs.flatten
  spared : ∀ ix ∈ indexers, (∀ key, ix.Derives old key ↔ ix.Derives new key) →
    ∀ w ∈ writes, ¬ [ix.space] <+: w.key

theorem written_write (ht : t.IndexedBy indexers) (h : t.Consistent indexers live s)
    (present : live.find? id.bytes = some old)
    (hrun : (t.write id new (some old)).on s = (.ok (), s')) :
    t.WritesDiff indexers id old new ((t.write id new (some old)).written s) := by
  obtain ⟨hspace, hspaces⟩ := List.nodup_cons.1 ht.spaces
  cases hmarshal : t.codec.marshal new with
  | error e =>
    rw [write, hmarshal] at hrun
    cases hrun
  | ok stored =>
    obtain ⟨s₁, h₁, hframe⟩ :
        ∃ s₁, ((Op.set id.bytes stored).inSpace t.space).on s = (.ok (), s₁) ∧
          Store.SameBut [t.space] s s₁ :=
      Op.exists_on_inSpace (Op.on_set ..) fun s₁ _ hframe => hframe
    simp only [write, Op.on_bind, Op.on_lift, hmarshal, h₁, ht.observers] at hrun
    obtain ⟨diffs, hdiffs, hwritten⟩ := Indexer.written_forM_saved hspaces
      (h.entries.of_space hspace hframe) (h.valid id.bytes old present) present
      (fun ix hix => h.derives ix hix _ old present) hrun
    have hwrites : (t.write id new (some old)).written s =
        .set (t.space :: id.bytes) stored :: diffs.flatten := by
      simp only [write, Op.written_bind, Op.on_lift, Op.written_lift, hmarshal, h₁, ht.observers,
        hwritten, Op.written_inSpace, Op.written_set]
      rfl
    refine ⟨⟨stored, diffs, hmarshal, hdiffs, hwrites⟩, fun ix hix same w hw => ?_⟩
    rw [hwrites] at hw
    rcases List.mem_cons.1 hw with rfl | hdiff
    · simpa [Write.key] using ht.space_ne hix
    · exact Indexer.spared_of_same_keys hspaces hdiffs hix same hdiff

theorem written_save (ht : t.IndexedBy indexers) (h : t.Consistent indexers live s)
    (hrun : (t.save id new).on s = (.ok (), s')) :
    ∃ old, live.find? id.bytes = some old ∧
      t.WritesDiff indexers id old new ((t.save id new).written s) := by
  cases hlive : live.find? id.bytes with
  | none =>
    rw [save, Op.on_bind_of_error (on_get_of_absent h hlive)] at hrun
    cases hrun
  | some old =>
    have hget := on_get_of_live h hlive
    rw [save, Op.on_bind_of_ok hget] at hrun
    refine ⟨old, rfl, ?_⟩
    rw [save, Op.written_bind_of_ok hget, written_get, List.nil_append]
    exact written_write ht h hlive hrun

/-- Whatever could have failed, a save that succeeds on a table in step with its indexes has written
the row and the keys that it lost and gained, in this order, and nothing else. -/
theorem save_writes_diff (ht : t.IndexedBy indexers) {d : Disk}
    (h : t.Consistent indexers live d.store) {plan : FaultPlan} {id : RowId} {new : T}
    (hsave : ((t.save id new).onDisk plan d).1 = .ok ()) :
    ∃ old writes, live.find? id.bytes = some old ∧ t.WritesDiff indexers id old new writes ∧
      ((t.save id new).onDisk plan d).2.writes = d.writes ++ writes := by
  have indexed := indexed_of_observers ht.observers
  have unhurt := (indexed.failStops.save id new).completes plan d () hsave
  rw [unhurt] at hsave ⊢
  have hrun : (t.save id new).on d.store = (.ok (), ((t.save id new).on d.store).2) :=
    Prod.ext ((Disk.run_none (t.save id new).run d).1.symm.trans hsave) rfl
  obtain ⟨old, hlive, hwrites⟩ := written_save ht h hrun
  exact ⟨old, _, hlive, hwrites, Program.writes_run (t.save id new).run d⟩

end Table

def duoStored : Store :=
  ((words.create ⟨[1]⟩ [0x61, 0x62]).on ((words.create ⟨[2]⟩ [0x62]).on .empty).2).2

def duoRows : LiveRows Bytes :=
  SortedMap.insert (SortedMap.insert .empty [2] [0x62]) [1] [0x61, 0x62]

theorem duo_consistent : words.Consistent wordIndexers duoRows duoStored := by
  have first : words.Consistent wordIndexers (SortedMap.insert .empty [2] [0x62])
      ((words.create ⟨[2]⟩ [0x62]).on .empty).2 :=
    (Table.consistent_empty words _).of_create words_indexedBy wordCodec_roundTrips rfl
  exact first.of_create words_indexedBy wordCodec_roundTrips rfl

/-- From `ab` to `acc`, the word loses one letter and gains another, and keeps its initial. -/
theorem duo_saved :
    let d := Disk.ofStore duoStored
    let save := words.save ⟨[1]⟩ [0x61, 0x63, 0x63]
    words.IndexedBy wordIndexers ∧ words.Consistent wordIndexers duoRows d.store ∧
      (save.onDisk .none d).1 = .ok () ∧
      (∃ old writes, duoRows.find? [1] = some old ∧
        words.WritesDiff wordIndexers ⟨[1]⟩ old [0x61, 0x63, 0x63] writes ∧
        (save.onDisk .none d).2.writes = d.writes ++ writes) ∧
      (save.onDisk .none d).2.writes = [.set [0x01, 1] [0x61, 0x63, 0x63],
        .delete [0x02, 0x62, 1, 1], .set [0x02, 0x63, 1, 1] []] := by
  intro d save
  have consistent : words.Consistent wordIndexers duoRows d.store := duo_consistent
  exact ⟨words_indexedBy, consistent, rfl,
    Table.save_writes_diff words_indexedBy consistent rfl, rfl⟩

end IndexedTables
