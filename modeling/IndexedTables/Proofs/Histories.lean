import IndexedTables.Proofs.Confinement
import IndexedTables.Proofs.TableScans
import IndexedTables.Proofs.Transactions
set_option autoImplicit false

namespace IndexedTables

inductive Edit (T : Type) where
  | create (id : RowId) (value : T)
  | save (id : RowId) (value : T)
  | delete (id : RowId)
  | restore (rows : List (Row T))

inductive NumberedEdit (T : Type) where
  | create (value : T)
  | save (n : UInt64) (value : T)
  | delete (n : UInt64)
  | restore (dump : NumberedDump T)

inductive NaturalEdit (T : Type) where
  | create (value : T)
  | save (value : T)
  | saveAt (id : RowId) (value : T)
  | delete (value : T)
  | restore (rows : List (Row T))

variable {T : Type}

/-- What is live after an edit that succeeds. -/
def Edit.effect : Edit T → LiveRows T → LiveRows T
  | .create id value, live => live.insert id.bytes value
  | .save id value, live => live.insert id.bytes value
  | .delete id, live => live.erase id.bytes
  | .restore rows, _ => rows.foldl (fun live row => live.insert row.id.bytes row.value) .empty

def Table.edit (t : Table T) (e : Edit T) : Op (Edit T) := do
  match e with
  | .create id value => t.create id value
  | .save id value => t.save id value
  | .delete id => t.delete id
  | .restore rows => t.restore rows
  return e

/-- Makes an edit and answers what it was to the table below. -/
def NumberedTable.edit (t : NumberedTable T) : NumberedEdit T → Op (Edit T)
  | .create value => do return .create (.ofNumber (← t.create value)) value
  | .save n value => do t.save n value; return .save (.ofNumber n) value
  | .delete n => do t.delete n; return .delete (.ofNumber n)
  | .restore dump => do t.restore dump; return .restore dump.rows

def NaturalTable.edit (t : NaturalTable T) : NaturalEdit T → Op (Edit T)
  | .create value => do return .create (← t.create value) value
  | .save value => do t.save value; return .save (t.key value) value
  | .saveAt id value => do t.saveAt id value; return .save id value
  | .delete value => do t.delete value; return .delete (t.key value)
  | .restore rows => do t.restore rows; return .restore rows

/-- One operation in a transaction of its own, and what is live after it. -/
def Session.record (state : Session × LiveRows T) (op : Op (Edit T)) : Session × LiveRows T :=
  match state.1.transact op with
  | (.ok done, s) => (s, done.effect state.2)
  | (.error _, s) => (s, state.2)

def Session.replay (ops : List (Op (Edit T))) : Session × LiveRows T :=
  ops.foldl record (.fresh, .empty)

/-- The spaces of the table and its indexes hold the live rows and the index entries that they
derive, and nothing else. -/
structure Table.Mirrors (t : Table T) (indexers : List (Indexer T)) (live : LiveRows T)
    (s : Store) : Prop where
  written : ∀ id value, live.find? id = some value → ∃ stored, t.codec.marshal value = .ok stored
  rows : ∀ id stored, s.find? (t.space :: id) = some stored ↔
    ∃ value, live.find? id = some value ∧ t.codec.marshal value = .ok stored
  multiKey : ∀ ix ∈ indexers, ix.policy = .multiKey → ∀ key content,
    s.find? (ix.space :: key) = some content ↔
      content = [] ∧ ∃ id value k, live.find? id = some value ∧ ix.Derives value k ∧
        key = k ++ id ++ [UInt8.ofNat id.length]
  unique : ∀ ix ∈ indexers, ix.policy = .unique → ∀ k id,
    s.find? (ix.space :: k) = some id ↔
      ∃ value, live.find? id = some value ∧ ix.Derives value k
  sole : ∀ ix ∈ indexers, ix.policy = .unique → ∀ k id value id' value',
    live.find? id = some value → ix.Derives value k → live.find? id' = some value' →
      ix.Derives value' k → id = id'
  lengths : ∀ id value, live.find? id = some value → 1 ≤ id.length ∧ id.length ≤ 255

namespace Table

/-- In step with its indexes, and every live row is stored as the codec writes it. -/
structure Settled (t : Table T) (indexers : List (Indexer T)) (live : LiveRows T)
    (s : Store) : Prop where
  consistent : t.Consistent indexers live s
  written : ∀ id value, live.find? id = some value →
    ∃ stored, t.codec.marshal value = .ok stored ∧ s.find? (t.space :: id) = some stored

variable {t : Table T} {indexers : List (Indexer T)} {live : LiveRows T} {s s' : Store}

theorem Settled.mirrors (h : t.Settled indexers live s) : t.Mirrors indexers live s where
  written id value hlive := by
    obtain ⟨stored, hmarshal, _⟩ := h.written id value hlive
    exact ⟨stored, hmarshal⟩
  rows id stored := by
    constructor
    · intro hfind
      cases hlive : live.find? id with
      | none =>
        rw [h.consistent.find?_row_of_absent hlive] at hfind
        cases hfind
      | some value =>
        obtain ⟨stored', hmarshal, hfind'⟩ := h.written id value hlive
        rw [hfind] at hfind'
        cases hfind'
        exact ⟨value, rfl, hmarshal⟩
    · intro found
      obtain ⟨value, hlive, hmarshal⟩ := found
      obtain ⟨stored', hmarshal', hfind⟩ := h.written id value hlive
      rw [hmarshal] at hmarshal'
      cases hmarshal'
      exact hfind
  multiKey ix hix hpolicy key content := by
    have hkeeps := h.consistent.entries ix hix
    rw [hpolicy] at hkeeps
    rw [← Store.find?_part, hkeeps.stored]
    constructor
    · intro found
      obtain ⟨e, ⟨value, hlive, hderives⟩, hslot⟩ := found
      cases hslot
      exact ⟨rfl, e.id.bytes, value, e.key, hlive, hderives, (List.append_assoc ..).symm⟩
    · intro found
      obtain ⟨rfl, id, value, k, hlive, hderives, rfl⟩ := found
      exact ⟨⟨k, ⟨id⟩⟩, ⟨value, hlive, hderives⟩, by simp [Policy.slot, IndexEntry.tail]⟩
  unique ix hix hpolicy k id := by
    have hkeeps := h.consistent.entries ix hix
    rw [hpolicy] at hkeeps
    rw [← Store.find?_part, hkeeps.find?_unique]
    rfl
  sole ix hix hpolicy k id value id' value' hlive hderives hlive' hderives' := by
    have hkeeps := h.consistent.entries ix hix
    rw [hpolicy] at hkeeps
    have same := hkeeps.owner_eq (e := ⟨k, ⟨id⟩⟩) (f := ⟨k, ⟨id'⟩⟩)
      ⟨value, hlive, hderives⟩ ⟨value', hlive', hderives'⟩ rfl
    cases same
    rfl
  lengths id value hlive := (valid_iff ⟨id⟩).1 (h.consistent.valid id value hlive)

theorem Mirrors.part_eq (h : t.Mirrors indexers live s) (h' : t.Mirrors indexers live s') :
    ∀ space ∈ t.space :: indexers.map (·.space), s.part space = s'.part space := by
  intro space hspace
  refine SortedMap.ext_find? fun key => ?_
  ext content
  rw [Store.find?_part, Store.find?_part]
  rcases List.mem_cons.1 hspace with rfl | hindex
  · rw [h.rows, h'.rows]
  · obtain ⟨ix, hix, rfl⟩ := List.mem_map.1 hindex
    cases hpolicy : ix.policy with
    | multiKey => rw [h.multiKey ix hix hpolicy, h'.multiKey ix hix hpolicy]
    | unique => rw [h.unique ix hix hpolicy, h'.unique ix hix hpolicy]

theorem Settled.insert (h : t.Settled indexers live s) {id : RowId} (hid : id.Valid) {value : T}
    {stored : Bytes} (hmarshal : t.codec.marshal value = .ok stored)
    (reads : t.codec.unmarshal stored = .ok value)
    (taken : ∀ e, ¬ t.Refuses indexers live id value e)
    (turns : t.Turns indexers ((s.part t.space).insert id.bytes stored)
      (live.insert id.bytes value) s s') :
    t.Settled indexers (live.insert id.bytes value) s' where
  consistent := h.consistent.insert hid reads taken turns
  written other row hrow := by
    rw [← Store.find?_part, turns.rows]
    by_cases hother : other = id.bytes
    · subst hother
      rw [SortedMap.find?_insert_self] at hrow
      cases hrow
      exact ⟨stored, hmarshal, SortedMap.find?_insert_self ..⟩
    · rw [SortedMap.find?_insert_of_ne _ _ hother] at hrow ⊢
      rw [Store.find?_part]
      exact h.written other row hrow

theorem Settled.erase (h : t.Settled indexers live s) {id : RowId}
    (turns : t.Turns indexers ((s.part t.space).erase id.bytes) (live.erase id.bytes) s s') :
    t.Settled indexers (live.erase id.bytes) s' where
  consistent := h.consistent.erase turns
  written other row hrow := by
    rw [← Store.find?_part, turns.rows]
    by_cases hother : other = id.bytes
    · subst hother
      rw [SortedMap.find?_erase_self] at hrow
      cases hrow
    · rw [SortedMap.find?_erase_of_ne _ hother] at hrow ⊢
      rw [Store.find?_part]
      exact h.written other row hrow

theorem Settled.of_create (ht : t.IndexedBy indexers) (hcodec : t.codec.RoundTrips)
    (h : t.Settled indexers live s) {id : RowId} {value : T}
    (hrun : (t.create id value).on s = (.ok (), s')) :
    t.Settled indexers (live.insert id.bytes value) s' := by
  rcases create_cases ht h.consistent id value with
    ⟨e, s₁, h₁, _⟩ | ⟨stored, s₁, h₁, hid, _, hmarshal, taken, turns⟩
  · rw [hrun] at h₁
    cases h₁
  · rw [hrun] at h₁
    cases h₁
    exact h.insert hid hmarshal (hcodec value stored hmarshal) taken turns

theorem Settled.of_save (ht : t.IndexedBy indexers) (hcodec : t.codec.RoundTrips)
    (h : t.Settled indexers live s) {id : RowId} {value : T}
    (hrun : (t.save id value).on s = (.ok (), s')) :
    t.Settled indexers (live.insert id.bytes value) s' := by
  rcases save_cases ht h.consistent id value with
    ⟨e, s₁, h₁, _⟩ | ⟨stored, s₁, h₁, present, hmarshal, taken, turns⟩
  · rw [hrun] at h₁
    cases h₁
  · rw [hrun] at h₁
    cases h₁
    obtain ⟨old, hold⟩ := Option.isSome_iff_exists.1 present
    exact h.insert (h.consistent.valid id.bytes old hold) hmarshal
      (hcodec value stored hmarshal) taken turns

theorem Settled.of_delete (ht : t.IndexedBy indexers) (h : t.Settled indexers live s) {id : RowId}
    (hrun : (t.delete id).on s = (.ok (), s')) :
    t.Settled indexers (live.erase id.bytes) s' := by
  rcases delete_cases ht h.consistent id with ⟨_, h₁⟩ | ⟨s₁, h₁, _, turns⟩
  · rw [hrun] at h₁
    cases h₁
  · rw [hrun] at h₁
    cases h₁
    exact h.erase turns

theorem Settled.of_sameBut (h : t.Settled indexers live s) {spaces : List Space}
    (frame : Store.SameBut spaces s s')
    (apart : ∀ space ∈ t.space :: indexers.map (·.space), space ∉ spaces) :
    t.Settled indexers live s' := by
  have hrows : ∀ id, s'.find? (t.space :: id) = s.find? (t.space :: id) := by
    intro id
    rw [← Store.find?_part, frame.part (apart t.space List.mem_cons_self), Store.find?_part]
  constructor
  case consistent =>
    constructor
    case valid => exact h.consistent.valid
    case derives => exact h.consistent.derives
    case rows =>
      intro id
      rw [hrows]
      exact h.consistent.rows id
    case entries =>
      refine h.consistent.entries.of_sameBut frame fun ix hix => apart ix.space ?_
      exact List.mem_cons_of_mem _ (List.mem_map_of_mem hix)
  case written =>
    intro id value hlive
    rw [hrows]
    exact h.written id value hlive

def liveList (live : LiveRows T) : List (Row T) := live.entries.map fun e => ⟨⟨e.1⟩, e.2⟩

theorem decoded_eq (h : t.Consistent indexers live s) :
    (s.part t.space).entries.map (fun e => (e.1, t.codec.unmarshal e.2)) =
      live.entries.map fun e => (e.1, .ok e.2) := by
  have same : SortedMap.mapValues t.codec.unmarshal (s.part t.space) =
      SortedMap.mapValues .ok live := by
    refine SortedMap.ext_find? fun id => ?_
    rw [SortedMap.find?_mapValues, SortedMap.find?_mapValues, Store.find?_part]
    exact h.rows id
  exact congrArg SortedMap.entries same

theorem on_dump (h : t.Consistent indexers live s) : t.dump.on s = (.ok (liveList live), s) := by
  let decode (e : Bytes × Except Error T) : Except Error (Row T) := e.2.map (Row.mk ⟨e.1⟩)
  refine on_dump_of_loads ?_
  calc (t.entriesFrom s none).map (fun e => t.ofItem (.ok e))
      = ((s.part t.space).entries.map fun e => (e.1, t.codec.unmarshal e.2)).map decode := by
        rw [entriesFrom_none, List.map_map]
        exact List.map_congr_left fun e _ => t.ofItem_ok e
    _ = (live.entries.map fun e => (e.1, .ok e.2)).map decode := by rw [decoded_eq h]
    _ = (liveList live).map .ok := by
        rw [liveList, List.map_map, List.map_map]
        rfl

theorem Settled.of_restore (ht : t.IndexedBy indexers) (hcodec : t.codec.RoundTrips)
    (h : t.Settled indexers live s) {rows : List (Row T)}
    (hrun : (t.restore rows).on s = (.ok (), s')) :
    t.Settled indexers (rows.foldl (fun live row => live.insert row.id.bytes row.value) .empty)
      s' := by
  rw [t.restore_eq] at hrun
  obtain ⟨present, s₁, h₁, hrun⟩ := Op.ok_of_bind hrun
  rw [on_dump h.consistent] at h₁
  cases h₁
  obtain ⟨_, s₂, h₂, hrun⟩ := Op.ok_of_bind hrun
  have hcleared : t.Settled indexers
      ((liveList live).foldl (fun live row => live.erase row.id.bytes) live) s₂ :=
    Op.on_forM_keeps (g := fun live (row : Row T) => live.erase row.id.bytes)
      (P := fun live s => t.Settled indexers live s)
      (fun row live s s' h hrun => Settled.of_delete ht h hrun) h h₂
  have hempty : (liveList live).foldl (fun live row => live.erase row.id.bytes) live = .empty := by
    rw [← live.foldl_erase_keys]
    simp [liveList, SortedMap.keys, List.foldl_map]
  rw [hempty] at hcleared
  exact Op.on_forM_keeps (g := fun live (row : Row T) => live.insert row.id.bytes row.value)
    (P := fun live s => t.Settled indexers live s)
    (fun row live s s' h hrun => Settled.of_create ht hcodec h hrun) hcleared hrun

theorem Settled.of_edit (ht : t.IndexedBy indexers) (hcodec : t.codec.RoundTrips)
    (h : t.Settled indexers live s) {e done : Edit T} (hrun : (t.edit e).on s = (.ok done, s')) :
    t.Settled indexers (done.effect live) s' := by
  cases e <;> obtain ⟨_, s₁, h₁, h₂⟩ := Op.ok_of_bind hrun <;> cases h₂
  case create => exact h.of_create ht hcodec h₁
  case save => exact h.of_save ht hcodec h₁
  case delete => exact h.of_delete ht h₁
  case restore => exact h.of_restore ht hcodec h₁

end Table

namespace Table

variable {t : Table T} {indexers : List (Indexer T)} {live : LiveRows T} {s s' : Store}

theorem Settled.of_inside (h : t.Settled indexers live s) {α : Type} {op : Op α} {space : Space}
    (hop : op.Inside [space]) (apart : space ∉ t.space :: indexers.map (·.space)) {a : α}
    (hrun : op.on s = (.ok a, s')) : t.Settled indexers live s' := by
  have frame := hop.sameBut s
  rw [hrun] at frame
  refine h.of_sameBut frame fun other hother hsame => apart ?_
  exact List.mem_singleton.1 hsame ▸ hother

theorem Settled.of_numbered (ht : t.IndexedBy indexers) (hcodec : t.codec.RoundTrips)
    {q : Sequence} (apart : q.space ∉ t.space :: indexers.map (·.space))
    (h : t.Settled indexers live s) {e : NumberedEdit T} {done : Edit T}
    (hrun : (NumberedTable.edit ⟨t, q⟩ e).on s = (.ok done, s')) :
    t.Settled indexers (done.effect live) s' := by
  cases e <;> obtain ⟨_, s₁, h₁, h₂⟩ := Op.ok_of_bind hrun <;> cases h₂
  case create =>
    obtain ⟨n, s₂, hnext, hrest⟩ := Op.ok_of_bind h₁
    obtain ⟨_, s₃, hcreate, hdone⟩ := Op.ok_of_bind hrest
    cases hdone
    exact (h.of_inside q.inside_next apart hnext).of_create ht hcodec hcreate
  case save => exact h.of_save ht hcodec h₁
  case delete => exact h.of_delete ht h₁
  case restore =>
    obtain ⟨_, s₂, hcheck, hrest⟩ := Op.ok_of_bind h₁
    rw [Op.on_lift] at hcheck
    cases congrArg Prod.snd hcheck
    obtain ⟨_, s₃, hstart, hrestore⟩ := Op.ok_of_bind hrest
    exact (h.of_inside (q.inside_start _) apart hstart).of_restore ht hcodec hrestore

theorem Settled.of_natural (ht : t.IndexedBy indexers) (hcodec : t.codec.RoundTrips)
    {key : T → RowId} (h : t.Settled indexers live s) {e : NaturalEdit T} {done : Edit T}
    (hrun : (NaturalTable.edit ⟨t, key⟩ e).on s = (.ok done, s')) :
    t.Settled indexers (done.effect live) s' := by
  cases e <;> obtain ⟨_, s₁, h₁, h₂⟩ := Op.ok_of_bind hrun <;> cases h₂
  case create =>
    obtain ⟨_, s₂, hcreate, hdone⟩ := Op.ok_of_bind h₁
    cases hdone
    exact h.of_create ht hcodec hcreate
  case save => exact h.of_save ht hcodec h₁
  case saveAt id value _ =>
    by_cases hkey : key value = id
    · simp only [NaturalTable.saveAt, hkey, ne_eq, not_true_eq_false, if_false] at h₁
      exact h.of_save ht hcodec h₁
    · simp only [NaturalTable.saveAt, hkey, ne_eq, not_false_eq_true, if_true] at h₁
      cases h₁
  case delete => exact h.of_delete ht h₁
  case restore =>
    obtain ⟨_, s₂, hcheck, hrest⟩ := Op.ok_of_bind h₁
    rw [Op.on_lift] at hcheck
    cases congrArg Prod.snd hcheck
    exact h.of_restore ht hcodec hrest

/-- Every success of the operation on a settled store has the effect that it answers. -/
def Faithful (t : Table T) (indexers : List (Indexer T)) (op : Op (Edit T)) : Prop :=
  ∀ live s done s', t.Settled indexers live s → op.on s = (.ok done, s') →
    t.Settled indexers (done.effect live) s'

/-- Between transactions: nothing is open, nothing fails, and the store is settled. -/
structure Rests (t : Table T) (indexers : List (Indexer T)) (state : Session × LiveRows T) :
    Prop where
  faults : state.1.faults = []
  closed : state.1.stack = ⟨state.1.disk.store, []⟩
  settled : t.Settled indexers state.2 state.1.disk.store

theorem rests_of_stack {session : Session} {store : Store} (hfaults : session.faults = [])
    (hstack : session.stack = ⟨store, []⟩) (h : t.Settled indexers live store) :
    t.Rests indexers (session, live) := by
  have hstore : session.disk.store = store := by
    rw [← Session.stack_base, hstack]
    rfl
  cases hstore
  exact ⟨hfaults, hstack, h⟩

theorem Rests.record {state : Session × LiveRows T} {op : Op (Edit T)}
    (h : t.Rests indexers state) (hop : t.Faithful indexers op) :
    t.Rests indexers (Session.record state op) := by
  obtain ⟨session, live⟩ := state
  have htop : session.stack.top = session.disk.store := congrArg Stack.top h.closed
  have hbelow : session.stack.below = [] := congrArg Stack.below h.closed
  unfold Session.record
  rcases hrun : op.on session.stack.top with ⟨e | done, store⟩
  · -- A transaction that fails leaves the store as it was, whatever it had written.
    obtain ⟨session', htransact, hfaults, hstack⟩ := Session.transact_of_error h.faults hrun
    rw [htransact]
    exact rests_of_stack hfaults (hstack.trans h.closed) h.settled
  · obtain ⟨session', htransact, hfaults, hstack⟩ := Session.transact_of_ok h.faults hrun
    rw [hbelow] at hstack
    rw [htransact]
    rw [htop] at hrun
    exact rests_of_stack hfaults hstack (hop live _ done store h.settled hrun)

theorem rests_replay {ops : List (Op (Edit T))} (hops : ∀ op ∈ ops, t.Faithful indexers op) :
    t.Rests indexers (Session.replay ops) := by
  have from_any : ∀ state, t.Rests indexers state →
      t.Rests indexers (ops.foldl Session.record state) := by
    induction ops with
    | nil => exact fun _ h => h
    | cons op rest ih =>
      intro state h
      have hrest := ih fun op' hop' => hops op' (List.mem_cons_of_mem op hop')
      exact hrest _ (h.record (hops op List.mem_cons_self))
  refine from_any _ ⟨rfl, rfl, consistent_empty t indexers, fun id value hlive => ?_⟩
  cases hlive

/-- After any history of a table, alone, numbered or with natural keys, its spaces and those of its
indexes hold the live rows with their index entries and nothing else; so what is stored there is
determined by what is live. -/
theorem histories_mirror_live_rows (ht : t.IndexedBy indexers) (hcodec : t.codec.RoundTrips) :
    (∀ edits : List (Edit T), let state := Session.replay (edits.map t.edit)
      t.Mirrors indexers state.2 state.1.disk.store) ∧
    (∀ (q : Sequence) (edits : List (NumberedEdit T)),
      q.space ∉ t.space :: indexers.map (·.space) →
        let state := Session.replay (edits.map (NumberedTable.edit ⟨t, q⟩))
        t.Mirrors indexers state.2 state.1.disk.store) ∧
    (∀ (key : T → RowId) (edits : List (NaturalEdit T)),
      let state := Session.replay (edits.map (NaturalTable.edit ⟨t, key⟩))
      t.Mirrors indexers state.2 state.1.disk.store) ∧
    ∀ live s s', t.Mirrors indexers live s → t.Mirrors indexers live s' →
      ∀ space ∈ t.space :: indexers.map (·.space), s.part space = s'.part space := by
  refine ⟨fun edits => ?_, fun q edits apart => ?_, fun key edits => ?_,
    fun live s s' h h' => h.part_eq h'⟩
  · refine (rests_replay fun op hop => ?_).settled.mirrors
    obtain ⟨e, _, rfl⟩ := List.mem_map.1 hop
    exact fun live s done s' h hrun => h.of_edit ht hcodec hrun
  · refine (rests_replay fun op hop => ?_).settled.mirrors
    obtain ⟨e, _, rfl⟩ := List.mem_map.1 hop
    exact fun live s done s' h hrun => h.of_numbered ht hcodec apart hrun
  · refine (rests_replay fun op hop => ?_).settled.mirrors
    obtain ⟨e, _, rfl⟩ := List.mem_map.1 hop
    exact fun live s done s' h hrun => h.of_natural ht hcodec hrun

end Table

theorem words_history :
    let state := Session.replay ([.create ⟨[1]⟩ [0x61, 0x62], .create ⟨[2]⟩ [0x61],
      .save ⟨[1]⟩ [0x63, 0x62, 0x62], .create ⟨[2]⟩ [0x61]].map words.edit)
    words.IndexedBy wordIndexers ∧ wordCodec.RoundTrips ∧
      words.Mirrors wordIndexers state.2 state.1.disk.store ∧
      state.1.disk.store.entries =
        [([0x01, 1], [0x63, 0x62, 0x62]), ([0x01, 2], [0x61]),
          ([0x02, 0x61, 2, 1], []), ([0x02, 0x62, 1, 1], []), ([0x02, 0x63, 1, 1], []),
          ([0x03, 0x61], [2]), ([0x03, 0x63], [1])] :=
  ⟨words_indexedBy, wordCodec_roundTrips,
    (Table.histories_mirror_live_rows words_indexedBy wordCodec_roundTrips).1 _, rfl⟩

end IndexedTables
