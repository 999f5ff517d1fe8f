import IndexedTables.Proofs.FreshNumbers
import IndexedTables.Proofs.Histories
set_option autoImplicit false

namespace IndexedTables

variable {T : Type}

/-- What is dumped from `s` can be restored over `s'`; then these spaces hold what they hold in `s`,
and the dump is the same. -/
structure Op.Transfers {D : Type} (dump : Op D) (restore : D → Op Unit) (spaces : List Space)
    (s s' s'' : Store) : Prop where
  restored : ∃ dumped, dump.on s = (.ok dumped, s) ∧ (restore dumped).on s' = (.ok (), s'') ∧
    dump.on s'' = (.ok dumped, s'')
  agree : Store.Agree spaces s'' s

namespace Table

variable {t : Table T} {indexers : List (Indexer T)} {live done : LiveRows T} {s s' : Store}

def entriesOf (rows : List (Row T)) : List (Bytes × T) :=
  rows.map fun row => (row.id.bytes, row.value)

theorem entriesOf_liveList (live : LiveRows T) : entriesOf (liveList live) = live.entries := by
  simp [entriesOf, liveList, Function.comp_def]

/-- Of what was live in `s` these rows are left. -/
def Clearing (t : Table T) (indexers : List (Indexer T)) (s : Store) (rows : List (Row T))
    (s' : Store) : Prop :=
  ∃ left : LiveRows T, left.entries = entriesOf rows ∧ t.Settled indexers left s' ∧
    Store.SameBut (t.spaces indexers) s s'

theorem Clearing.turn (ht : t.IndexedBy indexers) {row : Row T} {rest : List (Row T)}
    (h : t.Clearing indexers s (row :: rest) s') :
    ∃ s'', (t.delete row.id).on s' = (.ok (), s'') ∧ t.Clearing indexers s rest s'' := by
  obtain ⟨left, hleft, settled, frame⟩ := h
  have present : left.find? row.id.bytes = some row.value :=
    SortedMap.find?_eq_some_iff.2 (by simp [hleft, entriesOf])
  rcases delete_cases ht settled.consistent row.id with ⟨absent, _⟩ | ⟨s'', hrun, _, turns⟩
  · rw [present] at absent
    cases absent
  · exact ⟨s'', hrun, left.erase row.id.bytes, SortedMap.entries_erase_head hleft,
      settled.erase turns, frame.trans turns.frame⟩

theorem Settled.exists_cleared (ht : t.IndexedBy indexers) (h : t.Settled indexers live s) :
    ∃ s', ((liveList live).forM fun row => t.delete row.id).on s = (.ok (), s') ∧
      t.Settled indexers .empty s' ∧ Store.SameBut (t.spaces indexers) s s' := by
  have start : t.Clearing indexers s (liveList live) s :=
    ⟨live, (entriesOf_liveList live).symm, h, .refl _ s⟩
  obtain ⟨s', hrun, left, hleft, settled, frame⟩ :=
    Op.exists_on_forM (P := t.Clearing indexers s) (fun _ _ _ h => Clearing.turn ht h) start
  have empty : left = .empty := SortedMap.ext hleft
  exact ⟨s', hrun, empty ▸ settled, frame⟩

theorem Settled.exists_created (ht : t.IndexedBy indexers) (source : t.Settled indexers live s)
    {s₁ : Store} (h : t.Settled indexers done s₁)
    (sub : ∀ id value, done.find? id = some value → live.find? id = some value) {id : RowId}
    {value : T} (present : live.find? id.bytes = some value)
    (absent : done.find? id.bytes = none) :
    ∃ s₂, (t.create id value).on s₁ = (.ok (), s₂) ∧
      t.Settled indexers (done.insert id.bytes value) s₂ ∧
      Store.SameBut (t.spaces indexers) s₁ s₂ := by
  obtain ⟨stored, hmarshal, hstored⟩ := source.written id.bytes value present
  have reads : t.codec.unmarshal stored = .ok value := by
    obtain ⟨stored', hstored', hvalue⟩ := source.consistent.find?_row_of_live present
    rw [hstored] at hstored'
    cases hstored'
    exact hvalue
  have derives : ∀ ix ∈ indexers, ∃ keys, ix.keys value = .ok keys := fun ix hix =>
    source.consistent.derives ix hix id.bytes value present
  -- What is restored is part of what was live together, so no unique key is held.
  have free : ∀ ix ∈ indexers, ¬ ix.KeyHeld done id value := by
    intro ix hix held
    obtain ⟨other, row, hrow, hne, hunique, key, hkey, hkey'⟩ := Indexer.keyHeld_iff.1 held
    exact hne (source.mirrors.sole ix hix hunique key other row id.bytes value
      (sub other row hrow) hkey' present hkey)
  have taken : ∀ e, ¬ t.Refuses indexers done id value e :=
    not_refuses_iff.2 ⟨⟨⟨stored, hmarshal⟩, derives⟩, free⟩
  rcases create_cases ht h.consistent id value with
    ⟨e, _, _, why⟩ | ⟨stored', s₂, hrun, hid, _, hmarshal', _, turns⟩
  · rcases why with invalid | ⟨_, found, _⟩ | ⟨_, _, refused⟩
    · exact absurd (source.consistent.valid id.bytes value present) invalid
    · exact absurd found (contains_eq_false absent)
    · exact absurd refused (taken e)
  · rw [hmarshal] at hmarshal'
    cases hmarshal'
    exact ⟨s₂, hrun, h.insert hid hmarshal reads taken turns, turns.frame⟩

/-- Of the live rows all but these have been added since `s`. -/
def Filling (t : Table T) (indexers : List (Indexer T)) (live : LiveRows T) (s : Store)
    (rows : List (Row T)) (s' : Store) : Prop :=
  ∃ done : LiveRows T, live.entries = done.entries ++ entriesOf rows ∧
    t.Settled indexers done s' ∧ Store.SameBut (t.spaces indexers) s s'

theorem Filling.turn (ht : t.IndexedBy indexers) (source : t.Settled indexers live s) {s₁ : Store}
    {row : Row T} {rest : List (Row T)} (h : t.Filling indexers live s₁ (row :: rest) s') :
    ∃ s'', (t.create row.id row.value).on s' = (.ok (), s'') ∧
      t.Filling indexers live s₁ rest s'' := by
  obtain ⟨done, hlive, settled, frame⟩ := h
  have below : ∀ e ∈ done.entries, e.1 < row.id.bytes := by
    have ascending := live.ascending
    rw [hlive] at ascending
    exact fun e he => (List.pairwise_append.1 ascending).2.2 e he _ List.mem_cons_self
  have absent : done.find? row.id.bytes = none := by
    rw [Option.eq_none_iff_forall_ne_some]
    exact fun value hvalue =>
      Std.lt_irrefl (below _ (SortedMap.find?_eq_some_iff.1 hvalue))
  have sub : ∀ id value, done.find? id = some value → live.find? id = some value := by
    simp only [SortedMap.find?_eq_some_iff, hlive]
    exact fun id value he => List.mem_append_left _ he
  have present : live.find? row.id.bytes = some row.value :=
    SortedMap.find?_eq_some_iff.2 (by simp [hlive, entriesOf])
  obtain ⟨s'', hrun, created, frame'⟩ := source.exists_created ht settled sub present absent
  refine ⟨s'', hrun, done.insert row.id.bytes row.value, ?_, created, frame.trans frame'⟩
  rw [SortedMap.entries_insert_last row.value below, hlive]
  simp [entriesOf]

theorem Settled.exists_restored (ht : t.IndexedBy indexers) (h : t.Settled indexers live s)
    {live' : LiveRows T} (h' : t.Settled indexers live' s') :
    ∃ s'', (t.restore (liveList live)).on s' = (.ok (), s'') ∧ t.Settled indexers live s'' ∧
      Store.SameBut (t.spaces indexers) s' s'' := by
  obtain ⟨s₁, hclear, cleared, frame⟩ := h'.exists_cleared ht
  have start : t.Filling indexers live s₁ (liveList live) s₁ :=
    ⟨.empty, by rw [entriesOf_liveList]; rfl, cleared, .refl _ s₁⟩
  obtain ⟨s'', hfill, done, hdone, settled, frame'⟩ :=
    Op.exists_on_forM (P := t.Filling indexers live s₁) (fun _ _ _ h' => Filling.turn ht h h') start
  have whole : live = done := SortedMap.ext (by rw [hdone]; exact List.append_nil _)
  refine ⟨s'', ?_, whole ▸ settled, frame.trans frame'⟩
  rw [t.restore_eq]
  simp only [Op.on_bind, on_dump h'.consistent, hclear]
  exact hfill

theorem Settled.exists_transferred (ht : t.IndexedBy indexers) (h : t.Settled indexers live s)
    {live' : LiveRows T} (h' : t.Settled indexers live' s') :
    ∃ s'', Op.Transfers t.dump t.restore (t.spaces indexers) s s' s'' ∧
      Store.SameBut (t.spaces indexers) s' s'' := by
  obtain ⟨s'', hrun, settled, frame⟩ := h.exists_restored ht h'
  refine ⟨s'', ⟨⟨liveList live, on_dump h.consistent, hrun, on_dump settled.consistent⟩,
    fun space hspace key => ?_⟩, frame⟩
  rw [← Store.find?_part, settled.mirrors.part_eq h.mirrors space hspace, Store.find?_part]

theorem Settled.exists_natural (ht : t.IndexedBy indexers) (h : t.Settled indexers live s)
    {live' : LiveRows T} (h' : t.Settled indexers live' s') {key : T → RowId}
    (placed : ∀ id value, live.find? id = some value → key value = ⟨id⟩) :
    ∃ s'', Op.Transfers (NaturalTable.dump ⟨t, key⟩) (NaturalTable.restore ⟨t, key⟩)
        (t.spaces indexers) s s' s'' ∧ Store.SameBut (t.spaces indexers) s' s'' := by
  obtain ⟨s'', ⟨⟨rows, hdump, hrun, again⟩, agree⟩, frame⟩ := h.exists_transferred ht h'
  refine ⟨s'', ⟨⟨rows, hdump, ?_, again⟩, agree⟩, frame⟩
  rw [on_dump h.consistent] at hdump
  cases hdump
  have checked : (liveList live).forM (NaturalTable.checkPlace ⟨t, key⟩) = .ok () := by
    refine forM_eq_ok_iff.2 fun row hrow => ?_
    obtain ⟨e, he, rfl⟩ := List.mem_map.1 hrow
    have same := placed e.1 e.2 (SortedMap.find?_eq_some_iff.2 he)
    simp [NaturalTable.checkPlace, same]
  simp only [NaturalTable.restore, Op.on_bind, Op.on_lift, checked]
  exact hrun

theorem Settled.exists_numbered (ht : t.IndexedBy indexers) (h : t.Settled indexers live s)
    {live' : LiveRows T} (h' : t.Settled indexers live' s') {q : Sequence} {last : UInt64}
    (apart : q.space ∉ t.spaces indexers) (counted : q.Stands last s)
    (numbered : ∀ id value, live.find? id = some value → NumberedTable.Numbers last ⟨id⟩)
    (unset : s'.find? (q.space :: Sequence.key) = none) :
    ∃ s'', Op.Transfers (NumberedTable.dump ⟨t, q⟩) (NumberedTable.restore ⟨t, q⟩)
        (t.spaces indexers) s s' s'' ∧ q.Stands last s'' ∧
      Store.SameBut (t.spaces indexers) (q.moved last s') s'' := by
  have moved : t.Settled indexers live' (q.moved last s') :=
    h'.of_sameBut (Store.sameBut_insert s' q.space Sequence.key (numericKey last))
      fun space hspace hq => apart (List.mem_singleton.1 hq ▸ hspace)
  obtain ⟨s'', ⟨⟨rows, hdump, hrun, again⟩, agree⟩, frame⟩ := h.exists_transferred ht moved
  have counted' : q.Stands last s'' := (q.stands_moved last s').of_sameBut frame apart
  refine ⟨s'', ⟨⟨⟨last, rows⟩, ?_, ?_, ?_⟩, agree⟩, counted', frame⟩
  · simp only [NumberedTable.dump, Op.on_bind, counted.on_current, hdump, Op.on_pure]
  · rw [on_dump h.consistent] at hdump
    cases hdump
    have checked : (liveList live).forM (NumberedTable.checkNumber last) = .ok () := by
      refine forM_eq_ok_iff.2 fun row hrow => NumberedTable.check_iff.2 ?_
      obtain ⟨e, he, rfl⟩ := List.mem_map.1 hrow
      exact numbered e.1 e.2 (SortedMap.find?_eq_some_iff.2 he)
    simp only [NumberedTable.restore, Op.on_bind, Op.on_lift, checked,
      Sequence.on_start_of_unset unset]
    exact hrun
  · simp only [NumberedTable.dump, Op.on_bind, counted'.on_current, again, Op.on_pure]

/-- A dump of a table in step with its indexes is restored over any such state of the table: the
spaces of the table and its indexes come to hold what they hold where the dump was made, and
nothing else changes. So it is with natural keys, and with numbers where none was handed out yet;
then the next number, too, is that of the first store. -/
theorem dumps_reproduce (ht : t.IndexedBy indexers) (h : t.Settled indexers live s)
    {live' : LiveRows T} (h' : t.Settled indexers live' s') :
    (∃ s'', Op.Transfers t.dump t.restore (t.spaces indexers) s s' s'' ∧
      Store.SameBut (t.spaces indexers) s' s'') ∧
    (∀ key : T → RowId, (∀ id value, live.find? id = some value → key value = ⟨id⟩) →
      ∃ s'', Op.Transfers (NaturalTable.dump ⟨t, key⟩) (NaturalTable.restore ⟨t, key⟩)
          (t.spaces indexers) s s' s'' ∧ Store.SameBut (t.spaces indexers) s' s'') ∧
    ∀ (q : Sequence) (last : UInt64), q.space ∉ t.spaces indexers →
      q.current.on s = (.ok last, s) →
      (∀ id value, live.find? id = some value → ∃ n, id = numericKey n ∧ 1 ≤ n ∧ n ≤ last) →
      s'.find? (q.space :: Sequence.key) = none →
      ∃ s'', Op.Transfers (NumberedTable.dump ⟨t, q⟩) (NumberedTable.restore ⟨t, q⟩)
          (t.spaces indexers) s s' s'' ∧
        (∀ key, (∀ space ∈ t.spaces indexers, ¬ [space] <+: key) →
          key ≠ q.space :: Sequence.key → s''.find? key = s'.find? key) ∧
        q.current.on s'' = (.ok last, s'') ∧ (q.next.on s'').1 = (q.next.on s).1 := by
  refine ⟨h.exists_transferred ht h', fun key => h.exists_natural ht h',
    fun q last apart hcurrent numbered unset => ?_⟩
  have counted := Sequence.stands_of_current hcurrent
  have numbers : ∀ id value, live.find? id = some value → NumberedTable.Numbers last ⟨id⟩ := by
    intro id value hlive
    obtain ⟨n, rfl, bounds⟩ := numbered id value hlive
    exact ⟨n, rfl, bounds⟩
  obtain ⟨s'', transfers, counted', frame⟩ := h.exists_numbered ht h' apart counted numbers unset
  refine ⟨s'', transfers, fun key outside hkey => ?_, counted'.on_current, ?_⟩
  · rw [frame key outside, Sequence.moved, SortedMap.find?_insert_of_ne _ _ hkey]
  · rw [counted'.on_next, counted.on_next]
    split <;> rfl

end Table

theorem countedWords_transferred :
    let live : LiveRows Bytes := SortedMap.insert .empty (numericKey 1) [0x61, 0x62]
    let s := ((countedWords.create [0x61, 0x62]).on .empty).2
    let s' := ((words.create ⟨[9]⟩ [0x61]).on .empty).2
    words.Settled wordIndexers live s ∧
      words.Settled wordIndexers (SortedMap.insert .empty [9] [0x61]) s' ∧
      ∃ s'', Op.Transfers countedWords.dump countedWords.restore
          (words.spaces wordIndexers) s s' s'' ∧
        countedWords.sequence.current.on s'' = (.ok 1, s'') ∧
        (countedWords.sequence.next.on s'').1 = .ok 2 := by
  intro live s s'
  have nothing : words.Settled wordIndexers .empty .empty :=
    ⟨Table.consistent_empty words wordIndexers, fun id value hlive => by cases hlive⟩
  have here : words.Settled wordIndexers live s :=
    nothing.of_numbered words_indexedBy wordCodec_roundTrips (q := ⟨0x04⟩) (by decide)
      (e := .create [0x61, 0x62]) rfl
  have there : words.Settled wordIndexers (SortedMap.insert .empty [9] [0x61]) s' :=
    nothing.of_create words_indexedBy wordCodec_roundTrips rfl
  have one : ∀ id value, live.find? id = some value →
      ∃ n, id = numericKey n ∧ 1 ≤ n ∧ n ≤ 1 := by
    intro id value hlive
    rw [SortedMap.find?_insert] at hlive
    split at hlive
    · next same => exact ⟨1, same, by decide, by decide⟩
    · cases hlive
  obtain ⟨_, _, numbered⟩ := Table.dumps_reproduce words_indexedBy here there
  obtain ⟨s'', transfers, _, current, next⟩ := numbered ⟨0x04⟩ 1 (by decide) rfl one rfl
  exact ⟨here, there, s'', transfers, current, next.trans rfl⟩

end IndexedTables
