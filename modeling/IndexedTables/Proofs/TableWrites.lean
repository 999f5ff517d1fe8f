import IndexedTables.Proofs.Consistency
set_option autoImplicit false

namespace IndexedTables

namespace Table

variable {T : Type}

/-- The observers of the table are those of its indexes, and each has a space of its own. -/
structure IndexedBy (t : Table T) (indexers : List (Indexer T)) : Prop where
  observers : t.observers = indexers.map Indexer.observer
  spaces : (t.space :: indexers.map (·.space)).Nodup

/-- The stored rows are the live ones, and every index holds exactly their entries. -/
structure Consistent (t : Table T) (indexers : List (Indexer T)) (live : LiveRows T)
    (s : Store) : Prop where
  valid : ∀ id value, live.find? id = some value → (RowId.mk id).Valid
  derives : ∀ ix ∈ indexers, ∀ id value, live.find? id = some value →
    ∃ keys, ix.keys value = .ok keys
  rows : ∀ id, (s.find? (t.space :: id)).map t.codec.unmarshal = (live.find? id).map .ok
  entries : Indexer.InStep indexers live s

/-- Why a value is not taken for a row, whether new or present. -/
def Refuses (t : Table T) (indexers : List (Indexer T)) (live : LiveRows T) (id : RowId)
    (value : T) (e : Error) : Prop :=
  t.codec.marshal value = .error e ∨ ∃ ix ∈ indexers, ix.Refuses live id value e

/-- The table has come to store `rows` and its indexes to hold the entries of `live`; outside their
spaces nothing has changed. -/
structure Turns (t : Table T) (indexers : List (Indexer T)) (rows : Store) (live : LiveRows T)
    (s s' : Store) : Prop where
  rows : s'.part t.space = rows
  entries : Indexer.InStep indexers live s'
  frame : Store.SameBut (t.space :: indexers.map (·.space)) s s'

variable {t : Table T} {indexers : List (Indexer T)} {live : LiveRows T} {s : Store}

theorem IndexedBy.space_ne (ht : t.IndexedBy indexers) {ix : Indexer T} (hix : ix ∈ indexers) :
    ix.space ≠ t.space := fun same =>
  (List.nodup_cons.1 ht.spaces).1 (List.mem_map.2 ⟨ix, hix, same⟩)

theorem Consistent.find?_row_of_live (h : t.Consistent indexers live s) {id : Bytes} {value : T}
    (hlive : live.find? id = some value) :
    ∃ stored, s.find? (t.space :: id) = some stored ∧ t.codec.unmarshal stored = .ok value := by
  have hrow := h.rows id
  rw [hlive] at hrow
  cases hfind : s.find? (t.space :: id) with
  | none => simp [hfind] at hrow
  | some stored => exact ⟨stored, rfl, by simpa [hfind] using hrow⟩

theorem Consistent.find?_row_of_absent (h : t.Consistent indexers live s) {id : Bytes}
    (hlive : live.find? id = none) : s.find? (t.space :: id) = none := by
  have hrow := h.rows id
  rw [hlive] at hrow
  simpa using hrow

theorem Consistent.contains_row (h : t.Consistent indexers live s) (id : Bytes) :
    s.contains (t.space :: id) = live.contains id := by
  have hrow := congrArg Option.isSome (h.rows id)
  simpa [SortedMap.contains] using hrow

theorem on_has (id : RowId) (s : Store) :
    (t.has id).on s = (.ok (s.contains (t.space :: id.bytes)), s) := by
  apply Op.on_inSpace_of_reads
  simp [SortedMap.contains]

theorem on_get_of_stored {id : RowId} {stored : Bytes}
    (hstored : s.find? (t.space :: id.bytes) = some stored) :
    (t.get id).on s = (t.codec.unmarshal stored, s) := by
  have hread : ((Op.get id.bytes).inSpace t.space).on s = (.ok (some stored), s) :=
    Op.on_inSpace_of_reads (by simp [hstored])
  simp [get, Rows.get, Op.on_bind, hread]

theorem on_get_of_not_stored {id : RowId} (hnone : s.find? (t.space :: id.bytes) = none) :
    (t.get id).on s = (.error .notFound, s) := by
  have hread : ((Op.get id.bytes).inSpace t.space).on s = (.ok none, s) :=
    Op.on_inSpace_of_reads (by simp [hnone])
  simp [get, Rows.get, Op.on_bind, hread]

theorem on_get_of_live (h : t.Consistent indexers live s) {id : RowId} {value : T}
    (hlive : live.find? id.bytes = some value) : (t.get id).on s = (.ok value, s) := by
  obtain ⟨stored, hstored, hvalue⟩ := h.find?_row_of_live hlive
  rw [on_get_of_stored hstored, hvalue]

theorem on_get_of_absent (h : t.Consistent indexers live s) {id : RowId}
    (hlive : live.find? id.bytes = none) : (t.get id).on s = (.error .notFound, s) :=
  on_get_of_not_stored (h.find?_row_of_absent hlive)

theorem write_cases (ht : t.IndexedBy indexers) (h : t.Consistent indexers live s) {id : RowId}
    (hid : id.Valid) (value : T) :
    (∃ e s', (t.write id value (live.find? id.bytes)).on s = (.error e, s') ∧
      t.Refuses indexers live id value e) ∨
    ∃ stored s', (t.write id value (live.find? id.bytes)).on s = (.ok (), s') ∧
      t.codec.marshal value = .ok stored ∧ (∀ e, ¬ t.Refuses indexers live id value e) ∧
      t.Turns indexers ((s.part t.space).insert id.bytes stored)
        (live.insert id.bytes value) s s' := by
  obtain ⟨hspace, hspaces⟩ := List.nodup_cons.1 ht.spaces
  cases hmarshal : t.codec.marshal value with
  | error e =>
    refine .inl ⟨e, s, ?_, .inl hmarshal⟩
    simp [write, Op.on_bind, hmarshal]
  | ok stored =>
    obtain ⟨s₁, h₁, hpart, hframe⟩ :
        ∃ s₁, ((Op.set id.bytes stored).inSpace t.space).on s = (.ok (), s₁) ∧
          s₁.part t.space = (s.part t.space).insert id.bytes stored ∧
          Store.SameBut [t.space] s s₁ :=
      Op.exists_on_inSpace (Op.on_set ..) fun s₁ hpart hframe => ⟨hpart, hframe⟩
    have hrun : (t.write id value (live.find? id.bytes)).on s =
        ((indexers.map Indexer.observer).forM fun o =>
          o.saved id value (live.find? id.bytes)).on s₁ := by
      simp only [write, Op.on_bind, Op.on_lift, hmarshal, h₁, ht.observers]
    -- The row has a space of its own, so the indexes are still in step with the old rows.
    have hentries : Indexer.InStep indexers live s₁ := h.entries.of_space hspace hframe
    rw [hrun]
    rcases Indexer.forM_saved_cases hspaces hentries hid
      (fun ix hix old => h.derives ix hix _ old) value with
      ⟨e, s', hs, refused⟩ | ⟨s', hs, taken, inStep, frame⟩
    · exact .inl ⟨e, s', hs, .inr refused⟩
    · refine .inr ⟨stored, s', hs, rfl, ?_, ?_, inStep, ?_⟩
      · intro e found
        rcases found with herror | ⟨ix, hix, refused⟩
        · rw [hmarshal] at herror
          cases herror
        · exact taken ix hix e refused
      · rw [frame.part hspace, hpart]
      · exact (hframe.mono (by simp)).trans (frame.mono (by simp))

theorem create_cases (ht : t.IndexedBy indexers) (h : t.Consistent indexers live s) (id : RowId)
    (value : T) :
    (∃ e s', (t.create id value).on s = (.error e, s') ∧
      (¬ id.Valid ∨ id.Valid ∧ live.contains id.bytes ∧ e = .rowExists id t.space ∨
        id.Valid ∧ live.find? id.bytes = none ∧ t.Refuses indexers live id value e)) ∨
    ∃ stored s', (t.create id value).on s = (.ok (), s') ∧ id.Valid ∧
      live.find? id.bytes = none ∧ t.codec.marshal value = .ok stored ∧
      (∀ e, ¬ t.Refuses indexers live id value e) ∧
      t.Turns indexers ((s.part t.space).insert id.bytes stored)
        (live.insert id.bytes value) s s' := by
  by_cases hid : id.Valid
  · have hcheck := RowId.check_of_valid hid
    have hhas := t.on_has id s
    rw [h.contains_row] at hhas
    cases hlive : live.find? id.bytes with
    | some old =>
      have hcontains : live.contains id.bytes = true := by simp [SortedMap.contains, hlive]
      refine .inl ⟨_, s, ?_, .inr (.inl ⟨hid, hcontains, rfl⟩)⟩
      simp [create, Op.on_bind, hcheck, hhas, hcontains]
    | none =>
      have hcontains : live.contains id.bytes = false := by simp [SortedMap.contains, hlive]
      have hrun : (t.create id value).on s = (t.write id value none).on s := by
        simp [create, Op.on_bind, hcheck, hhas, hcontains]
      have written := write_cases ht h hid value
      rw [hlive] at written
      rw [hrun]
      rcases written with ⟨e, s', hs, refused⟩ | ⟨stored, s', hs, rest⟩
      · exact .inl ⟨e, s', hs, .inr (.inr ⟨hid, rfl, refused⟩)⟩
      · exact .inr ⟨stored, s', hs, hid, rfl, rest⟩
  · obtain ⟨e, he⟩ := RowId.check_of_not_valid hid
    refine .inl ⟨e, s, ?_, .inl hid⟩
    simp [create, Op.on_bind, he]

theorem save_cases (ht : t.IndexedBy indexers) (h : t.Consistent indexers live s) (id : RowId)
    (value : T) :
    (∃ e s', (t.save id value).on s = (.error e, s') ∧
      (live.find? id.bytes = none ∧ e = .notFound ∨
        live.contains id.bytes ∧ t.Refuses indexers live id value e)) ∨
    ∃ stored s', (t.save id value).on s = (.ok (), s') ∧ live.contains id.bytes ∧
      t.codec.marshal value = .ok stored ∧ (∀ e, ¬ t.Refuses indexers live id value e) ∧
      t.Turns indexers ((s.part t.space).insert id.bytes stored)
        (live.insert id.bytes value) s s' := by
  cases hlive : live.find? id.bytes with
  | none =>
    refine .inl ⟨_, s, ?_, .inl ⟨rfl, rfl⟩⟩
    simp [save, Op.on_bind, on_get_of_absent h hlive]
  | some old =>
    have hcontains : live.contains id.bytes = true := by simp [SortedMap.contains, hlive]
    have hrun : (t.save id value).on s = (t.write id value (some old)).on s := by
      simp [save, Op.on_bind, on_get_of_live h hlive]
    have written := write_cases ht h (h.valid id.bytes old hlive) value
    rw [hlive] at written
    rw [hrun]
    rcases written with ⟨e, s', hs, refused⟩ | ⟨stored, s', hs, rest⟩
    · exact .inl ⟨e, s', hs, .inr ⟨hcontains, refused⟩⟩
    · exact .inr ⟨stored, s', hs, hcontains, rest⟩

theorem delete_cases (ht : t.IndexedBy indexers) (h : t.Consistent indexers live s) (id : RowId) :
    (live.find? id.bytes = none ∧ (t.delete id).on s = (.error .notFound, s)) ∨
    ∃ s', (t.delete id).on s = (.ok (), s') ∧ live.contains id.bytes ∧
      t.Turns indexers ((s.part t.space).erase id.bytes) (live.erase id.bytes) s s' := by
  cases hlive : live.find? id.bytes with
  | none =>
    refine .inl ⟨rfl, ?_⟩
    simp [delete, Op.on_bind, on_get_of_absent h hlive]
  | some old =>
    obtain ⟨hspace, hspaces⟩ := List.nodup_cons.1 ht.spaces
    obtain ⟨s₁, h₁, hpart, hframe⟩ :
        ∃ s₁, ((Op.delete id.bytes).inSpace t.space).on s = (.ok (), s₁) ∧
          s₁.part t.space = (s.part t.space).erase id.bytes ∧ Store.SameBut [t.space] s s₁ :=
      Op.exists_on_inSpace (Op.on_delete ..) fun s₁ hpart hframe => ⟨hpart, hframe⟩
    have hentries : Indexer.InStep indexers live s₁ := h.entries.of_space hspace hframe
    obtain ⟨s', hs, inStep, frame⟩ := Indexer.on_forM_removed hspaces hentries
      (h.valid id.bytes old hlive) hlive fun ix hix => h.derives ix hix _ old hlive
    refine .inr ⟨s', ?_, by simp [SortedMap.contains, hlive], ?_, inStep, ?_⟩
    · simpa only [delete, Op.on_bind, on_get_of_live h hlive, h₁, ht.observers] using hs
    · rw [frame.part hspace, hpart]
    · exact (hframe.mono (by simp)).trans (frame.mono (by simp))

theorem derives_of_not_refuses {id : RowId} {value : T}
    (taken : ∀ e, ¬ t.Refuses indexers live id value e) :
    ∀ ix ∈ indexers, ∃ keys, ix.keys value = .ok keys := by
  intro ix hix
  cases hkeys : ix.keys value with
  | ok keys => exact ⟨keys, rfl⟩
  | error e => exact absurd (.inr ⟨ix, hix, .inl hkeys⟩) (taken e)

theorem Consistent.insert (h : t.Consistent indexers live s) {id : RowId} (hid : id.Valid)
    {value : T} {stored : Bytes} (reads : t.codec.unmarshal stored = .ok value)
    (taken : ∀ e, ¬ t.Refuses indexers live id value e) {s' : Store}
    (turns : t.Turns indexers ((s.part t.space).insert id.bytes stored)
      (live.insert id.bytes value) s s') :
    t.Consistent indexers (live.insert id.bytes value) s' where
  valid other row hrow := by
    by_cases hother : other = id.bytes
    · exact hother ▸ hid
    · rw [SortedMap.find?_insert_of_ne live value hother] at hrow
      exact h.valid other row hrow
  derives ix hix other row hrow := by
    by_cases hother : other = id.bytes
    · rw [hother, SortedMap.find?_insert_self] at hrow
      cases hrow
      exact derives_of_not_refuses taken ix hix
    · rw [SortedMap.find?_insert_of_ne live value hother] at hrow
      exact h.derives ix hix other row hrow
  rows other := by
    rw [← Store.find?_part, turns.rows]
    by_cases hother : other = id.bytes
    · subst hother
      simp [reads]
    · rw [SortedMap.find?_insert_of_ne _ stored hother,
        SortedMap.find?_insert_of_ne live value hother, Store.find?_part]
      exact h.rows other
  entries := turns.entries

theorem Consistent.erase (h : t.Consistent indexers live s) {id : RowId} {s' : Store}
    (turns : t.Turns indexers ((s.part t.space).erase id.bytes) (live.erase id.bytes) s s') :
    t.Consistent indexers (live.erase id.bytes) s' := by
  have still : ∀ other row, (live.erase id.bytes).find? other = some row →
      live.find? other = some row := by
    intro other row hrow
    by_cases hother : other = id.bytes
    · rw [hother, SortedMap.find?_erase_self] at hrow
      cases hrow
    · rwa [SortedMap.find?_erase_of_ne live hother] at hrow
  constructor
  case valid => exact fun other row hrow => h.valid other row (still other row hrow)
  case derives =>
    exact fun ix hix other row hrow => h.derives ix hix other row (still other row hrow)
  case entries => exact turns.entries
  case rows =>
    intro other
    rw [← Store.find?_part, turns.rows]
    by_cases hother : other = id.bytes
    · subst hother
      simp
    · rw [SortedMap.find?_erase_of_ne _ hother, SortedMap.find?_erase_of_ne live hother,
        Store.find?_part]
      exact h.rows other

theorem consistent_empty (t : Table T) (indexers : List (Indexer T)) :
    t.Consistent indexers .empty .empty where
  valid id value h := by cases h
  derives ix hix id value h := by cases h
  rows id := rfl
  entries ix hix := by
    refine ⟨?_, fun key value => ?_⟩
    · intro e found
      obtain ⟨row, hrow, _⟩ := found
      cases hrow
    · rw [Store.find?_part]
      simp [Indexer.entriesOf]

def CanHold (t : Table T) (indexers : List (Indexer T)) (value : T) : Prop :=
  (∃ stored, t.codec.marshal value = .ok stored) ∧ ∀ ix ∈ indexers, ∃ keys, ix.keys value = .ok keys

def reported (live : LiveRows T) (id : RowId) : Except Error T :=
  match live.find? id.bytes with
  | some value => .ok value
  | none => .error .notFound

/-- Asked for any row, the table answers with the live one. -/
def Reports (t : Table T) (live : LiveRows T) (s : Store) : Prop :=
  ∀ id, (t.has id).on s = (.ok (live.contains id.bytes), s) ∧
    (t.get id).on s = (reported live id, s)

theorem Consistent.reports (h : t.Consistent indexers live s) : t.Reports live s := by
  intro id
  rw [on_has, h.contains_row, reported]
  cases hlive : live.find? id.bytes with
  | none => exact ⟨rfl, on_get_of_absent h hlive⟩
  | some value => exact ⟨rfl, on_get_of_live h hlive⟩

/-- A value was written to a row: what the table then answers, for that row and the others. -/
structure WriteSeen (t : Table T) (indexers : List (Indexer T)) (live : LiveRows T) (id : RowId)
    (value : T) (s : Store) : Prop where
  present : ∀ other, (t.has other).on s =
    (.ok ((live.insert id.bytes value).contains other.bytes), s)
  others : ∀ other, other ≠ id → (t.get other).on s = (reported live other, s)
  own : ∃ stored, t.codec.marshal value = .ok stored ∧
    (t.get id).on s = (t.codec.unmarshal stored, s) ∧
    (t.codec.unmarshal stored = .ok value →
      t.Consistent indexers (live.insert id.bytes value) s ∧
        t.Reports (live.insert id.bytes value) s)

theorem Consistent.writeSeen (h : t.Consistent indexers live s) {id : RowId} (hid : id.Valid)
    {value : T} {stored : Bytes} (hmarshal : t.codec.marshal value = .ok stored)
    (taken : ∀ e, ¬ t.Refuses indexers live id value e) {s' : Store}
    (turns : t.Turns indexers ((s.part t.space).insert id.bytes stored)
      (live.insert id.bytes value) s s') : t.WriteSeen indexers live id value s' := by
  have hown : s'.find? (t.space :: id.bytes) = some stored := by
    rw [← Store.find?_part, turns.rows, SortedMap.find?_insert_self]
  have hothers : ∀ other, other ≠ id.bytes →
      s'.find? (t.space :: other) = s.find? (t.space :: other) := by
    intro other hne
    rw [← Store.find?_part, turns.rows, SortedMap.find?_insert_of_ne _ _ hne, Store.find?_part]
  constructor
  case present =>
    intro other
    rw [on_has]
    by_cases hother : other.bytes = id.bytes
    · simp [SortedMap.contains, hother, hown]
    · rw [SortedMap.contains, hothers _ hother, SortedMap.contains,
        SortedMap.find?_insert_of_ne _ _ hother]
      exact congrArg (Except.ok · , s') (h.contains_row other.bytes)
  case others =>
    intro other hne
    have hother : other.bytes ≠ id.bytes := fun hsame => hne (congrArg RowId.mk hsame)
    rw [reported]
    cases hlive : live.find? other.bytes with
    | none =>
      apply on_get_of_not_stored
      rw [hothers _ hother, h.find?_row_of_absent hlive]
    | some row =>
      obtain ⟨stored', hstored', hrow⟩ := h.find?_row_of_live hlive
      rw [on_get_of_stored ((hothers _ hother).trans hstored'), hrow]
  case own =>
    refine ⟨stored, hmarshal, on_get_of_stored hown, fun reads => ?_⟩
    -- Only here need the stored bytes read back as the value.
    have hafter := h.insert hid reads taken turns
    exact ⟨hafter, hafter.reports⟩

theorem not_refuses_iff {id : RowId} {value : T} :
    (∀ e, ¬ t.Refuses indexers live id value e) ↔
      t.CanHold indexers value ∧ ∀ ix ∈ indexers, ¬ ix.KeyHeld live id value := by
  constructor
  · intro taken
    refine ⟨⟨?_, derives_of_not_refuses taken⟩, fun ix hix held => ?_⟩
    · cases hmarshal : t.codec.marshal value with
      | ok stored => exact ⟨stored, rfl⟩
      | error e => exact absurd (.inl hmarshal) (taken e)
    · exact taken _ (.inr ⟨ix, hix, .inr ⟨held, rfl⟩⟩)
  · intro given e found
    obtain ⟨⟨⟨stored, hmarshal⟩, derives⟩, free⟩ := given
    rcases found with herror | ⟨ix, hix, refused⟩
    · rw [hmarshal] at herror
      cases herror
    · obtain ⟨keys, hkeys⟩ := derives ix hix
      exact Indexer.not_refuses_of_free hkeys (free ix hix) e refused

theorem kind_of_refuses {id : RowId} {value : T} {e : Error}
    (can : t.CanHold indexers value) (refused : t.Refuses indexers live id value e) :
    e.kind = .uniqueConstraint := by
  obtain ⟨⟨stored, hmarshal⟩, derives⟩ := can
  rcases refused with herror | ⟨ix, hix, herror | ⟨_, rfl⟩⟩
  · rw [hmarshal] at herror
    cases herror
  · obtain ⟨keys, hkeys⟩ := derives ix hix
    rw [hkeys] at herror
    cases herror
  · rfl

/-- Which additions succeed, how those fail that clash with a live row, and what is live after. -/
structure CreateDecided (t : Table T) (indexers : List (Indexer T)) (live : LiveRows T)
    (s : Store) (id : RowId) (value : T) : Prop where
  succeeds_iff : ((t.create id value).on s).1 = .ok () ↔
    (1 ≤ id.bytes.length ∧ id.bytes.length ≤ 255) ∧ live.find? id.bytes = none ∧
      t.CanHold indexers value ∧
      ∀ ix ∈ indexers, ∀ other row, live.find? other = some row → ¬ ix.Clashes value row
  conflict : 1 ≤ id.bytes.length → id.bytes.length ≤ 255 → t.CanHold indexers value →
    (live.contains id.bytes ∨
      ∃ ix ∈ indexers, ∃ other row, live.find? other = some row ∧ ix.Clashes value row) →
    ∃ e, ((t.create id value).on s).1 = .error e ∧ e.kind = .uniqueConstraint
  after : ((t.create id value).on s).1 = .ok () →
    t.WriteSeen indexers live id value ((t.create id value).on s).2

structure SaveDecided (t : Table T) (indexers : List (Indexer T)) (live : LiveRows T)
    (s : Store) (id : RowId) (value : T) : Prop where
  succeeds_iff : ((t.save id value).on s).1 = .ok () ↔
    live.contains id.bytes ∧ t.CanHold indexers value ∧
      ∀ ix ∈ indexers, ∀ other row, live.find? other = some row → other ≠ id.bytes →
        ¬ ix.Clashes value row
  missing : live.find? id.bytes = none → ((t.save id value).on s).1 = .error .notFound
  conflict : live.contains id.bytes → t.CanHold indexers value →
    (∃ ix ∈ indexers, ∃ other row, live.find? other = some row ∧ other ≠ id.bytes ∧
      ix.Clashes value row) →
    ∃ e, ((t.save id value).on s).1 = .error e ∧ e.kind = .uniqueConstraint
  after : ((t.save id value).on s).1 = .ok () →
    t.WriteSeen indexers live id value ((t.save id value).on s).2

structure DeleteDecided (t : Table T) (indexers : List (Indexer T)) (live : LiveRows T)
    (s : Store) (id : RowId) : Prop where
  succeeds_iff : ((t.delete id).on s).1 = .ok () ↔ live.contains id.bytes
  missing : live.find? id.bytes = none → ((t.delete id).on s).1 = .error .notFound
  after : ((t.delete id).on s).1 = .ok () →
    t.Consistent indexers (live.erase id.bytes) ((t.delete id).on s).2 ∧
      t.Reports (live.erase id.bytes) ((t.delete id).on s).2

theorem valid_iff (id : RowId) : id.Valid ↔ 1 ≤ id.bytes.length ∧ id.bytes.length ≤ 255 := by
  rw [RowId.Valid, Nat.one_le_iff_ne_zero, Ne, Ne, List.length_eq_zero_iff]
  rfl

theorem free_iff_of_absent {id : RowId} {value : T} (absent : live.find? id.bytes = none) :
    (∀ ix ∈ indexers, ¬ ix.KeyHeld live id value) ↔
      ∀ ix ∈ indexers, ∀ other row, live.find? other = some row → ¬ ix.Clashes value row := by
  refine forall₂_congr fun ix hix => ?_
  rw [Indexer.keyHeld_iff]
  constructor
  · intro free other row hrow hclash
    refine free ⟨other, row, hrow, ?_, hclash⟩
    intro same
    subst same
    rw [absent] at hrow
    cases hrow
  · intro free found
    obtain ⟨other, row, hrow, _, hclash⟩ := found
    exact free other row hrow hclash

theorem contains_eq_false {id : Bytes} (absent : live.find? id = none) : ¬ live.contains id := by
  simp [SortedMap.contains, absent]

theorem create_decided (ht : t.IndexedBy indexers) (h : t.Consistent indexers live s) (id : RowId)
    (value : T) : t.CreateDecided indexers live s id value := by
  rcases create_cases ht h id value with
    ⟨e, s', hs, why⟩ | ⟨stored, s', hs, hid, absent, hmarshal, taken, turns⟩
  · constructor
    case succeeds_iff =>
      rw [hs]
      constructor
      · intro hok
        cases hok
      · intro found
        obtain ⟨hlength, absent, can, free⟩ := found
        rcases why with invalid | ⟨_, present, _⟩ | ⟨_, _, refused⟩
        · exact absurd ((valid_iff id).2 hlength) invalid
        · exact absurd present (contains_eq_false absent)
        · exact absurd refused (not_refuses_iff.2 ⟨can, (free_iff_of_absent absent).2 free⟩ e)
    case conflict =>
      intro hlow hhigh can _
      rw [hs]
      refine ⟨e, rfl, ?_⟩
      rcases why with invalid | ⟨_, _, rfl⟩ | ⟨_, _, refused⟩
      · exact absurd ((valid_iff id).2 ⟨hlow, hhigh⟩) invalid
      · rfl
      · exact kind_of_refuses can refused
    case after =>
      intro hok
      rw [hs] at hok
      cases hok
  · obtain ⟨can, free⟩ := not_refuses_iff.1 taken
    have apart := (free_iff_of_absent absent).1 free
    constructor
    case succeeds_iff =>
      rw [hs]
      exact ⟨fun _ => ⟨(valid_iff id).1 hid, absent, can, apart⟩, fun _ => rfl⟩
    case conflict =>
      intro _ _ _ found
      rcases found with present | ⟨ix, hix, other, row, hrow, hclash⟩
      · exact absurd present (contains_eq_false absent)
      · exact absurd hclash (apart ix hix other row hrow)
    case after =>
      intro _
      rw [hs]
      exact h.writeSeen hid hmarshal taken turns

theorem Consistent.of_create (ht : t.IndexedBy indexers) (hcodec : t.codec.RoundTrips)
    (h : t.Consistent indexers live s) {id : RowId} {value : T}
    (hok : ((t.create id value).on s).1 = .ok ()) :
    t.Consistent indexers (live.insert id.bytes value) ((t.create id value).on s).2 := by
  obtain ⟨stored, hmarshal, _, reads⟩ := ((create_decided ht h id value).after hok).own
  exact (reads (hcodec value stored hmarshal)).1

theorem save_decided (ht : t.IndexedBy indexers) (h : t.Consistent indexers live s) (id : RowId)
    (value : T) : t.SaveDecided indexers live s id value := by
  have free_iff : (∀ ix ∈ indexers, ¬ ix.KeyHeld live id value) ↔
      ∀ ix ∈ indexers, ∀ other row, live.find? other = some row → other ≠ id.bytes →
        ¬ ix.Clashes value row := by
    simp only [Indexer.keyHeld_iff, not_exists, not_and]
  rcases save_cases ht h id value with
    ⟨e, s', hs, why⟩ | ⟨stored, s', hs, present, hmarshal, taken, turns⟩
  · constructor
    case succeeds_iff =>
      rw [hs]
      constructor
      · intro hok
        cases hok
      · intro found
        obtain ⟨present, can, free⟩ := found
        rcases why with ⟨absent, _⟩ | ⟨_, refused⟩
        · exact absurd present (contains_eq_false absent)
        · exact absurd refused (not_refuses_iff.2 ⟨can, free_iff.2 free⟩ e)
    case missing =>
      intro absent
      rcases why with ⟨_, rfl⟩ | ⟨present, _⟩
      · rw [hs]
      · exact absurd present (contains_eq_false absent)
    case conflict =>
      intro present can _
      rw [hs]
      refine ⟨e, rfl, ?_⟩
      rcases why with ⟨absent, _⟩ | ⟨_, refused⟩
      · exact absurd present (contains_eq_false absent)
      · exact kind_of_refuses can refused
    case after =>
      intro hok
      rw [hs] at hok
      cases hok
  · obtain ⟨can, free⟩ := not_refuses_iff.1 taken
    have apart := free_iff.1 free
    constructor
    case succeeds_iff =>
      rw [hs]
      exact ⟨fun _ => ⟨present, can, apart⟩, fun _ => rfl⟩
    case missing => exact fun absent => absurd present (contains_eq_false absent)
    case conflict =>
      intro _ _ found
      obtain ⟨ix, hix, other, row, hrow, hne, hclash⟩ := found
      exact absurd hclash (apart ix hix other row hrow hne)
    case after =>
      intro _
      rw [hs]
      obtain ⟨old, hold⟩ := Option.isSome_iff_exists.1 present
      exact h.writeSeen (h.valid id.bytes old hold) hmarshal taken turns

theorem delete_decided (ht : t.IndexedBy indexers) (h : t.Consistent indexers live s)
    (id : RowId) : t.DeleteDecided indexers live s id := by
  rcases delete_cases ht h id with ⟨absent, hs⟩ | ⟨s', hs, present, turns⟩
  · constructor
    case succeeds_iff =>
      rw [hs]
      constructor
      · intro hok
        cases hok
      · exact fun present => absurd present (contains_eq_false absent)
    case missing =>
      intro _
      rw [hs]
    case after =>
      intro hok
      rw [hs] at hok
      cases hok
  · constructor
    case succeeds_iff =>
      rw [hs]
      exact ⟨fun _ => present, fun _ => rfl⟩
    case missing => exact fun absent => absurd present (contains_eq_false absent)
    case after =>
      intro _
      rw [hs]
      have hafter := h.erase turns
      exact ⟨hafter, hafter.reports⟩

/-- On a table in step with its indexes, the live rows alone decide which writes succeed, and a
write that succeeds changes them at its own row and nowhere else. -/
theorem writes_decided_by_live_rows (ht : t.IndexedBy indexers)
    (h : t.Consistent indexers live s) (id : RowId) (value : T) :
    t.CreateDecided indexers live s id value ∧ t.SaveDecided indexers live s id value ∧
      t.DeleteDecided indexers live s id :=
  ⟨create_decided ht h id value, save_decided ht h id value, delete_decided ht h id⟩

end Table

def wordCodec : Codec Bytes := ⟨.ok, .ok, fun word => .ok (.ofBytes word), Json.bytes?, 48⟩

theorem wordCodec_roundTrips : wordCodec.RoundTrips := by
  intro word stored h
  cases h
  rfl

/-- Many words may have a letter. -/
def letters : Indexer Bytes := ⟨0x02, .multiKey, fun word => .ok (word.map fun letter => [letter])⟩

/-- One word may have an initial. -/
def initials : Indexer Bytes := ⟨0x03, .unique, fun word => .ok [word.take 1]⟩

def wordIndexers : List (Indexer Bytes) := [letters, initials]

def words : Table Bytes := ⟨⟨0x01, wordCodec⟩, wordIndexers.map Indexer.observer⟩

theorem words_indexedBy : words.IndexedBy wordIndexers := ⟨rfl, by decide⟩

/-- Beside the word `ab`, the word `a` is refused for its initial. -/
theorem words_decided :
    let live : LiveRows Bytes := SortedMap.insert .empty [1] [0x61, 0x62]
    let s := ((words.create ⟨[1]⟩ [0x61, 0x62]).on .empty).2
    words.IndexedBy wordIndexers ∧ words.Consistent wordIndexers live s ∧
      (words.CreateDecided wordIndexers live s ⟨[2]⟩ [0x61] ∧
        words.SaveDecided wordIndexers live s ⟨[2]⟩ [0x61] ∧
        words.DeleteDecided wordIndexers live s ⟨[2]⟩) ∧
      ((words.create ⟨[2]⟩ [0x61]).on s).1 = .error (.keyTaken 0x03) := by
  have consistent : words.Consistent wordIndexers (SortedMap.insert .empty [1] [0x61, 0x62])
      ((words.create ⟨[1]⟩ [0x61, 0x62]).on .empty).2 :=
    (Table.consistent_empty words wordIndexers).of_create words_indexedBy wordCodec_roundTrips rfl
  exact ⟨words_indexedBy, consistent,
    Table.writes_decided_by_live_rows words_indexedBy consistent ⟨[2]⟩ [0x61], rfl⟩

end IndexedTables
