import Mathlib.Data.List.Nodup
import IndexedTables.Proofs.EntryCodes
import IndexedTables.Proofs.FailStop
set_option autoImplicit false

namespace IndexedTables

variable {T : Type}

namespace Indexer

variable {ix : Indexer T} {id : RowId} {key : Bytes} {s s' : Store}

theorem add_cases (h : (ix.add id key).Reaches s s') : s' = s ∨
    (ix.policy = .multiKey ∧ ∃ entry, (IndexEntry.mk key id).encode = .ok entry ∧
      s' = s.insert (ix.space :: entry) []) ∨
    (ix.policy = .unique ∧ s.contains (ix.space :: key) = false ∧
      s' = s.insert (ix.space :: key) id.bytes) := by
  unfold add at h
  cases hpolicy : ix.policy with
  | multiKey =>
    simp only [hpolicy, Op.inSpace_bind, Op.inSpace_has] at h
    rcases Op.reaches_lift h with same | ⟨entry, hentry, h⟩
    · exact .inl same
    rcases Op.reaches_has h with same | h
    · exact .inl same
    cases hcontains : s.contains (ix.space :: entry) with
    | true =>
      simp only [hcontains, Bool.not_true, Bool.false_eq_true, if_false, Op.inSpace_pure] at h
      exact .inl (Op.eq_of_reaches_pure h)
    | false =>
      simp only [hcontains, Bool.not_false, if_true, Op.inSpace_set] at h
      exact (Op.reaches_set h).imp_right fun hset => .inl ⟨rfl, entry, hentry, hset⟩
  | unique =>
    simp only [hpolicy, Op.inSpace_bind, Op.inSpace_has] at h
    rcases Op.reaches_has h with same | h
    · exact .inl same
    cases hcontains : s.contains (ix.space :: key) with
    | true =>
      rw [hcontains] at h
      exact .inl (Op.eq_of_reaches_throw h)
    | false =>
      rw [hcontains] at h
      exact (Op.reaches_set h).imp_right fun hset => .inr ⟨rfl, rfl, hset⟩

theorem remove_cases (h : (ix.remove id key).Reaches s s') : s' = s ∨
    (ix.policy = .multiKey ∧ ∃ entry, (IndexEntry.mk key id).encode = .ok entry ∧
      s' = s.erase (ix.space :: entry)) ∨
    (ix.policy = .unique ∧ s.find? (ix.space :: key) = some id.bytes ∧
      s' = s.erase (ix.space :: key)) := by
  unfold remove at h
  cases hpolicy : ix.policy with
  | multiKey =>
    simp only [hpolicy, Op.inSpace_bind, Op.inSpace_delete] at h
    rcases Op.reaches_lift h with same | ⟨entry, hentry, h⟩
    · exact .inl same
    · exact (Op.reaches_delete h).imp_right fun herase => .inl ⟨rfl, entry, hentry, herase⟩
  | unique =>
    simp only [hpolicy, Op.inSpace_bind, Op.inSpace_get] at h
    rcases Op.reaches_get h with same | h
    · exact .inl same
    by_cases own : s.find? (ix.space :: key) = some id.bytes
    · rw [if_pos own] at h
      exact (Op.reaches_delete h).imp_right fun herase => .inr ⟨rfl, own, herase⟩
    · rw [if_neg own] at h
      exact .inl (Op.eq_of_reaches_pure h)

/-- Beside the entries of this row, the index is as it was. -/
structure KeepsOthers (ix : Indexer T) (id : RowId) (s s' : Store) : Prop where
  /-- Whatever does not name the row, be it an entry or not, is there exactly if it was. -/
  multiKey : ix.policy = .multiKey → ∀ entry, (∀ key, IndexEntry.decode entry ≠ .ok ⟨key, id⟩) →
    s'.find? (ix.space :: entry) = s.find? (ix.space :: entry)
  unique : ix.policy = .unique → ∀ key owner, owner ≠ id →
    (s'.find? (ix.space :: key) = some owner.bytes ↔ s.find? (ix.space :: key) = some owner.bytes)

theorem KeepsOthers.trans {s'' : Store} (h : ix.KeepsOthers id s s')
    (h' : ix.KeepsOthers id s' s'') : ix.KeepsOthers id s s'' where
  multiKey hpolicy entry hentry :=
    (h'.multiKey hpolicy entry hentry).trans (h.multiKey hpolicy entry hentry)
  unique hpolicy key owner howner :=
    (h'.unique hpolicy key owner howner).trans (h.unique hpolicy key owner howner)

theorem keepsOthers_of_sameBut {spaces : List Space} (frame : Store.SameBut spaces s s')
    (apart : ix.space ∉ spaces) : ix.KeepsOthers id s s' := by
  have same : ∀ key, s'.find? (ix.space :: key) = s.find? (ix.space :: key) := fun key =>
    frame _ fun space hspace hbegins => apart (by simp_all)
  exact ⟨fun _ entry _ => same entry, fun _ key _ _ => by rw [same]⟩

structure Moves (ix : Indexer T) (id : RowId) (s s' : Store) : Prop
    extends ix.KeepsOthers id s s' where
  elsewhere : Store.SameBut [ix.space] s s'

instance (ix : Indexer T) (id : RowId) : IsPreorder Store (ix.Moves id) where
  refl s := ⟨keepsOthers_of_sameBut (.refl [] s) (by simp), .refl _ s⟩
  trans _ _ _ h h' := ⟨h.toKeepsOthers.trans h'.toKeepsOthers, h.elsewhere.trans h'.elsewhere⟩

theorem moves_of_entry (hpolicy : ix.policy = .multiKey) {entry : Bytes}
    (hentry : IndexEntry.decode entry = .ok ⟨key, id⟩)
    (hother : ∀ other, other ≠ ix.space :: entry → s'.find? other = s.find? other) :
    ix.Moves id s s' where
  multiKey _ other hnames := hother _ fun same => hnames key (by simp_all)
  unique hunique := by simp [hpolicy] at hunique
  elsewhere other hspace := hother _ fun same => hspace ix.space (by simp) (by simp [same])

theorem moves_of_key (hpolicy : ix.policy = .unique)
    (before : ∀ owner, s.find? (ix.space :: key) = some owner → owner = id.bytes)
    (after : ∀ owner, s'.find? (ix.space :: key) = some owner → owner = id.bytes)
    (hother : ∀ other, other ≠ ix.space :: key → s'.find? other = s.find? other) :
    ix.Moves id s s' where
  multiKey hmulti := by simp [hpolicy] at hmulti
  unique _ other owner howner := by
    have not_own : owner.bytes ≠ id.bytes := fun same => howner (congrArg RowId.mk same)
    by_cases hkey : other = key
    · subst hkey
      exact ⟨fun h => absurd (after _ h) not_own, fun h => absurd (before _ h) not_own⟩
    · rw [hother _ (by simpa using hkey)]
  elsewhere other hspace := hother _ fun same => hspace ix.space (by simp) (by simp [same])

theorem obeys_add (ix : Indexer T) (id : RowId) (key : Bytes) :
    (ix.add id key).Obeys (ix.Moves id) := by
  intro s s' h
  rcases add_cases h with rfl | ⟨hpolicy, entry, hentry, rfl⟩ | ⟨hpolicy, habsent, rfl⟩
  · exact refl _
  · exact moves_of_entry hpolicy (IndexEntry.decode_of_encode hentry) fun other hother =>
      SortedMap.find?_insert_of_ne s [] hother
  · refine moves_of_key hpolicy (fun owner howner => ?_) (fun owner howner => ?_)
      fun other hother => SortedMap.find?_insert_of_ne s id.bytes hother
    · simp [SortedMap.contains, howner] at habsent
    · simpa using howner.symm

theorem obeys_remove (ix : Indexer T) (id : RowId) (key : Bytes) :
    (ix.remove id key).Obeys (ix.Moves id) := by
  intro s s' h
  rcases remove_cases h with rfl | ⟨hpolicy, entry, hentry, rfl⟩ | ⟨hpolicy, hown, rfl⟩
  · exact refl _
  · exact moves_of_entry hpolicy (IndexEntry.decode_of_encode hentry) fun other hother =>
      SortedMap.find?_erase_of_ne s hother
  · refine moves_of_key hpolicy (fun owner howner => ?_) (fun owner howner => ?_)
      fun other hother => SortedMap.find?_erase_of_ne s hother
    · simpa [hown] using howner.symm
    · simp at howner

end Indexer

namespace Table

/-- Beside the row and its index entries, all is as it was. -/
structure KeepsOthers (t : Table T) (indexers : List (Indexer T)) (id : RowId)
    (s s' : Store) : Prop where
  rows : ∀ other, other ≠ id → s'.find? (t.space :: other.bytes) = s.find? (t.space :: other.bytes)
  entries : ∀ ix ∈ indexers, ix.KeepsOthers id s s'
  elsewhere : Store.SameBut (t.space :: indexers.map (·.space)) s s'

variable {t : Table T} {indexers : List (Indexer T)} {id : RowId} {s s' : Store}

instance (t : Table T) (indexers : List (Indexer T)) (id : RowId) :
    IsPreorder Store (t.KeepsOthers indexers id) where
  refl s := ⟨fun _ _ => rfl,
    fun _ _ => Indexer.keepsOthers_of_sameBut (.refl [] s) (by simp), .refl _ s⟩
  trans _ _ _ h h' := ⟨fun other hother => (h'.rows other hother).trans (h.rows other hother),
    fun ix hix => (h.entries ix hix).trans (h'.entries ix hix), h.elsewhere.trans h'.elsewhere⟩

theorem IndexedBy.keepsOthers_of_moves (ht : t.IndexedBy indexers) {ix : Indexer T}
    (hix : ix ∈ indexers) (h : ix.Moves id s s') : t.KeepsOthers indexers id s s' where
  rows other _ := by
    have hspace := ht.space_ne hix
    exact h.elsewhere _ (by simpa using hspace)
  entries other hother := by
    by_cases hspace : other.space = ix.space
    · rw [List.inj_on_of_nodup_map (List.nodup_cons.1 ht.spaces).2 hother hix hspace]
      exact h.toKeepsOthers
    · exact Indexer.keepsOthers_of_sameBut h.elsewhere (by simpa using hspace)
  elsewhere := by
    refine h.elsewhere.mono fun space hspace => ?_
    cases List.mem_singleton.1 hspace
    exact List.mem_cons_of_mem _ (List.mem_map_of_mem hix)

theorem IndexedBy.keepsOthers_of_row (ht : t.IndexedBy indexers)
    (hother : ∀ other, other ≠ t.space :: id.bytes → s'.find? other = s.find? other) :
    t.KeepsOthers indexers id s s' := by
  have frame : Store.SameBut [t.space] s s' := fun other hspace =>
    hother _ fun same => hspace t.space (by simp) (by simp [same])
  refine ⟨fun other hne => ?_, fun ix hix => ?_, frame.mono (by simp)⟩
  · exact hother _ fun same => hne (congrArg RowId.mk (List.cons.inj same).2)
  · exact Indexer.keepsOthers_of_sameBut frame (by simpa using ht.space_ne hix)

theorem IndexedBy.obeys_set (ht : t.IndexedBy indexers) (id : RowId) (stored : Bytes) :
    ((Op.set id.bytes stored).inSpace t.space).Obeys (t.KeepsOthers indexers id) := by
  intro s s' h
  rcases Op.reaches_set h with rfl | rfl
  · exact refl _
  · exact ht.keepsOthers_of_row fun other hother => SortedMap.find?_insert_of_ne s stored hother

theorem IndexedBy.obeys_erase (ht : t.IndexedBy indexers) (id : RowId) :
    ((Op.delete id.bytes).inSpace t.space).Obeys (t.KeepsOthers indexers id) := by
  intro s s' h
  rcases Op.reaches_delete h with rfl | rfl
  · exact refl _
  · exact ht.keepsOthers_of_row fun other hother => SortedMap.find?_erase_of_ne s hother

theorem IndexedBy.obeys_observer (ht : t.IndexedBy indexers) (id : RowId) {o : Observer T}
    (ho : o ∈ t.observers) :
    (∀ new old, (o.saved id new old).Obeys (t.KeepsOthers indexers id)) ∧
      ∀ old, (o.removed id old).Obeys (t.KeepsOthers indexers id) := by
  rw [ht.observers] at ho
  obtain ⟨ix, hix, rfl⟩ := List.mem_map.1 ho
  have add key := (ix.obeys_add id key).mono fun s s' => ht.keepsOthers_of_moves hix
  have remove key := (ix.obeys_remove id key).mono fun s s' => ht.keepsOthers_of_moves hix
  exact ⟨Op.obeys_closed.saved add remove, Op.obeys_closed.removed remove⟩

theorem IndexedBy.obeys_write (ht : t.IndexedBy indexers) (id : RowId) (value : T)
    (old : Option T) : (t.write id value old).Obeys (t.KeepsOthers indexers id) :=
  Op.obeys_closed.write (ht.obeys_set id) fun _ ho => (ht.obeys_observer id ho).1 value old

theorem IndexedBy.obeys_create (ht : t.IndexedBy indexers) (id : RowId) (value : T) :
    (t.create id value).Obeys (t.KeepsOthers indexers id) :=
  Op.obeys_closed.create (Op.obeys_has _) (ht.obeys_write id value none)

theorem IndexedBy.obeys_save (ht : t.IndexedBy indexers) (id : RowId) (value : T) :
    (t.save id value).Obeys (t.KeepsOthers indexers id) :=
  Op.obeys_closed.save (Op.obeys_get _) fun old => ht.obeys_write id value (some old)

theorem IndexedBy.obeys_delete (ht : t.IndexedBy indexers) (id : RowId) :
    (t.delete id).Obeys (t.KeepsOthers indexers id) :=
  Op.obeys_closed.delete (Op.obeys_get _) (ht.obeys_erase id) fun _ ho =>
    (ht.obeys_observer id ho).2

/-- Whatever the store holds and whatever fails, a write to one row leaves all other rows, and the
index entries that do not name it, as they were. -/
theorem writes_keep_other_rows (ht : t.IndexedBy indexers) (plan : FaultPlan) (d : Disk)
    (id : RowId) (value : T) :
    t.KeepsOthers indexers id d.store ((t.create id value).onDisk plan d).2.store ∧
      t.KeepsOthers indexers id d.store ((t.save id value).onDisk plan d).2.store ∧
      t.KeepsOthers indexers id d.store ((t.delete id).onDisk plan d).2.store :=
  ⟨ht.obeys_create id value _ _ ⟨plan, d, rfl, rfl⟩, ht.obeys_save id value _ _ ⟨plan, d, rfl, rfl⟩,
    ht.obeys_delete id _ _ ⟨plan, d, rfl, rfl⟩⟩

end Table

/-- The word `a` under the id `01`, and its keys in the hands of `02`, where there is no row. -/
def disputed : Store :=
  .ofList [([0x01, 1], [0x61]), ([0x02, 0x61, 2, 1], []), ([0x03, 0x61], [2])]

theorem disputed_kept :
    let s := ((words.delete ⟨[1]⟩).onDisk (jamming 3 []) (.ofStore disputed)).2.store
    words.IndexedBy wordIndexers ∧ s.find? [0x02, 0x61, 2, 1] = some [] ∧
      s.find? [0x03, 0x61] = some [2] := by
  obtain ⟨_, _, kept⟩ := Table.writes_keep_other_rows words_indexedBy (jamming 3 [])
    (.ofStore disputed) ⟨[1]⟩ []
  have entry := (kept.entries letters (by simp [wordIndexers])).multiKey rfl [0x61, 2, 1]
    (by simp [IndexEntry.decode])
  have key := (kept.entries initials (by simp [wordIndexers])).unique rfl [0x61] ⟨[2]⟩ (by simp)
  exact ⟨words_indexedBy, entry.trans rfl, key.2 rfl⟩

end IndexedTables
