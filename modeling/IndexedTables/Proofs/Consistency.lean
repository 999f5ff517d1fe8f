import IndexedTables.Proofs.IndexEntries
set_option autoImplicit false

namespace IndexedTables

abbrev LiveRows (T : Type) := SortedMap Bytes T

theorem KeySet.mem_without {a b : KeySet} {key : Bytes} :
    key ∈ a.without b ↔ key ∈ a.keys ∧ key ∉ b.keys := by
  simp [KeySet.without, ← SortedMap.contains_iff_mem_keys (m := b)]

theorem KeySet.without_nodup (a b : KeySet) : (a.without b).Nodup :=
  a.keys_nodup.filter _

namespace Indexer

variable {T : Type}

/-- The value is entered under the key. An empty key counts for nothing. -/
def Derives (ix : Indexer T) (value : T) (key : Bytes) : Prop :=
  key ≠ [] ∧ ∃ keys, ix.keys value = .ok keys ∧ key ∈ keys

def entriesOf (ix : Indexer T) (live : LiveRows T) : Set IndexEntry :=
  {e | ∃ value, live.find? e.id.bytes = some value ∧ ix.Derives value e.key}

/-- In a unique index, another live row has a key that the value derives. -/
def KeyHeld (ix : Indexer T) (live : LiveRows T) (id : RowId) (value : T) : Prop :=
  ix.policy = .unique ∧ ∃ e ∈ ix.entriesOf live, e.id ≠ id ∧ ix.Derives value e.key

/-- In a unique index the values have a key in common, so only one of them can be live. -/
def Clashes (ix : Indexer T) (a b : T) : Prop :=
  ix.policy = .unique ∧ ∃ key, ix.Derives a key ∧ ix.Derives b key

/-- Why an index does not take the value for a row. -/
def Refuses (ix : Indexer T) (live : LiveRows T) (id : RowId) (value : T) (e : Error) : Prop :=
  ix.keys value = .error e ∨ ix.KeyHeld live id value ∧ e = .keyTaken ix.space

variable {ix : Indexer T} {live : LiveRows T} {s : Store} {id : RowId} {value old : T}

theorem keySet_of_error {e : Error} (h : ix.keys value = .error e) :
    ix.keySet value = .error e := by
  unfold keySet
  rw [h]
  rfl

theorem keySet_of_ok {keys : List Bytes} (h : ix.keys value = .ok keys) :
    ∃ set, ix.keySet value = .ok set ∧ ∀ key, key ∈ set.keys ↔ ix.Derives value key := by
  refine ⟨SortedMap.ofList ((keys.filter (· ≠ [])).map fun key => (key, ())), ?_, fun key => ?_⟩
  · unfold keySet
    rw [h]
    rfl
  · simp [SortedMap.mem_keys_ofList, Derives, h, and_comm]

theorem mem_entriesOf_insert (e : IndexEntry) :
    e ∈ ix.entriesOf (live.insert id.bytes value) ↔
      e.id = id ∧ ix.Derives value e.key ∨ e.id ≠ id ∧ e ∈ ix.entriesOf live := by
  obtain ⟨key, ⟨i⟩⟩ := e
  obtain ⟨j⟩ := id
  by_cases h : i = j
  · subst h; simp [entriesOf]
  · simp [entriesOf, SortedMap.find?_insert_of_ne live value h, h]

theorem mem_entriesOf_erase (e : IndexEntry) :
    e ∈ ix.entriesOf (live.erase id.bytes) ↔ e.id ≠ id ∧ e ∈ ix.entriesOf live := by
  obtain ⟨key, ⟨i⟩⟩ := e
  obtain ⟨j⟩ := id
  by_cases h : i = j
  · subst h; simp [entriesOf]
  · simp [entriesOf, SortedMap.find?_erase_of_ne live h, h]

theorem mem_entriesOf_iff (present : live.find? id.bytes = some old) {e : IndexEntry}
    (he : e.id = id) : e ∈ ix.entriesOf live ↔ ix.Derives old e.key := by
  subst he
  simp [entriesOf, present]

theorem id_ne_of_mem (absent : live.find? id.bytes = none) {e : IndexEntry}
    (he : e ∈ ix.entriesOf live) : e.id ≠ id := by
  intro same
  subst same
  obtain ⟨v, hv, _⟩ := he
  rw [absent] at hv
  cases hv

theorem keyHeld_iff : ix.KeyHeld live id value ↔
    ∃ other row, live.find? other = some row ∧ other ≠ id.bytes ∧ ix.Clashes value row := by
  constructor
  · intro found
    obtain ⟨hunique, ⟨key, ⟨other⟩⟩, ⟨row, hrow, hkey⟩, hne, hvalue⟩ := found
    exact ⟨other, row, hrow, fun hsame => hne (congrArg RowId.mk hsame), hunique, key, hvalue, hkey⟩
  · intro found
    obtain ⟨other, row, hrow, hne, hunique, key, hvalue, hkey⟩ := found
    exact ⟨hunique, ⟨key, ⟨other⟩⟩, ⟨row, hrow, hkey⟩,
      fun hsame => hne (congrArg RowId.bytes hsame), hvalue⟩

theorem not_refuses_of_free {keys : List Bytes} (h : ix.keys value = .ok keys)
    (free : ¬ ix.KeyHeld live id value) (e : Error) : ¬ ix.Refuses live id value e := by
  intro found
  rcases found with herror | ⟨held, _⟩
  · rw [h] at herror
    cases herror
  · exact free held

theorem create_cases (h : ix.policy.Keeps (ix.entriesOf live) (s.part ix.space)) (hid : id.Valid)
    (absent : live.find? id.bytes = none) :
    (∃ e s', (ix.create id value).on s = (.error e, s') ∧ ix.Refuses live id value e) ∨
    ∃ s', (ix.create id value).on s = (.ok (), s') ∧ (∀ e, ¬ ix.Refuses live id value e) ∧
      ix.Turns (ix.entriesOf (live.insert id.bytes value)) s s' := by
  cases hkeys : ix.keys value with
  | error e =>
    refine .inl ⟨e, s, ?_, .inl hkeys⟩
    simp [create, Op.on_bind, keySet_of_error hkeys]
  | ok keys =>
    obtain ⟨set, hset, mem⟩ := keySet_of_ok hkeys
    have hrun : (ix.create id value).on s = (set.keys.forM (ix.add id)).on s := by
      simp [create, Op.on_bind, hset]
    rw [hrun]
    by_cases held : ix.KeyHeld live id value
    · obtain ⟨hunique, e, he, hne, hkey⟩ := held
      obtain ⟨s', hs⟩ := on_forM_add_of_taken h hid ⟨e.key, (mem _).2 hkey, hunique, e, he, rfl⟩
      exact .inl ⟨_, s', hs, .inr ⟨⟨hunique, e, he, hne, hkey⟩, rfl⟩⟩
    · have free : ∀ key ∈ set.keys, ¬ ix.Taken (ix.entriesOf live) key := by
        intro key hkey found
        obtain ⟨hunique, e, he, rfl⟩ := found
        exact held ⟨hunique, e, he, id_ne_of_mem absent he, (mem _).1 hkey⟩
      obtain ⟨s', hs, turns⟩ := on_forM_add h hid set.keys_nodup free
      have hentries : ix.entriesOf live ∪ entriesAt id set.keys =
          ix.entriesOf (live.insert id.bytes value) := by
        ext e
        rw [mem_entriesOf_insert, Set.mem_union, entriesAt, Set.mem_ofPred_eq, mem]
        constructor
        · intro found
          rcases found with he | he
          · exact .inr ⟨id_ne_of_mem absent he, he⟩
          · exact .inl he
        · intro found
          rcases found with he | ⟨_, he⟩
          · exact .inr he
          · exact .inl he
      exact .inr ⟨s', hs, not_refuses_of_free hkeys held, hentries ▸ turns⟩

theorem update_cases (h : ix.policy.Keeps (ix.entriesOf live) (s.part ix.space)) (hid : id.Valid)
    (present : live.find? id.bytes = some old) {oldKeys : List Bytes}
    (hold : ix.keys old = .ok oldKeys) :
    (∃ e s', (ix.update id value old).on s = (.error e, s') ∧ ix.Refuses live id value e) ∨
    ∃ s', (ix.update id value old).on s = (.ok (), s') ∧ (∀ e, ¬ ix.Refuses live id value e) ∧
      ix.Turns (ix.entriesOf (live.insert id.bytes value)) s s' := by
  cases hkeys : ix.keys value with
  | error e =>
    refine .inl ⟨e, s, ?_, .inl hkeys⟩
    simp [update, Op.on_bind, keySet_of_error hkeys]
  | ok keys =>
    obtain ⟨new, hnew, memNew⟩ := keySet_of_ok hkeys
    obtain ⟨prior, hprior, memPrior⟩ := keySet_of_ok hold
    obtain ⟨s₁, h₁, turns₁⟩ := on_forM_remove h hid (prior.without new)
    have hrun : (ix.update id value old).on s = ((new.without prior).forM (ix.add id)).on s₁ := by
      simp only [update, Op.on_bind, Op.on_lift, hnew, hprior, h₁]
    rw [hrun]
    by_cases held : ix.KeyHeld live id value
    · obtain ⟨hunique, e, he, hne, hkey⟩ := held
      -- The key is held by another row, so it is new to this one and not among those that stay.
      have not_own : ¬ ix.Derives old e.key := by
        intro hown
        have hmem : ⟨e.key, id⟩ ∈ ix.entriesOf live := (mem_entriesOf_iff present rfl).2 hown
        exact hne (congrArg IndexEntry.id ((hunique ▸ h).owner_eq he hmem rfl))
      have added : e.key ∈ new.without prior :=
        KeySet.mem_without.2 ⟨(memNew _).2 hkey, mt (memPrior _).1 not_own⟩
      -- Taking this row from the keys that it loses does not free the key.
      have stays : e ∈ ix.entriesOf live \ entriesAt id (prior.without new) :=
        ⟨he, fun hat => hne hat.1⟩
      obtain ⟨s', hs⟩ := on_forM_add_of_taken turns₁.kept hid ⟨e.key, added, hunique, e, stays, rfl⟩
      exact .inl ⟨_, s', hs, .inr ⟨⟨hunique, e, he, hne, hkey⟩, rfl⟩⟩
    · have free : ∀ key ∈ new.without prior,
          ¬ ix.Taken (ix.entriesOf live \ entriesAt id (prior.without new)) key := by
        intro key hadded found
        obtain ⟨hunique, e, ⟨he, _⟩, rfl⟩ := found
        obtain ⟨hkey, not_own⟩ := KeySet.mem_without.1 hadded
        refine held ⟨hunique, e, he, fun hid => not_own ?_, (memNew _).1 hkey⟩
        exact (memPrior _).2 ((mem_entriesOf_iff present hid).1 he)
      obtain ⟨s', hs, turns⟩ := on_forM_add turns₁.kept hid (new.without_nodup prior) free
      have hentries : ix.entriesOf live \ entriesAt id (prior.without new) ∪
          entriesAt id (new.without prior) = ix.entriesOf (live.insert id.bytes value) := by
        ext e
        simp only [mem_entriesOf_insert, Set.mem_union, Set.mem_sdiff, entriesAt, Set.mem_ofPred_eq,
          KeySet.mem_without, memNew, memPrior]
        by_cases hid : e.id = id
        · rw [mem_entriesOf_iff present hid]
          grind
        · grind
      exact .inr ⟨s', hs, not_refuses_of_free hkeys held, hentries ▸ turns₁.trans turns⟩

theorem on_delete (h : ix.policy.Keeps (ix.entriesOf live) (s.part ix.space)) (hid : id.Valid)
    (present : live.find? id.bytes = some old) {oldKeys : List Bytes}
    (hold : ix.keys old = .ok oldKeys) :
    ∃ s', (ix.delete id old).on s = (.ok (), s') ∧
      ix.Turns (ix.entriesOf (live.erase id.bytes)) s s' := by
  obtain ⟨prior, hprior, mem⟩ := keySet_of_ok hold
  obtain ⟨s', hs, turns⟩ := on_forM_remove h hid prior.keys
  have hentries : ix.entriesOf live \ entriesAt id prior.keys =
      ix.entriesOf (live.erase id.bytes) := by
    ext e
    simp only [mem_entriesOf_erase, Set.mem_sdiff, entriesAt, Set.mem_ofPred_eq, mem]
    by_cases hid : e.id = id
    · rw [mem_entriesOf_iff present hid]
      grind
    · grind
  refine ⟨s', ?_, hentries ▸ turns⟩
  simpa only [delete, Op.on_bind, Op.on_lift, hprior] using hs

theorem saved_cases (h : ix.policy.Keeps (ix.entriesOf live) (s.part ix.space)) (hid : id.Valid)
    (derives : ∀ old, live.find? id.bytes = some old → ∃ keys, ix.keys old = .ok keys)
    (value : T) :
    (∃ e s', (ix.observer.saved id value (live.find? id.bytes)).on s = (.error e, s') ∧
      ix.Refuses live id value e) ∨
    ∃ s', (ix.observer.saved id value (live.find? id.bytes)).on s = (.ok (), s') ∧
      (∀ e, ¬ ix.Refuses live id value e) ∧
      ix.Turns (ix.entriesOf (live.insert id.bytes value)) s s' := by
  cases hfind : live.find? id.bytes with
  | none => exact create_cases h hid hfind
  | some old =>
    obtain ⟨keys, hkeys⟩ := derives old hfind
    exact update_cases h hid hfind hkeys

/-- Every index holds the entries of the live rows. -/
def InStep (indexers : List (Indexer T)) (live : LiveRows T) (s : Store) : Prop :=
  ∀ ix ∈ indexers, ix.policy.Keeps (ix.entriesOf live) (s.part ix.space)

theorem InStep.of_sameBut {indexers : List (Indexer T)} {s' : Store} {spaces : List Space}
    (h : InStep indexers live s) (frame : Store.SameBut spaces s s')
    (apart : ∀ ix ∈ indexers, ix.space ∉ spaces) : InStep indexers live s' := by
  intro ix hix
  rw [frame.part (apart ix hix)]
  exact h ix hix

theorem InStep.of_space {indexers : List (Indexer T)} {s' : Store} {space : Space}
    (h : InStep indexers live s) (hnew : space ∉ indexers.map (·.space))
    (frame : Store.SameBut [space] s s') : InStep indexers live s' := by
  refine h.of_sameBut frame fun ix hix hspace => hnew ?_
  exact List.mem_map.2 ⟨ix, hix, List.mem_singleton.1 hspace⟩

theorem InStep.tail {rest : List (Indexer T)} {s' : Store} (h : InStep (ix :: rest) live s)
    (hnew : ix.space ∉ rest.map (·.space)) (frame : Store.SameBut [ix.space] s s') :
    InStep rest live s' := by
  have hrest : InStep rest live s := fun other hother => h other (List.mem_cons_of_mem _ hother)
  exact hrest.of_space hnew frame

theorem forM_saved_cases {indexers : List (Indexer T)} (spaces : (indexers.map (·.space)).Nodup)
    (h : InStep indexers live s) (hid : id.Valid)
    (derives : ∀ ix ∈ indexers, ∀ old, live.find? id.bytes = some old →
      ∃ keys, ix.keys old = .ok keys) (value : T) :
    (∃ e s', ((indexers.map observer).forM fun o =>
        o.saved id value (live.find? id.bytes)).on s = (.error e, s') ∧
      ∃ ix ∈ indexers, ix.Refuses live id value e) ∨
    ∃ s', ((indexers.map observer).forM fun o =>
        o.saved id value (live.find? id.bytes)).on s = (.ok (), s') ∧
      (∀ ix ∈ indexers, ∀ e, ¬ ix.Refuses live id value e) ∧
      InStep indexers (live.insert id.bytes value) s' ∧
      Store.SameBut (indexers.map (·.space)) s s' := by
  induction indexers generalizing s with
  | nil => exact .inr ⟨s, rfl, by simp, by simp [InStep], .refl _ s⟩
  | cons ix rest ih =>
    obtain ⟨hnew, spaces'⟩ := List.nodup_cons.1 spaces
    rw [List.map_cons, Op.on_forM_cons]
    rcases saved_cases (h ix List.mem_cons_self) hid (derives ix List.mem_cons_self) value with
      ⟨e, s₁, h₁, refused⟩ | ⟨s₁, h₁, taken, turns⟩
    · rw [Op.on_bind_of_error h₁]
      exact .inl ⟨e, s₁, rfl, ix, List.mem_cons_self, refused⟩
    · rw [Op.on_bind_of_ok h₁]
      -- The first index wrote in its own space only, so the others are still in step.
      rcases ih spaces' (h.tail hnew turns.frame) (fun other hother =>
          derives other (List.mem_cons_of_mem _ hother)) with
        ⟨e, s₂, h₂, other, hother, refused⟩ | ⟨s₂, h₂, takenRest, inStep, frame⟩
      · exact .inl ⟨e, s₂, h₂, other, List.mem_cons_of_mem _ hother, refused⟩
      · refine .inr ⟨s₂, h₂, ?_, ?_, ?_⟩
        · exact List.forall_mem_cons.2 ⟨taken, takenRest⟩
        · refine List.forall_mem_cons.2 ⟨?_, inStep⟩
          rw [frame.part hnew]
          exact turns.kept
        · exact (turns.frame.mono (by simp)).trans (frame.mono (by simp))

theorem on_forM_removed {indexers : List (Indexer T)} (spaces : (indexers.map (·.space)).Nodup)
    (h : InStep indexers live s) (hid : id.Valid) (present : live.find? id.bytes = some old)
    (derives : ∀ ix ∈ indexers, ∃ keys, ix.keys old = .ok keys) :
    ∃ s', ((indexers.map observer).forM fun o => o.removed id old).on s = (.ok (), s') ∧
      InStep indexers (live.erase id.bytes) s' ∧ Store.SameBut (indexers.map (·.space)) s s' := by
  induction indexers generalizing s with
  | nil => exact ⟨s, rfl, by simp [InStep], .refl _ s⟩
  | cons ix rest ih =>
    obtain ⟨hnew, spaces'⟩ := List.nodup_cons.1 spaces
    obtain ⟨keys, hkeys⟩ := derives ix List.mem_cons_self
    obtain ⟨s₁, h₁, turns⟩ := on_delete (h ix List.mem_cons_self) hid present hkeys
    obtain ⟨s₂, h₂, inStep, frame⟩ := ih spaces' (h.tail hnew turns.frame)
      fun other hother => derives other (List.mem_cons_of_mem _ hother)
    refine ⟨s₂, ?_, ?_, ?_⟩
    · rw [List.map_cons, Op.on_forM_cons]
      exact (Op.on_bind_of_ok h₁ _).trans h₂
    · refine List.forall_mem_cons.2 ⟨?_, inStep⟩
      rw [frame.part hnew]
      exact turns.kept
    · exact (turns.frame.mono (by simp)).trans (frame.mono (by simp))

end Indexer

end IndexedTables
