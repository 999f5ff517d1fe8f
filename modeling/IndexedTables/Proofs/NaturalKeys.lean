import Mathlib.Logic.Relation
import IndexedTables.Proofs.Isolation
import IndexedTables.Proofs.RowChanges
set_option autoImplicit false

namespace IndexedTables

variable {T : Type}

namespace NaturalTable

/-- The bytes are read as a value whose key is the id. -/
def Places (t : NaturalTable T) (id : RowId) (stored : Bytes) : Prop :=
  ∃ value, t.table.codec.unmarshal stored = .ok value ∧ t.key value = id

def Runs (t : NaturalTable T) : Store → Store → Prop :=
  Relation.ReflTransGen fun s s' => ∃ (α : Type) (op : Op α), t.Writes op ∧ op.Reaches s s'

/-- The ids are those that were there, and at most the row under the key of the value differs. -/
structure Replaces (t : NaturalTable T) (value : T) (s s' : Store) : Prop where
  ids : ∀ id : RowId,
    s'.contains (t.table.space :: id.bytes) = s.contains (t.table.space :: id.bytes)
  others : ∀ id : RowId, id ≠ t.key value →
    s'.find? (t.table.space :: id.bytes) = s.find? (t.table.space :: id.bytes)

variable {t : NaturalTable T} {indexers : List (Indexer T)} {s s' : Store}

theorem replaces_of_part (value : T) (h : s'.part t.table.space = s.part t.table.space) :
    t.Replaces value s s' := by
  have same : ∀ id : RowId,
      s'.find? (t.table.space :: id.bytes) = s.find? (t.table.space :: id.bytes) := by
    intro id
    rw [← Store.find?_part, h, Store.find?_part]
  exact ⟨fun id => congrArg Option.isSome (same id), fun id _ => same id⟩

theorem replaces_of_puts {value : T} (present : s.contains (t.table.space :: (t.key value).bytes))
    (h : t.table.Puts (t.key value) value s s') : t.Replaces value s s' := by
  obtain ⟨stored, _, hpart⟩ := h
  have found : ∀ id : RowId, s'.find? (t.table.space :: id.bytes) =
      if id = t.key value then some stored else s.find? (t.table.space :: id.bytes) := by
    intro id
    rw [← Store.find?_part, hpart, SortedMap.find?_insert, Store.find?_part]
    by_cases hid : id = t.key value
    · simp [hid]
    · have hbytes : id.bytes ≠ (t.key value).bytes := fun same => hid (congrArg RowId.mk same)
      simp [hid, hbytes]
  constructor
  case ids =>
    intro id
    unfold SortedMap.contains
    rw [found]
    by_cases hid : id = t.key value
    · subst hid
      simpa [SortedMap.contains] using present.symm
    · simp [hid]
  case others =>
    intro id hid
    rw [found, if_neg hid]

theorem saveAt_elsewhere {id : RowId} {value : T} (h : id ≠ t.key value) :
    t.saveAt id value = throw (.rowWouldMove id (t.key value)) := by
  simp only [saveAt, ne_eq, h.symm, not_false_eq_true, if_true]
  rfl

theorem saveAt_key (value : T) : t.saveAt (t.key value) value = t.save value := by
  simp [saveAt, save]

section

variable (observed : t.table.observers = indexers.map Indexer.observer)
  (apart : t.table.space ∉ indexers.map (·.space))

include observed apart

theorem save_replaces (value : T) : (t.save value).Obeys (t.Replaces value) := by
  intro s s' h
  rcases Table.part_of_save observed apart h with same | ⟨present, puts⟩
  · exact replaces_of_part value same
  · exact replaces_of_puts present puts

theorem saveAt_replaces (id : RowId) (value : T) :
    (t.saveAt id value).Obeys (t.Replaces value) := by
  by_cases hid : id = t.key value
  · rw [hid, saveAt_key]
    exact save_replaces observed apart value
  · intro s s' h
    rw [saveAt_elsewhere hid] at h
    exact replaces_of_part value (by rw [Op.eq_of_reaches_throw h])

/-- Whatever fails, a restore leaves every row under its key: none is written before the places of
all were checked. -/
theorem restore_keeps (hcodec : t.table.codec.RoundTrips) (rows : List (Row T)) :
    (t.restore rows).Obeys (Store.Keeps (t.table.Holds t.Places)) := by
  intro s s' h
  -- The places are checked before the first row is written.
  rcases Op.reaches_lift h with rfl | ⟨_, hcheck, h⟩
  · exact refl _
  refine Table.restore_keeps observed apart (fun row hrow stored hmarshal => ?_) s s' h
  refine ⟨row.value, hcodec row.value stored hmarshal, ?_⟩
  have placed := forM_eq_ok_iff.1 hcheck row hrow
  unfold checkPlace at placed
  split at placed
  · cases placed
  · next same => exact not_not.1 same

theorem Writes.keeps (hcodec : t.table.codec.RoundTrips) {α : Type} {op : Op α}
    (h : t.Writes op) : op.Obeys (Store.Keeps (t.table.Holds t.Places)) := by
  have own : ∀ value stored, t.table.codec.marshal value = .ok stored →
      t.Places (t.key value) stored := fun value stored hmarshal =>
    ⟨value, hcodec value stored hmarshal, rfl⟩
  have save : ∀ value, (t.save value).Obeys (Store.Keeps (t.table.Holds t.Places)) := fun value =>
    Table.save_keeps observed apart fun _ stored _ => own value stored
  cases h with
  | create value =>
    have create := Table.create_keeps observed apart (own value)
    exact create.bind fun _ => Op.obeys_closed.pure (t.key value)
  | save value => exact save value
  | saveAt id value =>
    by_cases hid : id = t.key value
    · rw [hid, saveAt_key]
      exact save value
    · rw [saveAt_elsewhere hid]
      exact Op.obeys_closed.throw _
  | delete value => exact Table.delete_keeps observed apart (t.key value)
  | restore rows => exact restore_keeps observed apart hcodec rows
  | restoreJson text =>
    exact (Op.obeys_lift _).bind fun rows => restore_keeps observed apart hcodec rows

theorem Runs.keeps (hcodec : t.table.codec.RoundTrips) (run : t.Runs s s')
    (h : t.table.Holds t.Places s) : t.table.Holds t.Places s' := by
  induction run with
  | refl => exact h
  | tail _ step ih =>
    obtain ⟨α, op, hop, hreaches⟩ := step
    exact hop.keeps observed apart hcodec _ _ hreaches ih

/-- After any run of writes, whatever failed, every row lies under the key of its value. No save
adds or removes an id or touches another row, and one that would move a row does nothing at all. -/
theorem natural_keys_never_move (hcodec : t.table.codec.RoundTrips)
    (fresh : s.part t.table.space = .empty) (run : t.Runs s s') :
    t.table.Holds t.Places s' ∧
      (∀ value, (t.save value).Obeys (t.Replaces value)) ∧
      (∀ id value, (t.saveAt id value).Obeys (t.Replaces value)) ∧
      ∀ id value, id ≠ t.key value → ∀ plan d,
        (t.saveAt id value).onDisk plan d = (.error (.rowWouldMove id (t.key value)), d) := by
  refine ⟨run.keeps observed apart hcodec (Table.holds_of_empty fresh),
    save_replaces observed apart, saveAt_replaces observed apart, fun id value hid plan d => ?_⟩
  rw [saveAt_elsewhere hid]
  rfl

end

end NaturalTable

def abbreviated : NaturalTable Bytes := ⟨words, fun word => ⟨word.take 2⟩⟩

/-- The word `ab` is entered, the disk jams when it is to become `abc` in the index of letters, and
a dump whose second word is misplaced is refused. -/
theorem abbreviated_run :
    let s : Store := .ofList [([0x01, 0x61, 0x62], [0x61, 0x62, 0x63]),
      ([0x02, 0x61, 0x61, 0x62, 2], []), ([0x02, 0x62, 0x61, 0x62, 2], []),
      ([0x03, 0x61], [0x61, 0x62])]
    abbreviated.Runs .empty s ∧ abbreviated.table.Holds abbreviated.Places s ∧
      ∀ plan d, (abbreviated.saveAt ⟨[0x62]⟩ [0x61, 0x62]).onDisk plan d =
        (.error (.rowWouldMove ⟨[0x62]⟩ ⟨[0x61, 0x62]⟩), d) := by
  intro s
  have run : abbreviated.Runs .empty s := by
    refine .tail (.tail (.tail .refl ⟨_, _, .create [0x61, 0x62], .none, .ofStore .empty, rfl, rfl⟩)
      ⟨_, _, .save [0x61, 0x62, 0x63], jamming 2 [], .ofStore _, rfl, rfl⟩)
      ⟨_, _, .restore [⟨⟨[0x63]⟩, [0x63]⟩, ⟨⟨[0x64]⟩, [0x65]⟩], .none, .ofStore _, rfl, rfl⟩
  obtain ⟨placed, _, _, refused⟩ := @NaturalTable.natural_keys_never_move Bytes abbreviated
    wordIndexers _ _ rfl (by decide) wordCodec_roundTrips rfl run
  exact ⟨run, placed, refused ⟨[0x62]⟩ [0x61, 0x62] (by decide)⟩

end IndexedTables
