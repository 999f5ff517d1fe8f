import IndexedTables.Proofs.Confinement
import IndexedTables.Proofs.FailStop
set_option autoImplicit false

namespace IndexedTables

variable {α β T : Type}

namespace Op

variable {op : Op α} {f : α → Op β} {s s' : Store}

theorem Strict.on_of_ok (h : op.Strict) {plan : FaultPlan} {d : Disk} {a : α}
    (hok : (op.onDisk plan d).1 = .ok a) : op.on d.store = (.ok a, (op.onDisk plan d).2.store) := by
  have unhurt := h.failStops.completes plan d a hok
  obtain ⟨answer, store⟩ := Disk.run_none op.run d
  rw [unhurt] at hok ⊢
  exact Prod.ext (answer.symm.trans hok) store.symm

/-- What goes on does so from an answer that a store without faults gives. -/
theorem Strict.reaches_bind (h : op.Strict) (hrun : (op >>= f).Reaches s s') :
    op.Reaches s s' ∨ ∃ a s₁, op.on s = (.ok a, s₁) ∧ (f a).Reaches s₁ s' := by
  obtain ⟨plan, d, rfl, rfl⟩ := hrun
  rw [onDisk_bind]
  rcases hop : op.onDisk plan d with ⟨e | a, d'⟩
  · exact .inl ⟨plan, d, rfl, by rw [hop]⟩
  · have hon := h.on_of_ok (congrArg Prod.fst hop)
    rw [hop] at hon
    exact .inr ⟨a, d'.store, hon, plan, d', rfl, rfl⟩

end Op

theorem forM_eq_ok_iff {check : α → Except Error Unit} {as : List α} :
    as.forM check = .ok () ↔ ∀ a ∈ as, check a = .ok () := by
  induction as with
  | nil => exact ⟨fun _ => by simp, fun _ => rfl⟩
  | cons a rest ih =>
    rw [List.forall_mem_cons, ← ih]
    change (check a >>= fun _ => rest.forM check) = .ok () ↔ _
    cases ha : check a with
    | error e => simp [bind, Except.bind]
    | ok _ => simp [bind, Except.bind]

def Store.Keeps (P : Store → Prop) (s s' : Store) : Prop := P s → P s'

instance (P : Store → Prop) : IsPreorder Store (Store.Keeps P) where
  refl _ := id
  trans _ _ _ h h' := h' ∘ h

namespace Table

variable {t : Table T} {indexers : List (Indexer T)} {id : RowId} {value : T} {s s' : Store}

theorem obeys_get (id : RowId) : (t.get id).Obeys Eq := Op.obeys_closed.row (Op.obeys_get _)

theorem obeys_dump : t.dump.Obeys Eq := by
  unfold dump
  rw [readAll_scan]
  exact (Op.obeys_lift _).bind fun _ => (Op.obeys_scan _ _).bind fun _ => Op.obeys_lift _

theorem strict_get (id : RowId) : (t.get id).Strict :=
  Op.strict_closed.row ((Op.strict_get id.bytes).inSpace t.space)

theorem stored_of_get {old : T} {s₁ : Store} (h : (t.get id).on s = (.ok old, s₁)) :
    s₁ = s ∧ s.contains (t.space :: id.bytes) := by
  cases hstored : s.find? (t.space :: id.bytes) with
  | none =>
    rw [on_get_of_not_stored hstored] at h
    cases h
  | some stored =>
    rw [on_get_of_stored hstored] at h
    exact ⟨(congrArg Prod.snd h).symm, by simp [SortedMap.contains, hstored]⟩

/-- The rows with one more row, or with another value in its place. -/
def Puts (t : Table T) (id : RowId) (value : T) (s s' : Store) : Prop :=
  ∃ stored, t.codec.marshal value = .ok stored ∧
    s'.part t.space = (s.part t.space).insert id.bytes stored

section

variable (observed : t.observers = indexers.map Indexer.observer)
  (apart : t.space ∉ indexers.map (·.space))

include observed apart

theorem part_of_write {old : Option T} (h : (t.write id value old).Reaches s s') :
    s'.part t.space = s.part t.space ∨ t.Puts id value s s' := by
  unfold write at h
  rcases Op.reaches_lift h with rfl | ⟨stored, hmarshal, h⟩
  · exact .inl rfl
  have set_cases : ∀ s₁, ((Op.set id.bytes stored).inSpace t.space).Reaches s s₁ →
      s₁.part t.space = s.part t.space ∨
        s₁.part t.space = (s.part t.space).insert id.bytes stored := by
    intro s₁ hset
    rcases Op.reaches_set hset with rfl | rfl
    · exact .inl rfl
    · exact .inr (Store.under_insert [t.space] s id.bytes stored)
  rcases Op.reaches_bind h with hset | ⟨_, s₁, hset, h⟩
  · exact (set_cases s' hset).imp_right fun hpart => ⟨stored, hmarshal, hpart⟩
  · have inside := (Op.inside_closed (indexers.map (·.space))).forM fun o ho =>
      (inside_observer observed id ho).1 value old
    rw [(inside.obeys s₁ s' h).part apart]
    exact (set_cases s₁ hset).imp_right fun hpart =>
      ⟨stored, hmarshal, ((inside.obeys s₁ s' h).part apart).trans hpart⟩

theorem part_of_create (h : (t.create id value).Reaches s s') :
    s'.part t.space = s.part t.space ∨
      id.Valid ∧ s.contains (t.space :: id.bytes) = false ∧ t.Puts id value s s' := by
  simp only [create, has, Op.inSpace_has] at h
  rcases Op.reaches_lift h with rfl | ⟨_, hcheck, h⟩
  · exact .inl rfl
  have hid : id.Valid := by
    by_contra invalid
    obtain ⟨e, he⟩ := RowId.check_of_not_valid invalid
    rw [he] at hcheck
    cases hcheck
  rcases Op.reaches_has h with rfl | h
  · exact .inl rfl
  cases hcontains : s.contains (t.space :: id.bytes) with
  | true =>
    rw [hcontains] at h
    exact .inl (by rw [Op.eq_of_reaches_throw h])
  | false =>
    rw [hcontains] at h
    exact (part_of_write observed apart h).imp_right fun puts => ⟨hid, rfl, puts⟩

theorem part_of_save (h : (t.save id value).Reaches s s') :
    s'.part t.space = s.part t.space ∨
      s.contains (t.space :: id.bytes) ∧ t.Puts id value s s' := by
  rcases (strict_get id).reaches_bind h with hget | ⟨old, s₁, hget, hwrite⟩
  · exact .inl (by rw [obeys_get id s s' hget])
  · obtain ⟨rfl, present⟩ := stored_of_get hget
    exact (part_of_write observed apart hwrite).imp_right fun puts => ⟨present, puts⟩

theorem part_of_delete (h : (t.delete id).Reaches s s') :
    s'.part t.space = s.part t.space ∨ s'.part t.space = (s.part t.space).erase id.bytes := by
  rcases (strict_get id).reaches_bind h with hget | ⟨old, s₁, hget, hrest⟩
  · exact .inl (by rw [obeys_get id s s' hget])
  obtain ⟨rfl, _⟩ := stored_of_get hget
  have erase_cases : ∀ s₂, ((Op.delete id.bytes).inSpace t.space).Reaches s₁ s₂ →
      s₂.part t.space = s₁.part t.space ∨
        s₂.part t.space = (s₁.part t.space).erase id.bytes := by
    intro s₂ herase
    rcases Op.reaches_delete herase with rfl | rfl
    · exact .inl rfl
    · exact .inr (Store.under_erase [t.space] s₁ id.bytes)
  rcases Op.reaches_bind hrest with herase | ⟨_, s₂, herase, htold⟩
  · exact erase_cases s' herase
  · have inside := (Op.inside_closed (indexers.map (·.space))).forM fun o ho =>
      (inside_observer observed id ho).2 old
    rw [(inside.obeys s₂ s' htold).part apart]
    exact erase_cases s₂ herase

omit observed apart

/-- Every stored row is of this sort. -/
def Holds (t : Table T) (p : RowId → Bytes → Prop) (s : Store) : Prop :=
  ∀ id stored, s.find? (t.space :: id.bytes) = some stored → p id stored

variable {p : RowId → Bytes → Prop}

theorem holds_of_part (h : t.Holds p s) (hpart : s'.part t.space = s.part t.space) :
    t.Holds p s' := by
  intro id stored hstored
  rw [← Store.find?_part, hpart, Store.find?_part] at hstored
  exact h id stored hstored

theorem holds_of_empty (h : s.part t.space = .empty) : t.Holds p s := by
  intro id stored hstored
  rw [← Store.find?_part, h] at hstored
  cases hstored

theorem Puts.holds (h : t.Puts id value s s') (rows : t.Holds p s)
    (row : ∀ stored, t.codec.marshal value = .ok stored → p id stored) : t.Holds p s' := by
  obtain ⟨stored, hmarshal, hpart⟩ := h
  intro other bytes hbytes
  rw [← Store.find?_part, hpart, SortedMap.find?_insert] at hbytes
  split at hbytes
  · next same =>
    cases hbytes
    have hid : other = id := congrArg RowId.mk same
    exact hid ▸ row stored hmarshal
  · exact rows other bytes (by simpa using hbytes)

include observed apart

theorem create_keeps (row : ∀ stored, t.codec.marshal value = .ok stored → p id stored) :
    (t.create id value).Obeys (Store.Keeps (t.Holds p)) := by
  intro s s' h rows
  rcases part_of_create observed apart h with same | ⟨_, _, puts⟩
  · exact holds_of_part rows same
  · exact puts.holds rows row

theorem save_keeps (row : ∀ old stored, p id old → t.codec.marshal value = .ok stored →
    p id stored) : (t.save id value).Obeys (Store.Keeps (t.Holds p)) := by
  intro s s' h rows
  rcases part_of_save observed apart h with same | ⟨present, puts⟩
  · exact holds_of_part rows same
  · obtain ⟨old, hold⟩ := Option.isSome_iff_exists.1 present
    exact puts.holds rows fun stored => row old stored (rows id old hold)

theorem delete_keeps (id : RowId) : (t.delete id).Obeys (Store.Keeps (t.Holds p)) := by
  intro s s' h rows
  rcases part_of_delete observed apart h with same | erased
  · exact holds_of_part rows same
  · intro other stored hstored
    rw [← Store.find?_part, erased, SortedMap.find?_erase] at hstored
    split at hstored
    · cases hstored
    · exact rows other stored (by simpa using hstored)

theorem restore_keeps {rows : List (Row T)} (each : ∀ row ∈ rows, ∀ stored,
    t.codec.marshal row.value = .ok stored → p row.id stored) :
    (t.restore rows).Obeys (Store.Keeps (t.Holds p)) := by
  have dump : t.dump.Obeys (Store.Keeps (t.Holds p)) := obeys_dump.mono fun s s' same h => same ▸ h
  exact Op.obeys_closed.restore dump (delete_keeps observed apart) fun row hrow =>
    create_keeps observed apart (each row hrow)

end

end Table

end IndexedTables
