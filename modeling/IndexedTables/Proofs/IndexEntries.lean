import Mathlib.Order.BooleanAlgebra.Set
import IndexedTables.Index.Indexer
import IndexedTables.Proofs.Operations
set_option autoImplicit false

namespace IndexedTables

def IndexEntry.tail (e : IndexEntry) : Bytes := e.id.bytes ++ [UInt8.ofNat e.id.bytes.length]

/-- The key and the value under which a store keeps an entry. -/
def Policy.slot (p : Policy) (e : IndexEntry) : Bytes × Bytes :=
  match p with
  | .multiKey => (e.key ++ e.tail, [])
  | .unique => (e.key, e.id.bytes)

/-- A part of a store holds exactly these entries. -/
structure Policy.Keeps (p : Policy) (E : Set IndexEntry) (m : Store) : Prop where
  valid : ∀ e ∈ E, e.id.Valid
  stored : ∀ key value, m.find? key = some value ↔ ∃ e ∈ E, p.slot e = (key, value)

theorem RowId.check_of_valid {id : RowId} (h : id.Valid) : id.check = .ok () := by
  simp [RowId.check, h.1, Nat.not_lt.2 h.2]

theorem RowId.check_of_not_valid {id : RowId} (h : ¬ id.Valid) : ∃ e, id.check = .error e := by
  unfold RowId.check
  split
  · exact ⟨_, rfl⟩
  · next hne =>
    split
    · exact ⟨_, rfl⟩
    · next hle => exact absurd ⟨hne, Nat.not_lt.1 hle⟩ h

theorem IndexEntry.encode_of_valid {e : IndexEntry} (h : e.id.Valid) :
    e.encode = .ok (e.key ++ e.tail) := by
  unfold IndexEntry.encode
  rw [RowId.check_of_valid h, List.append_assoc]
  rfl

/-- The length in the last byte tells where the key ends. -/
theorem IndexEntry.eq_of_append_tail {e f : IndexEntry} (he : e.id.Valid) (hf : f.id.Valid)
    (h : e.key ++ e.tail = f.key ++ f.tail) : e = f := by
  obtain ⟨key, ⟨id⟩⟩ := e
  obtain ⟨key', ⟨id'⟩⟩ := f
  have hsplit := List.append_inj' (show (key ++ id) ++ [UInt8.ofNat id.length] =
    (key' ++ id') ++ [UInt8.ofNat id'.length] by simpa [tail] using h) rfl
  have hlast : id.length % 256 = id'.length % 256 := by
    simpa using congrArg UInt8.toNat (List.head_eq_of_cons_eq hsplit.2)
  have hle : id.length ≤ 255 := he.2
  have hle' : id'.length ≤ 255 := hf.2
  have hlength : id.length = id'.length := by omega
  obtain ⟨rfl, rfl⟩ := List.append_inj' hsplit.1 hlength
  rfl

namespace Policy.Keeps

variable {p : Policy} {E : Set IndexEntry} {m : Store}

theorem contains_multiKey (h : Policy.multiKey.Keeps E m) {e : IndexEntry} (he : e.id.Valid) :
    m.contains (e.key ++ e.tail) ↔ e ∈ E := by
  rw [SortedMap.contains, Option.isSome_iff_exists]
  constructor
  · intro found
    obtain ⟨value, hvalue⟩ := found
    obtain ⟨f, hf, hslot⟩ := (h.stored _ _).1 hvalue
    have hkey : f.key ++ f.tail = e.key ++ e.tail := congrArg Prod.fst hslot
    rwa [← IndexEntry.eq_of_append_tail (h.valid f hf) he hkey]
  · intro hmem
    exact ⟨[], (h.stored _ _).2 ⟨e, hmem, rfl⟩⟩

theorem find?_unique (h : Policy.unique.Keeps E m) (key id : Bytes) :
    m.find? key = some id ↔ ⟨key, ⟨id⟩⟩ ∈ E := by
  rw [h.stored]
  constructor
  · intro found
    obtain ⟨⟨k, ⟨i⟩⟩, hmem, hslot⟩ := found
    cases hslot
    exact hmem
  · intro hmem
    exact ⟨_, hmem, rfl⟩

theorem owner_eq (h : Policy.unique.Keeps E m) {e f : IndexEntry} (he : e ∈ E) (hf : f ∈ E)
    (hkey : e.key = f.key) : e = f := by
  obtain ⟨key, ⟨id⟩⟩ := e
  obtain ⟨key', ⟨id'⟩⟩ := f
  cases hkey
  have hfind := (h.find?_unique key id).2 he
  rw [(h.find?_unique key id').2 hf] at hfind
  cases hfind
  rfl

theorem insert (h : p.Keeps E m) {e : IndexEntry} (he : e.id.Valid)
    (free : ∀ f ∈ E, (p.slot f).1 ≠ (p.slot e).1) :
    p.Keeps (Insert.insert e E) (m.insert (p.slot e).1 (p.slot e).2) where
  valid := by
    intro f found
    rcases found with rfl | hf
    · exact he
    · exact h.valid f hf
  stored key value := by
    by_cases hkey : key = (p.slot e).1
    · subst hkey
      rw [SortedMap.find?_insert_self]
      constructor
      · intro hvalue
        cases hvalue
        exact ⟨e, .inl rfl, rfl⟩
      · intro found
        obtain ⟨f, rfl | hf, hslot⟩ := found
        · exact congrArg some (congrArg Prod.snd hslot)
        · exact absurd (by rw [hslot]) (free f hf)
    · rw [SortedMap.find?_insert_of_ne m _ hkey, h.stored]
      constructor
      · intro found
        obtain ⟨f, hf, hslot⟩ := found
        exact ⟨f, .inr hf, hslot⟩
      · intro found
        obtain ⟨f, rfl | hf, hslot⟩ := found
        · exact absurd (congrArg Prod.fst hslot).symm hkey
        · exact ⟨f, hf, hslot⟩

theorem erase (h : p.Keeps E m) {e : IndexEntry}
    (sole : ∀ f ∈ E, (p.slot f).1 = (p.slot e).1 → f = e) :
    p.Keeps (E \ {e}) (m.erase (p.slot e).1) where
  valid f hf := h.valid f hf.1
  stored key value := by
    by_cases hkey : key = (p.slot e).1
    · subst hkey
      rw [SortedMap.find?_erase_self]
      constructor
      · intro hvalue
        cases hvalue
      · intro found
        obtain ⟨f, ⟨hf, hne⟩, hslot⟩ := found
        exact absurd (sole f hf (by rw [hslot])) hne
    · rw [SortedMap.find?_erase_of_ne m hkey, h.stored]
      constructor
      · intro found
        obtain ⟨f, hf, hslot⟩ := found
        refine ⟨f, ⟨hf, ?_⟩, hslot⟩
        intro same
        subst same
        exact hkey (congrArg Prod.fst hslot).symm
      · intro found
        obtain ⟨f, hf, hslot⟩ := found
        exact ⟨f, hf.1, hslot⟩

end Policy.Keeps

namespace Indexer

variable {T : Type}

/-- The index has come to hold `E`; outside its space nothing has changed. -/
structure Turns (ix : Indexer T) (E : Set IndexEntry) (s s' : Store) : Prop where
  kept : ix.policy.Keeps E (s'.part ix.space)
  frame : Store.SameBut [ix.space] s s'

theorem Turns.refl {ix : Indexer T} {E : Set IndexEntry} {s : Store}
    (h : ix.policy.Keeps E (s.part ix.space)) : ix.Turns E s s := ⟨h, .refl _ s⟩

theorem Turns.trans {ix : Indexer T} {E F : Set IndexEntry} {s s' s'' : Store}
    (h : ix.Turns E s s') (h' : ix.Turns F s' s'') : ix.Turns F s s'' :=
  ⟨h'.kept, h.frame.trans h'.frame⟩

variable {ix : Indexer T} {E : Set IndexEntry} {s : Store} {id : RowId}

def Taken (ix : Indexer T) (E : Set IndexEntry) (key : Bytes) : Prop :=
  ix.policy = .unique ∧ ∃ e ∈ E, e.key = key

theorem on_add_of_taken (h : ix.policy.Keeps E (s.part ix.space)) {key : Bytes}
    (taken : ix.Taken E key) : (ix.add id key).on s = (.error (.keyTaken ix.space), s) := by
  obtain ⟨space, policy, keys⟩ := ix
  obtain ⟨rfl, ⟨k, ⟨owner⟩⟩, hmem, rfl⟩ := taken
  have hfind := (h.find?_unique k owner).2 hmem
  apply Op.on_inSpace_of_reads
  simp [Op.on_bind, SortedMap.contains, hfind]

theorem on_add (h : ix.policy.Keeps E (s.part ix.space)) (hid : id.Valid) {key : Bytes}
    (free : ¬ ix.Taken E key) :
    ∃ s', (ix.add id key).on s = (.ok (), s') ∧ ix.Turns (insert ⟨key, id⟩ E) s s' := by
  obtain ⟨space, policy, keys⟩ := ix
  let e : IndexEntry := ⟨key, id⟩
  cases policy with
  | multiKey =>
    have hencode : e.encode = .ok (e.key ++ e.tail) := IndexEntry.encode_of_valid hid
    by_cases hmem : e ∈ E
    · have hhas := (h.contains_multiKey (e := e) hid).2 hmem
      refine ⟨s, ?_, ?_⟩
      · apply Op.on_inSpace_of_reads
        simp [Op.on_bind, e, hencode, hhas]
      · rw [Set.insert_eq_of_mem hmem]
        exact .refl h
    · have hhas := mt (h.contains_multiKey (e := e) hid).1 hmem
      apply Op.exists_on_inSpace (m := (s.part space).insert (e.key ++ e.tail) [])
      · simp [Op.on_bind, hencode, hhas, e]
      · intro s' hpart hframe
        refine ⟨?_, hframe⟩
        rw [hpart]
        refine h.insert (e := e) hid fun f hf hslot => hmem ?_
        rwa [← IndexEntry.eq_of_append_tail (h.valid f hf) hid hslot]
  | unique =>
    have hnone : ¬ (s.part space).contains key := by
      rw [SortedMap.contains, Option.isSome_iff_exists]
      intro found
      obtain ⟨owner, howner⟩ := found
      exact free ⟨rfl, _, (h.find?_unique key owner).1 howner, rfl⟩
    apply Op.exists_on_inSpace (m := (s.part space).insert key id.bytes)
    · simp [Op.on_bind, hnone]
    · intro s' hpart hframe
      refine ⟨?_, hframe⟩
      rw [hpart]
      exact h.insert (e := e) hid fun f hf hslot => free ⟨rfl, f, hf, hslot⟩

theorem on_remove (h : ix.policy.Keeps E (s.part ix.space)) (hid : id.Valid) (key : Bytes) :
    ∃ s', (ix.remove id key).on s = (.ok (), s') ∧ ix.Turns (E \ {⟨key, id⟩}) s s' := by
  obtain ⟨space, policy, keys⟩ := ix
  let e : IndexEntry := ⟨key, id⟩
  cases policy with
  | multiKey =>
    have hencode : e.encode = .ok (e.key ++ e.tail) := IndexEntry.encode_of_valid hid
    apply Op.exists_on_inSpace (m := (s.part space).erase (e.key ++ e.tail))
    · simp [Op.on_bind, hencode, e]
    · intro s' hpart hframe
      refine ⟨?_, hframe⟩
      rw [hpart]
      exact h.erase (e := e) fun f hf => IndexEntry.eq_of_append_tail (h.valid f hf) hid
  | unique =>
    by_cases hmem : e ∈ E
    · have howner : (s.part space).find? key = some id.bytes := (h.find?_unique key _).2 hmem
      apply Op.exists_on_inSpace (m := (s.part space).erase key)
      · simp [Op.on_bind, howner]
      · intro s' hpart hframe
        refine ⟨?_, hframe⟩
        rw [hpart]
        exact h.erase (e := e) fun f hf => h.owner_eq hf hmem
    · have hother : (s.part space).find? key ≠ some id.bytes :=
        fun howner => hmem ((h.find?_unique key _).1 howner)
      rw [Store.find?_part] at hother
      refine ⟨s, ?_, ?_⟩
      · apply Op.on_inSpace_of_reads
        simp [Op.on_bind, hother]
      · rw [Set.sdiff_singleton_eq_self hmem]
        exact .refl h

def entriesAt (id : RowId) (keys : List Bytes) : Set IndexEntry := {e | e.id = id ∧ e.key ∈ keys}

theorem on_forM_remove (h : ix.policy.Keeps E (s.part ix.space)) (hid : id.Valid)
    (keys : List Bytes) :
    ∃ s', (keys.forM (ix.remove id)).on s = (.ok (), s') ∧
      ix.Turns (E \ entriesAt id keys) s s' := by
  induction keys generalizing s E with
  | nil =>
    refine ⟨s, rfl, ?_⟩
    simpa [entriesAt] using Turns.refl h
  | cons key rest ih =>
    obtain ⟨s₁, h₁, turns₁⟩ := on_remove h hid key
    obtain ⟨s₂, h₂, turns₂⟩ := ih turns₁.kept
    refine ⟨s₂, ?_, ?_⟩
    · rw [Op.on_forM_cons, Op.on_bind_of_ok h₁, h₂]
    · have hset : (E \ {⟨key, id⟩}) \ entriesAt id rest = E \ entriesAt id (key :: rest) := by
        ext ⟨k, i⟩
        simp [entriesAt]
        grind
      exact turns₁.trans (hset ▸ turns₂)

theorem on_forM_add (h : ix.policy.Keeps E (s.part ix.space)) (hid : id.Valid)
    {keys : List Bytes} (nodup : keys.Nodup) (free : ∀ key ∈ keys, ¬ ix.Taken E key) :
    ∃ s', (keys.forM (ix.add id)).on s = (.ok (), s') ∧ ix.Turns (E ∪ entriesAt id keys) s s' := by
  induction keys generalizing s E with
  | nil =>
    refine ⟨s, rfl, ?_⟩
    simpa [entriesAt] using Turns.refl h
  | cons key rest ih =>
    obtain ⟨hnew, nodup'⟩ := List.nodup_cons.1 nodup
    obtain ⟨s₁, h₁, turns₁⟩ := on_add h hid (free key List.mem_cons_self)
    have free' : ∀ k ∈ rest, ¬ ix.Taken (insert ⟨key, id⟩ E) k := by
      intro k hk found
      obtain ⟨hunique, e, rfl | he, rfl⟩ := found
      · exact hnew hk
      · exact free _ (List.mem_cons_of_mem key hk) ⟨hunique, e, he, rfl⟩
    obtain ⟨s₂, h₂, turns₂⟩ := ih turns₁.kept nodup' free'
    refine ⟨s₂, ?_, ?_⟩
    · rw [Op.on_forM_cons, Op.on_bind_of_ok h₁, h₂]
    · have hset : insert ⟨key, id⟩ E ∪ entriesAt id rest = E ∪ entriesAt id (key :: rest) := by
        ext ⟨k, i⟩
        simp [entriesAt]
        grind
      exact turns₁.trans (hset ▸ turns₂)

theorem on_forM_add_of_taken (h : ix.policy.Keeps E (s.part ix.space)) (hid : id.Valid)
    {keys : List Bytes} (taken : ∃ key ∈ keys, ix.Taken E key) :
    ∃ s', (keys.forM (ix.add id)).on s = (.error (.keyTaken ix.space), s') := by
  induction keys generalizing s E with
  | nil => simp at taken
  | cons key rest ih =>
    by_cases hkey : ix.Taken E key
    · refine ⟨s, ?_⟩
      rw [Op.on_forM_cons, Op.on_bind_of_error (on_add_of_taken h hkey)]
    · obtain ⟨k, hk, hunique, e, he, hek⟩ := taken
      have hrest : k ∈ rest := by
        rcases List.mem_cons.1 hk with rfl | hk
        · exact absurd ⟨hunique, e, he, hek⟩ hkey
        · exact hk
      obtain ⟨s₁, h₁, turns₁⟩ := on_add h hid hkey
      obtain ⟨s₂, h₂⟩ := ih turns₁.kept ⟨k, hrest, hunique, e, .inr he, hek⟩
      refine ⟨s₂, ?_⟩
      rw [Op.on_forM_cons, Op.on_bind_of_ok h₁, h₂]

end Indexer

end IndexedTables
