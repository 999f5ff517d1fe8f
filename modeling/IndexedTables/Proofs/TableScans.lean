import IndexedTables.Proofs.Pages
import IndexedTables.Proofs.TableWrites
set_option autoImplicit false

namespace IndexedTables

variable {T : Type}

namespace Table

variable {t : Table T} {s : Store}

theorem ofItem_ok (t : Table T) (e : Bytes × Bytes) :
    t.ofItem (.ok e) = (t.codec.unmarshal e.2).map (Row.mk ⟨e.1⟩) := by
  change (do return (⟨⟨e.1⟩, ← t.codec.unmarshal e.2⟩ : Row T)) = _
  cases t.codec.unmarshal e.2 <;> rfl

theorem ofItem_eq_ok_iff (t : Table T) (e : Bytes × Bytes) (row : Row T) :
    t.ofItem (.ok e) = .ok row ↔ row.id = ⟨e.1⟩ ∧ t.codec.unmarshal e.2 = .ok row.value := by
  rw [ofItem_ok]
  obtain ⟨id, value⟩ := row
  cases t.codec.unmarshal e.2 <;> simp [Except.map, eq_comm]

/-- These are the rows of the entries. -/
def Loads (t : Table T) (entries : List (Bytes × Bytes)) (rows : List (Row T)) : Prop :=
  entries.map (fun e => t.ofItem (.ok e)) = rows.map .ok

section Loads

variable {entries : List (Bytes × Bytes)} {rows : List (Row T)}

theorem Loads.ids (h : t.Loads entries rows) : rows.map (·.id) = entries.map (⟨·.1⟩) := by
  induction entries generalizing rows with
  | nil =>
    rw [List.map_eq_nil_iff.1 h.symm]
    rfl
  | cons e rest ih =>
    obtain ⟨row, rows, rfl, hrow, hrest⟩ := List.map_eq_cons_iff.1 h.symm
    rw [List.map_cons, List.map_cons, ih hrest.symm, ((t.ofItem_eq_ok_iff e row).1 hrow.symm).1]

theorem Loads.take (h : t.Loads entries rows) (n : Nat) :
    t.Loads (entries.take n) (rows.take n) := by
  rw [Loads, List.map_take, List.map_take, h]

theorem Loads.mem_iff (h : t.Loads entries rows) (row : Row T) :
    row ∈ rows ↔ ∃ e ∈ entries, t.ofItem (.ok e) = .ok row := by
  rw [← List.mem_map, h, List.mem_map]
  simp

theorem Loads.exists_row (h : t.Loads entries rows) {e : Bytes × Bytes} (he : e ∈ entries) :
    ∃ row ∈ rows, row.id = ⟨e.1⟩ := by
  have hid : RowId.mk e.1 ∈ rows.map (·.id) := h.ids ▸ List.mem_map_of_mem he
  exact List.mem_map.1 hid

theorem Loads.ascending (h : t.Loads entries rows)
    (sorted : entries.Pairwise fun a b => a.1 < b.1) :
    rows.Pairwise fun a b => a.id.bytes < b.id.bytes := by
  have keys : (rows.map (·.id)).Pairwise fun a b => a.bytes < b.bytes := by
    rw [h.ids]
    exact List.pairwise_map.2 sorted
  rwa [List.pairwise_map] at keys

end Loads

/-- The entries of the rows from an id on, or from the first. -/
def entriesFrom (t : Table T) (s : Store) (key : Option RowId) : List (Bytes × Bytes) :=
  (s.part t.space).range ⟨key.map (·.bytes), none⟩

theorem entriesFrom_none (t : Table T) (s : Store) :
    t.entriesFrom s none = (s.part t.space).entries := by
  simp [entriesFrom, Store.range, KeyRange.contains, List.filter_eq_self.2]

theorem mem_entriesFrom {key : Option RowId} {e : Bytes × Bytes} :
    e ∈ t.entriesFrom s key ↔
      s.find? (t.space :: e.1) = some e.2 ∧ ∀ k ∈ key, k.bytes ≤ e.1 := by
  rw [← Store.find?_part, SortedMap.find?_eq_some_iff]
  simp [entriesFrom, Store.range, KeyRange.contains_iff]

theorem ascending_entriesFrom (key : Option RowId) :
    (t.entriesFrom s key).Pairwise fun a b => a.1 < b.1 :=
  (s.part t.space).ascending.filter _

theorem exists_entry {id : RowId} {key : Option RowId} (h : s.contains (t.space :: id.bytes))
    (start : ∀ k ∈ key, k.bytes ≤ id.bytes) : ∃ e ∈ t.entriesFrom s key, e.1 = id.bytes := by
  obtain ⟨stored, hstored⟩ := Option.isSome_iff_exists.1 h
  exact ⟨(id.bytes, stored), mem_entriesFrom.2 ⟨hstored, start⟩, rfl⟩

def Stores (t : Table T) (s : Store) (row : Row T) : Prop :=
  ∃ stored, s.find? (t.space :: row.id.bytes) = some stored ∧
    t.codec.unmarshal stored = .ok row.value

theorem Stores.on_get {row : Row T} (h : t.Stores s row) :
    (t.get row.id).on s = (.ok row.value, s) := by
  obtain ⟨stored, hstored, hvalue⟩ := h
  rw [on_get_of_stored hstored, hvalue]

theorem Stores.contains {row : Row T} (h : t.Stores s row) :
    s.contains (t.space :: row.id.bytes) := by
  obtain ⟨stored, hstored, -⟩ := h
  simp [SortedMap.contains, hstored]

theorem Stores.eq {row other : Row T} (h : t.Stores s row) (h' : t.Stores s other)
    (same : row.id = other.id) : row = other := by
  obtain ⟨id, value⟩ := row
  obtain ⟨_, value'⟩ := other
  cases same
  have values := h.on_get.symm.trans h'.on_get
  cases values
  rfl

theorem Loads.mem_iff_stores {key : Option RowId} {rows : List (Row T)}
    (h : t.Loads (t.entriesFrom s key) rows) (row : Row T) :
    row ∈ rows ↔ t.Stores s row ∧ ∀ k ∈ key, k.bytes ≤ row.id.bytes := by
  rw [h.mem_iff]
  constructor
  · rintro ⟨e, he, hitem⟩
    obtain ⟨hid, hvalue⟩ := (t.ofItem_eq_ok_iff e row).1 hitem
    obtain ⟨hstored, start⟩ := mem_entriesFrom.1 he
    exact ⟨⟨e.2, by rw [hid, hstored], hvalue⟩, by rwa [hid]⟩
  · rintro ⟨⟨stored, hstored, hvalue⟩, start⟩
    exact ⟨(row.id.bytes, stored), mem_entriesFrom.2 ⟨hstored, start⟩,
      (t.ofItem_eq_ok_iff _ row).2 ⟨rfl, hvalue⟩⟩

theorem on_scan (t : Table T) {range : KeyRange} (h : range.inverted = false) (reverse : Bool)
    (s : Store) :
    (t.scan range reverse).on s = (.ok ((if reverse then ((s.part t.space).range range).reverse
      else (s.part t.space).range range).map fun e => liftM (t.ofItem (.ok e))), s) := by
  rw [scan, KeyRange.check_of_not_inverted h, Op.on_bind_of_ok (Op.on_lift _ s),
    Op.on_bind_of_ok (Op.on_scan_inSpace t.space range reverse s), Op.on_pure, List.map_map]
  rfl

theorem exists_scanned (t : Table T) {range : KeyRange} (h : range.inverted = false)
    (reverse : Bool) (s : Store) :
    ∃ cursor : Cursor T, (t.scan range reverse).on s = (.ok cursor, s) ∧
      cursor.Yields s ((if reverse then ((s.part t.space).range range).reverse
        else (s.part t.space).range range).map fun e => t.ofItem (.ok e)) :=
  ⟨_, t.on_scan h reverse s, Cursor.yields_map _ fun e _ => Op.on_lift (t.ofItem (.ok e)) s⟩

theorem on_dump_of_loads {rows : List (Row T)} (h : t.Loads (t.entriesFrom s none) rows) :
    t.dump.on s = (.ok rows, s) := by
  obtain ⟨cursor, hscan, yields⟩ := @exists_scanned T t .all rfl false s
  rw [dump, Op.on_bind_of_ok hscan]
  exact Cursor.Yields.on_readAll (h ▸ yields)

end Table

end IndexedTables
