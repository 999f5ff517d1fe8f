import IndexedTables.Index.Unique
import IndexedTables.Proofs.IndexScans
import IndexedTables.Proofs.NumericKeys
set_option autoImplicit false

namespace IndexedTables

variable {T : Type}

theorem KeyRange.contains_only (key other : Bytes) :
    (KeyRange.only key).contains other ↔ other = key := by
  rw [contains_iff]
  constructor
  · intro ⟨low, high⟩
    have hlow : key ++ [] ≤ other := by simpa using low key rfl
    have hhigh : other < key ++ [0] := high _ rfl
    obtain ⟨rest, rfl⟩ := Bytes.prefix_of_between hlow hhigh
    cases rest with
    | nil => simp
    | cons b bs =>
      have hb : b < 0 ∨ b = 0 ∧ bs < [] :=
        List.cons_lt_cons_iff.1 ((Bytes.append_lt_append_iff key _ _).1 hhigh)
      simp at hb
  · intro same
    subst same
    simp [only, Bytes.lt_append]

theorem Store.range_only (m : Store) (key : Bytes) :
    m.range (.only key) = (m.find? key).toList.map (key, ·) := by
  have mem : ∀ e, e ∈ m.range (.only key) ↔ e.1 = key ∧ m.find? key = some e.2 := by
    intro e
    rw [Store.range, List.mem_filter, KeyRange.contains_only, ← SortedMap.find?_eq_some_iff]
    grind
  have sorted : (m.range (.only key)).Pairwise fun a b => a.1 < b.1 := m.ascending.filter _
  cases hrange : m.range (.only key) with
  | nil =>
    cases hfind : m.find? key with
    | none => rfl
    | some value => simpa [hrange, hfind] using mem (key, value)
  | cons e rest =>
    obtain ⟨hkey, hfind⟩ := (mem e).1 (by simp [hrange])
    cases rest with
    | nil =>
      rw [hfind, ← hkey]
      rfl
    | cons f rest =>
      rw [hrange] at sorted
      have hf := ((mem f).1 (by simp [hrange])).1
      have hlt := (List.pairwise_cons.1 sorted).1 f (by simp)
      rw [hkey, hf] at hlt
      exact absurd hlt Std.lt_irrefl

/-- The live rows whose values satisfy `p`, each once, in the order of their ids with the length
behind. -/
structure LiveRows.Lists (live : LiveRows T) (p : T → Prop) (rows : List (Row T)) : Prop where
  mem : ∀ row, row ∈ rows ↔ live.find? row.id.bytes = some row.value ∧ p row.value
  ascending : rows.Pairwise fun a b =>
    a.id.bytes ++ [UInt8.ofNat a.id.bytes.length] < b.id.bytes ++ [UInt8.ofNat b.id.bytes.length]
  byId : (∀ a ∈ rows, ∀ b ∈ rows, a.id.bytes.length = b.id.bytes.length) →
    rows.Pairwise fun a b => a.id.bytes < b.id.bytes

/-- The operation is refused for its arguments and reads nothing. -/
def Op.Invalid {α : Type} (op : Op α) (s : Store) : Prop :=
  ∃ e, op.on s = (.error e, s) ∧ e.kind = .invalidArgument

namespace MultiKeyIndex

variable {t : Table T} {indexers : List (Indexer T)} {live : LiveRows T} {s : Store}
  {indexer : Indexer T}

structure Finds (ix : MultiKeyIndex T) (s : Store) (key : Bytes) (rows : List (Row T)) :
    Prop where
  get : Shows (ix.get key) s (rows.map .ok)
  has : (ix.has key).on s = (.ok (decide (rows ≠ [])), s)

theorem checkIndexKey_of_ne {key : Bytes} (h : key ≠ []) : checkIndexKey key = .ok () := by
  simp [checkIndexKey, h]

theorem holds_eq (key : Bytes) {es : List IndexEntry} (hvalid : ∀ e ∈ es, e.id.Valid) :
    holds key (es.map fun e => .ok (e.bytes, [])) = .ok (es.any (·.key = key)) := by
  induction es with
  | nil => rfl
  | cons e rest ih =>
    obtain ⟨he, hrest⟩ := List.forall_mem_cons.1 hvalid
    change (do
      if (← IndexEntry.decode e.bytes).key = key then return true
      holds key (rest.map fun e : IndexEntry => .ok (e.bytes, []))) = _
    rw [IndexEntry.decode_bytes he]
    change (if e.key = key then .ok true else holds key _) = _
    by_cases hkey : e.key = key
    · simp [hkey]
    · simpa [hkey] using ih hrest

theorem filter_entries (key : Bytes) {es : List IndexEntry} (hvalid : ∀ e ∈ es, e.id.Valid) :
    (entries (es.map fun e : IndexEntry => .ok (e.bytes, []))).filter (matchesKey key) =
      (es.filter (·.key = key)).map .ok := by
  have hentries : entries (es.map fun e : IndexEntry => .ok (e.bytes, [])) = es.map .ok := by
    rw [entries, List.map_map]
    exact List.map_congr_left fun e he => IndexEntry.decode_bytes (hvalid e he)
  rw [hentries, List.filter_map]
  rfl

/-- The interval of all entries that begin with the key misses none of its entries, and what else
lies in it is told apart by the key of the entry. -/
theorem exists_found (h : t.Consistent indexers live s) (hix : indexer ∈ indexers)
    (hpolicy : indexer.policy = .multiKey) {key : Bytes} (hkey : key ≠ []) :
    ∃ es : List IndexEntry, (∀ e, e ∈ es ↔ e ∈ indexer.entriesOf live ∧ e.key = key) ∧
      (es.Pairwise fun a b => a.tail < b.tail) ∧
      (get ⟨indexer.space, t.toRows⟩ key).on s =
        (.ok (es.map fun e => load ⟨indexer.space, t.toRows⟩ (.ok e)), s) ∧
      (has ⟨indexer.space, t.toRows⟩ key).on s = (.ok (decide (es ≠ [])), s) := by
  have hkeeps := h.entries indexer hix
  rw [hpolicy] at hkeeps
  obtain ⟨es, hes, mem, sorted⟩ := hkeeps.exists_entries (.beginningWith key)
  have hvalid : ∀ e ∈ es, e.id.Valid := fun e he => hkeeps.valid e ((mem e).1 he).1
  have hitems := Op.on_scan_inSpace indexer.space (.beginningWith key) false s
  rw [hes] at hitems
  simp only [Bool.false_eq_true, if_false, List.map_map, Function.comp_def] at hitems
  refine ⟨es.filter (·.key = key), fun e => ?_, ?_, ?_, ?_⟩
  · -- Every entry of the key begins with it; that others may, too, is what the filter is for.
    have hbegins : e.key = key → (KeyRange.beginningWith key).contains e.bytes := by
      intro same
      rw [KeyRange.contains_beginningWith, IndexEntry.bytes, same]
      exact List.prefix_append key e.tail
    rw [List.mem_filter, mem, decide_eq_true_eq]
    grind
  · refine (sorted.filter _).imp_of_mem fun {a b} ha hb hlt => ?_
    have hkeys : a.key = key ∧ b.key = key := by
      simp only [List.mem_filter, decide_eq_true_eq] at ha hb
      exact ⟨ha.2, hb.2⟩
    rw [IndexEntry.bytes, IndexEntry.bytes, hkeys.1, hkeys.2] at hlt
    exact (Bytes.append_lt_append_iff key _ _).1 hlt
  · simp only [get, Op.on_bind, Op.on_lift, checkIndexKey_of_ne hkey, hitems, Op.on_pure,
      filter_entries key hvalid, List.map_map]
    rfl
  · simp only [has, Op.on_bind, Op.on_lift, checkIndexKey_of_ne hkey, hitems, holds_eq key hvalid]
    congr 2
    rw [Bool.eq_iff_iff]
    simp [List.filter_eq_nil_iff]

theorem exists_rows {es : List IndexEntry} (hes : ∀ e ∈ es, e ∈ indexer.entriesOf live) :
    ∃ rows : List (Row T), es.map (IndexEntry.shown live) = rows.map .ok ∧
      rows.map Row.id = es.map IndexEntry.id := by
  induction es with
  | nil => exact ⟨[], rfl, rfl⟩
  | cons e rest ih =>
    obtain ⟨he, hrest⟩ := List.forall_mem_cons.1 hes
    obtain ⟨value, _, hshown⟩ := shown_of_mem he
    obtain ⟨rows, hrows, hids⟩ := ih hrest
    exact ⟨⟨e.id, value⟩ :: rows, by simp [hshown, hrows], by simp [hids]⟩

theorem exists_finds (h : t.Consistent indexers live s) (hix : indexer ∈ indexers)
    (hpolicy : indexer.policy = .multiKey) {key : Bytes} (hkey : key ≠ []) :
    ∃ rows, live.Lists (indexer.Derives · key) rows ∧
      Finds ⟨indexer.space, t.toRows⟩ s key rows := by
  obtain ⟨es, mem, sorted, hget, hhas⟩ := exists_found h hix hpolicy hkey
  obtain ⟨rows, hshown, hids⟩ := exists_rows fun e he => ((mem e).1 he).1
  have ascending : rows.Pairwise fun a b => a.id.bytes ++ [UInt8.ofNat a.id.bytes.length] <
      b.id.bytes ++ [UInt8.ofNat b.id.bytes.length] := by
    let tail (id : RowId) : Bytes := id.bytes ++ [UInt8.ofNat id.bytes.length]
    have hsorted : (es.map IndexEntry.id).Pairwise fun i j => tail i < tail j :=
      List.pairwise_map.2 sorted
    rw [← hids, List.pairwise_map] at hsorted
    exact hsorted
  refine ⟨rows, ⟨fun row => ?_, ascending, fun hlengths => ?_⟩, ?_, ?_⟩
  · have hrow : row ∈ rows ↔ ∃ e ∈ es, e.shown live = .ok row := by
      have hmap : (.ok row : Except Error (Row T)) ∈ rows.map .ok ↔ row ∈ rows := by simp
      rw [← hmap, ← hshown, List.mem_map]
    rw [hrow]
    constructor
    · rintro ⟨e, he, hrow⟩
      obtain ⟨⟨value, hlive, hderives⟩, hkey⟩ := (mem e).1 he
      rw [IndexEntry.shown, hlive] at hrow
      cases hrow
      exact ⟨hlive, hkey ▸ hderives⟩
    · rintro ⟨hlive, hderives⟩
      exact ⟨⟨key, row.id⟩, (mem _).2 ⟨⟨row.value, hlive, hderives⟩, rfl⟩,
        by rw [IndexEntry.shown, hlive]⟩
  · refine ascending.imp_of_mem fun {a b} ha hb hlt => ?_
    have hlength := hlengths a ha b hb
    rw [hlength, Bytes.append_lt_append_iff_of_length hlength] at hlt
    exact hlt.resolve_right fun found => Std.lt_irrefl found.2
  · rw [← hshown]
    exact shows_map_load h hget
  · have hnil : es ≠ [] ↔ rows ≠ [] := by
      have hlength := congrArg List.length hids
      rw [List.length_map, List.length_map] at hlength
      rw [← List.length_pos_iff, ← List.length_pos_iff, hlength]
    simpa only [hnil] using hhas

theorem invalid_of_empty (ix : MultiKeyIndex T) (s : Store) :
    (ix.get []).Invalid s ∧ (ix.has []).Invalid s :=
  ⟨⟨.emptyIndexKey, rfl, rfl⟩, ⟨.emptyIndexKey, rfl, rfl⟩⟩

end MultiKeyIndex

namespace UniqueIndex

variable {t : Table T} {indexers : List (Indexer T)} {live : LiveRows T} {s : Store}
  {indexer : Indexer T}

def orNotFound {α : Type} : Option α → Except Error α
  | some a => .ok a
  | none => .error .notFound

/-- Asked about the key in any way, the index shows this row, or none. -/
structure Finds (ix : UniqueIndex T) (s : Store) (key : Bytes) (found : Option (Row T)) :
    Prop where
  get : MultiKeyIndex.Shows (ix.get key) s (found.toList.map .ok)
  has : (ix.has key).on s = (.ok found.isSome, s)
  owner : (ix.owner key).on s = (orNotFound (found.map Row.id), s)
  getOne : (ix.getOne key).on s = (orNotFound found, s)

theorem on_has (ix : UniqueIndex T) {key : Bytes} (hkey : key ≠ []) (s : Store) :
    (ix.has key).on s = (.ok (s.find? (ix.space :: key)).isSome, s) := by
  have hhas : ((Op.has key).inSpace ix.space).on s =
      (.ok (s.contains (ix.space :: key)), s) :=
    Op.on_inSpace_of_reads (by simp [SortedMap.contains])
  simp [has, Op.on_bind, MultiKeyIndex.checkIndexKey_of_ne hkey, hhas, SortedMap.contains]

theorem on_owner (ix : UniqueIndex T) {key : Bytes} (hkey : key ≠ []) (s : Store) :
    (ix.owner key).on s = (orNotFound ((s.find? (ix.space :: key)).map RowId.mk), s) := by
  have hget : ((Op.get key).inSpace ix.space).on s = (.ok (s.find? (ix.space :: key)), s) :=
    Op.on_inSpace_of_reads (by simp)
  simp only [owner, Op.on_bind, Op.on_lift, MultiKeyIndex.checkIndexKey_of_ne hkey, hget]
  cases s.find? (ix.space :: key) <;> rfl

theorem on_get (ix : UniqueIndex T) {key : Bytes} (hkey : key ≠ []) (s : Store) :
    (ix.get key).on s =
      (.ok ((s.find? (ix.space :: key)).toList.map fun id => ix.load (.ok (key, id))), s) := by
  have hscan := Op.on_scan_inSpace ix.space (.only key) false s
  rw [Store.range_only, Store.find?_part] at hscan
  simp only [get, Op.on_bind, Op.on_lift, MultiKeyIndex.checkIndexKey_of_ne hkey, hscan,
    Op.on_pure, Bool.false_eq_true, if_false, List.map_map]
  rfl

theorem on_load (h : t.Consistent indexers live s) (space : Space) (key : Bytes) {id : Bytes}
    {value : T} (hlive : live.find? id = some value) :
    (load ⟨space, t.toRows⟩ (.ok (key, id))).on s = (.ok ⟨⟨id⟩, value⟩, s) := by
  have hget : (t.toRows.get ⟨id⟩).on s = (.ok value, s) := Table.on_get_of_live h hlive
  change (do return (⟨⟨id⟩, ← t.toRows.get ⟨id⟩⟩ : Row T) : Op (Row T)).on s = _
  rw [Op.on_bind, hget]
  rfl

theorem exists_finds (h : t.Consistent indexers live s) (hix : indexer ∈ indexers)
    (hpolicy : indexer.policy = .unique) {key : Bytes} (hkey : key ≠ []) :
    ∃ found : Option (Row T), (∀ row, found = some row ↔
        live.find? row.id.bytes = some row.value ∧ indexer.Derives row.value key) ∧
      Finds ⟨indexer.space, t.toRows⟩ s key found := by
  have hkeeps := h.entries indexer hix
  rw [hpolicy] at hkeeps
  have hfind : ∀ id, s.find? (indexer.space :: key) = some id ↔
      ∃ value, live.find? id = some value ∧ indexer.Derives value key := by
    intro id
    rw [← Store.find?_part, hkeeps.find?_unique]
    rfl
  have hget := on_get ⟨indexer.space, t.toRows⟩ hkey s
  have hhas := on_has ⟨indexer.space, t.toRows⟩ hkey s
  have howner := on_owner ⟨indexer.space, t.toRows⟩ hkey s
  cases hstored : s.find? (indexer.space :: key) with
  | none =>
    simp only [hstored] at hget hhas howner
    refine ⟨none, fun row => ?_, ⟨[], hget, rfl⟩, hhas, howner, ?_⟩
    · constructor
      · intro found
        cases found
      · rintro ⟨hlive, hderives⟩
        have hsome := (hfind row.id.bytes).2 ⟨row.value, hlive, hderives⟩
        rw [hstored] at hsome
        cases hsome
    · rw [getOne, Op.on_bind, hget]
      rfl
  | some id =>
    simp only [hstored] at hget hhas howner
    obtain ⟨value, hlive, hderives⟩ := (hfind id).1 hstored
    have hload := on_load h indexer.space key hlive
    refine ⟨some ⟨⟨id⟩, value⟩, fun row => ?_, ⟨_, hget, ?_⟩, hhas, howner, ?_⟩
    · constructor
      · intro found
        cases found
        exact ⟨hlive, hderives⟩
      · rintro ⟨hlive', hderives'⟩
        have hsome := (hfind row.id.bytes).2 ⟨row.value, hlive', hderives'⟩
        rw [hstored] at hsome
        cases hsome
        rw [hlive] at hlive'
        cases hlive'
        rfl
    · exact @Cursor.run_outcomes T Unit _ (fun _ => .ok ⟨⟨id⟩, value⟩) s (fun _ => hload) [()]
    · rw [getOne, Op.on_bind, hget]
      exact hload

theorem invalid_of_empty (ix : UniqueIndex T) (s : Store) :
    (ix.get []).Invalid s ∧ (ix.has []).Invalid s ∧ (ix.owner []).Invalid s ∧
      (ix.getOne []).Invalid s :=
  ⟨⟨.emptyIndexKey, rfl, rfl⟩, ⟨.emptyIndexKey, rfl, rfl⟩, ⟨.emptyIndexKey, rfl, rfl⟩,
    ⟨.emptyIndexKey, rfl, rfl⟩⟩

end UniqueIndex

def Indexer.ofNumbers (space : Space) (numbers : T → Except Error (List UInt64)) : Indexer T :=
  ⟨space, .multiKey, fun value => (numbers value).map (·.map numericKey)⟩

theorem Indexer.derives_ofNumbers {space : Space} {numbers : T → Except Error (List UInt64)}
    {value : T} {n : UInt64} : (ofNumbers space numbers).Derives value (numericKey n) ↔
      ∃ ns, numbers value = .ok ns ∧ n ∈ ns := by
  cases hnumbers : numbers value with
  | error e => simp [Derives, ofNumbers, hnumbers, Except.map]
  | ok ns =>
    have hkey : ∀ m ∈ ns, numericKey m = numericKey n → n ∈ ns := fun m hm same =>
      numericKey_injective same ▸ hm
    simp [Derives, ofNumbers, hnumbers, Except.map, numericKey_ne_nil]
    grind

structure NumberIndex.Finds (ix : NumberIndex T) (s : Store) (n : UInt64) (rows : List (Row T)) :
    Prop where
  get : MultiKeyIndex.Shows (ix.get n) s (rows.map .ok)
  has : (ix.has n).on s = (.ok (decide (rows ≠ [])), s)

theorem NumberIndex.exists_finds {t : Table T} {indexers : List (Indexer T)} {live : LiveRows T}
    {s : Store} (h : t.Consistent indexers live s) {space : Space}
    {numbers : T → Except Error (List UInt64)} (hix : Indexer.ofNumbers space numbers ∈ indexers)
    (n : UInt64) : ∃ rows, live.Lists (fun value => ∃ ns, numbers value = .ok ns ∧ n ∈ ns) rows ∧
      Finds ⟨⟨space, t.toRows⟩⟩ s n rows := by
  obtain ⟨rows, lists, finds⟩ := MultiKeyIndex.exists_finds h hix rfl (numericKey_ne_nil n)
  simp only [Indexer.derives_ofNumbers] at lists
  exact ⟨rows, lists, finds.get, finds.has⟩

namespace Table

/-- On a table in step with its indexes, a lookup by any key answers with the live rows that derive
it, all other ways to ask about the key agree, and no key is empty. -/
theorem lookups_answer_live_rows {t : Table T} {indexers : List (Indexer T)} {live : LiveRows T}
    {s : Store} (h : t.Consistent indexers live s) :
    (∀ ix ∈ indexers, ix.policy = .multiKey →
      (∀ key, key ≠ [] → ∃ rows, live.Lists (ix.Derives · key) rows ∧
        MultiKeyIndex.Finds ⟨ix.space, t.toRows⟩ s key rows) ∧
      (MultiKeyIndex.get ⟨ix.space, t.toRows⟩ []).Invalid s ∧
      (MultiKeyIndex.has ⟨ix.space, t.toRows⟩ []).Invalid s) ∧
    (∀ ix ∈ indexers, ix.policy = .unique →
      (∀ key, key ≠ [] → ∃ found : Option (Row T),
        (∀ row, found = some row ↔
          live.find? row.id.bytes = some row.value ∧ ix.Derives row.value key) ∧
        UniqueIndex.Finds ⟨ix.space, t.toRows⟩ s key found) ∧
      (UniqueIndex.get ⟨ix.space, t.toRows⟩ []).Invalid s ∧
      (UniqueIndex.has ⟨ix.space, t.toRows⟩ []).Invalid s ∧
      (UniqueIndex.owner ⟨ix.space, t.toRows⟩ []).Invalid s ∧
      (UniqueIndex.getOne ⟨ix.space, t.toRows⟩ []).Invalid s) ∧
    ∀ space numbers, Indexer.ofNumbers space numbers ∈ indexers → ∀ n, ∃ rows,
      live.Lists (fun value => ∃ ns, numbers value = .ok ns ∧ n ∈ ns) rows ∧
        NumberIndex.Finds ⟨⟨space, t.toRows⟩⟩ s n rows := by
  refine ⟨fun ix hix hpolicy => ?_, fun ix hix hpolicy => ?_, fun space numbers hix n => ?_⟩
  · exact ⟨fun key hkey => MultiKeyIndex.exists_finds h hix hpolicy hkey,
      MultiKeyIndex.invalid_of_empty _ s⟩
  · exact ⟨fun key hkey => UniqueIndex.exists_finds h hix hpolicy hkey,
      UniqueIndex.invalid_of_empty _ s⟩
  · exact NumberIndex.exists_finds h hix n

end Table

def beginnings : Indexer Bytes :=
  ⟨0x05, .multiKey, fun word => .ok [word.take 1, word.take 2]⟩

def lengths : Indexer Bytes := .ofNumbers 0x06 fun word => .ok [UInt64.ofNat word.length]

def tome : Table Bytes := ⟨⟨0x04, wordCodec⟩, [beginnings, initials, lengths].map Indexer.observer⟩

def tomeStored : Store :=
  ((tome.create ⟨[0xff]⟩ [0x61]).on ((tome.create ⟨[1]⟩ [0xff, 0xff]).on .empty).2).2

def tomeRows : LiveRows Bytes :=
  SortedMap.insert (SortedMap.insert .empty [1] [0xff, 0xff]) [0xff] [0x61]

theorem tome_consistent : tome.Consistent [beginnings, initials, lengths] tomeRows tomeStored := by
  have indexed : tome.IndexedBy [beginnings, initials, lengths] := ⟨rfl, by decide⟩
  have first : tome.Consistent [beginnings, initials, lengths]
      (SortedMap.insert .empty [1] [0xff, 0xff]) ((tome.create ⟨[1]⟩ [0xff, 0xff]).on .empty).2 :=
    (Table.consistent_empty tome _).of_create indexed wordCodec_roundTrips rfl
  exact first.of_create indexed wordCodec_roundTrips rfl

/-- The key `ff` is a run of the greatest byte, begins the key `ff ff`, and is an id as well. -/
theorem tome_looked_up :
    tome.Consistent [beginnings, initials, lengths] tomeRows tomeStored ∧
      (∃ rows, LiveRows.Lists tomeRows (beginnings.Derives · [0xff]) rows ∧
        MultiKeyIndex.Finds ⟨beginnings.space, tome.toRows⟩ tomeStored [0xff] rows) ∧
      (∃ found : Option (Row Bytes),
        (∀ row, found = some row ↔ tomeRows.find? row.id.bytes = some row.value ∧
          initials.Derives row.value [0x61]) ∧
        UniqueIndex.Finds ⟨initials.space, tome.toRows⟩ tomeStored [0x61] found) ∧
      ∃ rows, LiveRows.Lists tomeRows
          (fun word => ∃ ns,
            (.ok [UInt64.ofNat word.length] : Except Error (List UInt64)) = .ok ns ∧ 2 ∈ ns) rows ∧
        NumberIndex.Finds ⟨⟨lengths.space, tome.toRows⟩⟩ tomeStored 2 rows := by
  obtain ⟨many, sole, numbers⟩ := Table.lookups_answer_live_rows tome_consistent
  exact ⟨tome_consistent, (many beginnings (by simp) rfl).1 [0xff] (by simp),
    (sole initials (by simp) rfl).1 [0x61] (by simp), numbers 0x06 _ (by simp [lengths]) 2⟩

end IndexedTables
