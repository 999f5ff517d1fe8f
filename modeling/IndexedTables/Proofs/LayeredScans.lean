import IndexedTables.Proofs.NumericKeys
import IndexedTables.Proofs.TableScans
import IndexedTables.Proofs.Transactions
set_option autoImplicit false

namespace IndexedTables

namespace Overlay

open Program

variable {α : Type}

/-- Run over the overlays, the program answers so; they and the store below stay as they are. -/
def Answers (overlays : List Overlay) (base : Store) (p : Program α) (a : α) : Prop :=
  (serveAll overlays p).run Store.handler base = ((a, overlays), base)

theorem answers_of_readsOnly {p : Program α} (h : p.ReadsOnly) (overlays : List Overlay)
    (base : Store) :
    Answers overlays base p (p.run Store.handler (levels overlays base).top).1 := by
  obtain ⟨overlays', base', hrun, -⟩ := run_serveAll overlays p base
  have served := readsTo_serveAll h.readsTo overlays
  have hoverlays := (served.answer Store.handler base).2
  have hbase := served.readsOnly.store base
  rw [hrun] at hoverlays hbase
  rw [Answers, hrun]
  exact congrArg₂ (fun overlays base => ((_, overlays), base)) hoverlays hbase

/-- The value under a key: what the innermost change of the key leaves there, or what is below if no
overlay changes it. -/
def seen : List Overlay → Store → Bytes → Option Bytes
  | [], base, key => base.find? key
  | o :: outer, base, key => match o.find? key with
    | some change => change.value?
    | none => seen outer base key

theorem find?_levels (overlays : List Overlay) (base : Store) (key : Bytes) :
    (levels overlays base).top.find? key = seen overlays base key := by
  induction overlays with
  | nil => rfl
  | cons o outer ih =>
    have honto := find?_onto o (levels outer base).top key
    rw [ih] at honto
    exact honto

/-- The operation makes a cursor, and the rows that it shows are these or fail so. -/
def Shows {T : Type} (overlays : List Overlay) (base : Store) (op : Op (Cursor T))
    (outs : List (Except Error (Row T))) : Prop :=
  ∃ cursor : Cursor T, Answers overlays base op.run (.ok cursor) ∧
    Answers overlays base cursor.outcomes outs

def Invalid (overlays : List Overlay) (base : Store) (op : Op α) : Prop :=
  ∃ e, Answers overlays base op.run (.error e) ∧ e.kind = .invalidArgument

variable {T : Type} {overlays : List Overlay} {base : Store} {op : Op (Cursor T)}

theorem Shows.not_invalid {outs : List (Except Error (Row T))} (h : Shows overlays base op outs) :
    ¬ Invalid overlays base op := by
  obtain ⟨cursor, hcursor, -⟩ := h
  rintro ⟨e, herror, -⟩
  rw [Answers, hcursor] at herror
  cases herror

theorem outcomes_lift (loads : List (Except Error (Row T))) :
    Cursor.outcomes (loads.map fun load => liftM load) = .done loads := by
  unfold Cursor.outcomes
  induction loads with
  | nil => rfl
  | cons load rest ih =>
    rw [List.map_cons, List.mapM_cons, ih]
    cases load <;> rfl

theorem shows_of_on (reads : op.run.ReadsOnly) {loads : List (Except Error (Row T))}
    (h : (op.on (levels overlays base).top).1 = .ok (loads.map fun load => liftM load)) :
    Shows overlays base op loads := by
  have hop := answers_of_readsOnly reads overlays base
  rw [Op.on] at h
  rw [h] at hop
  refine ⟨_, hop, ?_⟩
  rw [outcomes_lift]
  exact answers_of_readsOnly (p := Program.done loads) trivial overlays base

theorem invalid_of_on (reads : op.run.ReadsOnly) {e : Error}
    (h : (op.on (levels overlays base).top).1 = .error e) (kind : e.kind = .invalidArgument) :
    Invalid overlays base op := by
  have hop := answers_of_readsOnly reads overlays base
  rw [Op.on] at h
  rw [h] at hop
  exact ⟨e, hop, kind⟩

end Overlay

variable {T : Type}

namespace Table

theorem readsOnly_scan (t : Table T) (range : KeyRange) (reverse : Bool) :
    (t.scan range reverse).run.ReadsOnly := by
  cases h : range.inverted with
  | true =>
    rw [scan, KeyRange.check_of_inverted h]
    trivial
  | false =>
    rw [scan, KeyRange.check_of_not_inverted h]
    refine ⟨rfl, fun reply => ?_⟩
    cases reply <;> trivial

def loaded (t : Table T) (e : Bytes × Bytes) : Except Error (Row T) :=
  (t.codec.unmarshal e.2).map (Row.mk ⟨e.1⟩)

theorem shows_scan (t : Table T) {range : KeyRange} (h : range.inverted = false) (reverse : Bool)
    (overlays : List Overlay) (base : Store) :
    Overlay.Shows overlays base (t.scan range reverse)
      ((if reverse then (((Overlay.levels overlays base).top.part t.space).range range).reverse
        else ((Overlay.levels overlays base).top.part t.space).range range).map t.loaded) := by
  refine Overlay.shows_of_on (t.readsOnly_scan range reverse) ?_
  rw [t.on_scan h, List.map_map]
  refine congrArg Except.ok (List.map_congr_left fun e _ => ?_)
  rw [t.ofItem_ok]
  rfl

theorem invalid_scan (t : Table T) {range : KeyRange} (h : range.inverted) (reverse : Bool)
    (overlays : List Overlay) (base : Store) :
    Overlay.Invalid overlays base (t.scan range reverse) := by
  refine Overlay.invalid_of_on (t.readsOnly_scan range reverse) (e := .emptyRange) ?_ rfl
  rw [scan, KeyRange.check_of_inverted h]
  rfl

/-- A range whose bounds leave nothing between them is refused. In any other, a scan shows what the
table is seen to store, id by id or in the reverse of that. -/
structure ScansStored (t : Table T) (overlays : List Overlay) (base : Store) (range : KeyRange) :
    Prop where
  refused_iff : ∀ reverse, Overlay.Invalid overlays base (t.scan range reverse) ↔
    ∃ start ∈ range.start, ∃ stop ∈ range.stop, stop ≤ start
  shown : (¬ ∃ start ∈ range.start, ∃ stop ∈ range.stop, stop ≤ start) →
    ∃ entries : List (Bytes × Bytes),
      (∀ id stored, (id, stored) ∈ entries ↔
        Overlay.seen overlays base (t.space :: id) = some stored ∧
          (∀ start ∈ range.start, start ≤ id) ∧ ∀ stop ∈ range.stop, id < stop) ∧
      (entries.Pairwise fun a b => a.1 < b.1) ∧
      Overlay.Shows overlays base (t.scan range false) (entries.map t.loaded) ∧
      Overlay.Shows overlays base (t.scan range true) (entries.reverse.map t.loaded)

theorem scansStored (t : Table T) (overlays : List Overlay) (base : Store) (range : KeyRange) :
    t.ScansStored overlays base range where
  refused_iff reverse := by
    rw [← KeyRange.inverted_iff]
    refine ⟨fun refused => ?_, fun h => t.invalid_scan h reverse overlays base⟩
    by_contra h
    exact (t.shows_scan (Bool.eq_false_of_not_eq_true h) reverse overlays base).not_invalid refused
  shown ordered := by
    rw [← KeyRange.inverted_iff] at ordered
    have hinverted := Bool.eq_false_of_not_eq_true ordered
    refine ⟨((Overlay.levels overlays base).top.part t.space).range range, fun id stored => ?_,
      ((Overlay.levels overlays base).top.part t.space).ascending.filter _,
      t.shows_scan hinverted false overlays base, t.shows_scan hinverted true overlays base⟩
    rw [← Overlay.find?_levels, ← Store.find?_part, SortedMap.find?_eq_some_iff,
      ← KeyRange.contains_iff]
    exact List.mem_filter

end Table

namespace NumberedTable

def ScansStored (t : NumberedTable T) (overlays : List Overlay) (base : Store)
    (first last : UInt64) : Prop :=
  ∃ entries : List (UInt64 × Bytes),
    (∀ n stored, (n, stored) ∈ entries ↔
      Overlay.seen overlays base (t.table.space :: numericKey n) = some stored ∧
        first ≤ n ∧ n < last) ∧
    (entries.Pairwise fun a b => a.1 < b.1) ∧
    Overlay.Shows overlays base (t.scan first last false)
      (entries.map fun e => t.table.loaded (numericKey e.1, e.2)) ∧
    Overlay.Shows overlays base (t.scan first last true)
      (entries.reverse.map fun e => t.table.loaded (numericKey e.1, e.2))

theorem exists_numbers {entries : List (Bytes × Bytes)} (h : ∀ e ∈ entries, e.1.length = 8) :
    ∃ numbers : List (UInt64 × Bytes), entries = numbers.map fun e => (numericKey e.1, e.2) := by
  refine ⟨entries.map fun e => (UInt64.ofNat (Bytes.bigValue e.1), e.2), ?_⟩
  rw [List.map_map]
  refine (List.map_id entries).symm.trans (List.map_congr_left fun e he => ?_)
  exact Prod.ext (numericKey_of_length (h e he)).symm rfl

theorem scansStored (t : NumberedTable T) {overlays : List Overlay} {base : Store}
    (numeric : ∀ id stored, Overlay.seen overlays base (t.table.space :: id) = some stored →
      id.length = 8)
    {first last : UInt64} (h : first < last) : t.ScansStored overlays base first last := by
  have ordered : ¬ ∃ start ∈ (KeyRange.ofNumbers first last).start,
      ∃ stop ∈ (KeyRange.ofNumbers first last).stop, stop ≤ start := by
    rw [← KeyRange.inverted_iff, KeyRange.not_inverted_ofNumbers h]
    exact Bool.false_ne_true
  obtain ⟨entries, mem, sorted, forward, backward⟩ :=
    (t.table.scansStored overlays base (.ofNumbers first last)).shown ordered
  obtain ⟨numbers, rfl⟩ := exists_numbers fun e he => numeric e.1 e.2 ((mem e.1 e.2).1 he).1
  rw [List.map_map] at forward
  rw [← List.map_reverse, List.map_map] at backward
  refine ⟨numbers, fun n stored => ?_, ?_, forward, backward⟩
  · have hn := mem (numericKey n) stored
    rw [← KeyRange.contains_iff, KeyRange.contains_ofNumbers] at hn
    rw [← hn, List.mem_map]
    constructor
    · intro found
      exact ⟨_, found, rfl⟩
    · rintro ⟨⟨m, value⟩, found, same⟩
      obtain ⟨hkey, rfl⟩ := Prod.mk.inj same
      exact numericKey_injective hkey ▸ found
  · exact (List.pairwise_map.1 sorted).imp fun below => (numericKey_lt_iff _ _).1 below

end NumberedTable

/-- Whatever is kept back over the store, a scan of a table shows exactly the rows that are seen in
its space and in the range, in order; and where all ids are numbers, in the order of these. -/
theorem Table.scans_list_stored_rows (t : Table T) (overlays : List Overlay) (base : Store) :
    (∀ range, t.ScansStored overlays base range) ∧
    ((∀ id stored, Overlay.seen overlays base (t.space :: id) = some stored → id.length = 8) →
      ∀ (q : Sequence) (first last : UInt64), first < last →
        NumberedTable.ScansStored ⟨t, q⟩ overlays base first last) :=
  ⟨t.scansStored overlays base, fun numeric q _ _ h =>
    NumberedTable.scansStored ⟨t, q⟩ numeric h⟩

def lastWords : Table Bytes := ⟨⟨0xff, wordCodec⟩, []⟩

def lastStored : Store := .ofList
  [(0xff :: numericKey 1, [0x61]), (0xff :: numericKey 3, [0x63]), ([0xfe, 0xff], [0x7a])]

def lastOverlays : List Overlay :=
  [.ofList [(0xff :: numericKey 3, .remove)], .ofList [(0xff :: numericKey 2, .put [0x62])]]

theorem lastSeen_numeric (id stored : Bytes)
    (h : Overlay.seen lastOverlays lastStored (0xff :: id) = some stored) : id.length = 8 := by
  have hentries : (Overlay.levels lastOverlays lastStored).top.entries =
      [([0xfe, 0xff], [0x7a]), (0xff :: numericKey 1, [0x61]), (0xff :: numericKey 2, [0x62])] :=
    rfl
  rw [← Overlay.find?_levels, SortedMap.find?_eq_some_iff, hentries] at h
  have hid : id = numericKey 1 ∧ stored = [0x61] ∨ id = numericKey 2 ∧ stored = [0x62] := by
    simpa using h
  rcases hid with ⟨rfl, -⟩ | ⟨rfl, -⟩ <;> exact length_numericKey _

theorem lastWords_scanned :
    (∀ id stored, Overlay.seen lastOverlays lastStored (lastWords.space :: id) = some stored →
        id.length = 8) ∧ (1 : UInt64) < 4 ∧
      lastWords.ScansStored lastOverlays lastStored .all ∧
      NumberedTable.ScansStored ⟨lastWords, ⟨0x07⟩⟩ lastOverlays lastStored 1 4 ∧
      Overlay.Shows lastOverlays lastStored (lastWords.scan .all true)
        [.ok ⟨.ofNumber 2, [0x62]⟩, .ok ⟨.ofNumber 1, [0x61]⟩] := by
  obtain ⟨stored, numbered⟩ := lastWords.scans_list_stored_rows lastOverlays lastStored
  exact ⟨lastSeen_numeric, by decide, stored .all,
    numbered lastSeen_numeric ⟨0x07⟩ 1 4 (by decide), ⟨_, rfl, rfl⟩⟩

end IndexedTables
