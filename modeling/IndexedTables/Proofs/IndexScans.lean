import IndexedTables.Proofs.TableWrites
import IndexedTables.Query.Router
/-!
Scans of an index that holds many rows under a key. The bounds of a scan are held against the bytes
of the entries, in which the row id follows the key, and not against the keys. What a scan shows is
therefore what its bounds ask of the keys exactly if no bound and no key falls among the bytes that
follow another key.
-/
set_option autoImplicit false

namespace IndexedTables

variable {T : Type}

namespace IndexEntry

def bytes (e : IndexEntry) : Bytes := e.key ++ e.tail

/-- The bound lies behind the key of the entry and not behind its bytes. -/
def Crosses (e : IndexEntry) (bound : Option Bytes) : Prop :=
  ∃ t, t ≠ [] ∧ bound = some (e.key ++ t) ∧ t ≤ e.tail

/-- Exactly the entries with a key in the range, in the order of keys. -/
structure ByKey (E : Set IndexEntry) (range : KeyRange) (es : List IndexEntry) : Prop where
  mem : ∀ e, e ∈ es ↔ e ∈ E ∧ range.contains e.key
  ascending : es.Pairwise fun a b => a.key ≤ b.key

/-- No bound and no key gets among the bytes behind a key in a way that shows. -/
structure Clear (E : Set IndexEntry) (range : KeyRange) : Prop where
  bounds : ∀ e ∈ E, (e.Crosses range.start ↔ e.Crosses range.stop)
  order : ∀ e ∈ E, ∀ f ∈ E, range.contains e.key → range.contains f.key →
    ∀ t, t ≠ [] → e.key = f.key ++ t → ¬ t ++ e.tail < f.tail

theorem crosses_some_iff (e : IndexEntry) (bound : Bytes) :
    e.Crosses (some bound) ↔ e.key < bound ∧ bound ≤ e.bytes := by
  rw [bytes, Bytes.crosses_iff]
  simp [Crosses]

theorem not_crosses_none (e : IndexEntry) : ¬ e.Crosses none := by
  intro found
  obtain ⟨t, _, h, _⟩ := found
  cases h

theorem start_le_bytes_iff (e : IndexEntry) (start : Option Bytes) :
    (∀ b ∈ start, b ≤ e.bytes) ↔ (∀ b ∈ start, b ≤ e.key) ∨ e.Crosses start := by
  cases start with
  | none => simp
  | some b =>
    have hle : b ≤ e.key → b ≤ e.bytes := fun h => Std.le_trans h (Bytes.le_append e.key e.tail)
    simp only [Option.mem_some_iff, forall_eq', crosses_some_iff, ← Std.not_le]
    grind

theorem key_lt_stop_iff (e : IndexEntry) (stop : Option Bytes) :
    (∀ b ∈ stop, e.key < b) ↔ (∀ b ∈ stop, e.bytes < b) ∨ e.Crosses stop := by
  cases stop with
  | none => simp
  | some b =>
    have hlt : e.bytes < b → e.key < b := Std.lt_of_le_of_lt (Bytes.le_append e.key e.tail)
    simp only [Option.mem_some_iff, forall_eq', crosses_some_iff, ← Std.not_lt] at hlt ⊢
    grind

theorem Crosses.apart {e : IndexEntry} {bound : Option Bytes} (h : e.Crosses bound) :
    (¬ ∀ b ∈ bound, b ≤ e.key) ∧ ¬ ∀ b ∈ bound, e.bytes < b := by
  cases bound with
  | none => exact absurd h (not_crosses_none e)
  | some b =>
    obtain ⟨above, within⟩ := (crosses_some_iff e b).1 h
    exact ⟨fun low => Std.not_lt.2 (low b rfl) above, fun high => Std.not_lt.2 within (high b rfl)⟩

theorem contains_bytes_iff {range : KeyRange} (hrange : range.inverted = false) (e : IndexEntry) :
    (range.contains e.bytes ↔ range.contains e.key) ↔
      (e.Crosses range.start ↔ e.Crosses range.stop) := by
  have hordered : ∀ a ∈ range.start, ∀ b ∈ range.stop, a < b := by
    intro a ha b hb
    by_contra hnot
    have hinverted := range.inverted_iff.2 ⟨a, ha, b, hb, Std.not_lt.1 hnot⟩
    rw [hrange] at hinverted
    cases hinverted
  have hstart : e.Crosses range.start → ∀ b ∈ range.stop, e.key < b := by
    intro crosses b hb
    obtain ⟨t, ht, hbound, _⟩ := crosses
    exact Std.lt_trans (Bytes.lt_append e.key ht) (hordered _ hbound b hb)
  have hstop : e.Crosses range.stop → ∀ a ∈ range.start, a ≤ e.bytes := by
    intro crosses a ha
    obtain ⟨t, _, hbound, htail⟩ := crosses
    have hwithin := (Bytes.append_le_append_iff e.key t e.tail).2 htail
    exact Std.le_trans (Std.le_of_lt (hordered a ha _ hbound)) hwithin
  have hlow := start_le_bytes_iff e range.start
  have hhigh := key_lt_stop_iff e range.stop
  have apart_start := fun h : e.Crosses range.start => h.apart.1
  have apart_stop := fun h : e.Crosses range.stop => h.apart.2
  rw [KeyRange.contains_iff, KeyRange.contains_iff]
  grind

theorem key_le_of_bytes_lt {es : List IndexEntry}
    (sorted : es.Pairwise fun a b => a.bytes < b.bytes)
    (ascending : es.Pairwise fun a b => a.key ≤ b.key) {e f : IndexEntry} (he : e ∈ es)
    (hf : f ∈ es) (hlt : e.bytes < f.bytes) : e.key ≤ f.key := by
  induction es with
  | nil => cases he
  | cons a rest ih =>
    obtain ⟨above, sorted'⟩ := List.pairwise_cons.1 sorted
    obtain ⟨least, ascending'⟩ := List.pairwise_cons.1 ascending
    rcases List.mem_cons.1 he with rfl | he'
    · rcases List.mem_cons.1 hf with rfl | hf'
      · exact absurd hlt Std.lt_irrefl
      · exact least f hf'
    · rcases List.mem_cons.1 hf with rfl | hf'
      · exact absurd (Std.lt_trans hlt (above e he')) Std.lt_irrefl
      · exact ih sorted' ascending' he' hf'

/-- Entries in the order of their bytes stand in the order of their keys, unless one stands before
another whose key its own key extends. -/
theorem ascending_iff {es : List IndexEntry}
    (sorted : es.Pairwise fun a b => a.bytes < b.bytes) :
    (es.Pairwise fun a b => a.key ≤ b.key) ↔
      ∀ e ∈ es, ∀ f ∈ es, ∀ t, t ≠ [] → e.key = f.key ++ t → ¬ t ++ e.tail < f.tail := by
  constructor
  · intro ascending e he f hf t ht hkey hlt
    have hbytes : e.bytes < f.bytes := by
      rw [bytes, bytes, hkey, List.append_assoc]
      exact (Bytes.append_lt_append_iff f.key _ _).2 hlt
    have hle := key_le_of_bytes_lt sorted ascending he hf hbytes
    rw [hkey] at hle
    exact Std.not_lt.2 hle (Bytes.lt_append f.key ht)
  · intro order
    refine sorted.imp_of_mem fun {e f} he hf hbytes => Std.not_lt.1 fun hlt => ?_
    have hwithin : e.key ≤ f.bytes :=
      Std.le_trans (Bytes.le_append e.key e.tail) (Std.le_of_lt hbytes)
    obtain ⟨t, ht, hkey, _⟩ := (Bytes.crosses_iff f.key f.tail e.key).1 ⟨hlt, hwithin⟩
    refine order e he f hf t ht hkey ?_
    rw [bytes, bytes, hkey, List.append_assoc] at hbytes
    exact (Bytes.append_lt_append_iff f.key _ _).1 hbytes

theorem byKey_iff_clear {E : Set IndexEntry} {range : KeyRange} (hrange : range.inverted = false)
    {es : List IndexEntry} (mem : ∀ e, e ∈ es ↔ e ∈ E ∧ range.contains e.bytes)
    (sorted : es.Pairwise fun a b => a.bytes < b.bytes) : ByKey E range es ↔ Clear E range := by
  have hbounds : (∀ e, e ∈ es ↔ e ∈ E ∧ range.contains e.key) ↔
      ∀ e ∈ E, (e.Crosses range.start ↔ e.Crosses range.stop) := by
    refine forall_congr' fun e => ?_
    rw [mem, ← contains_bytes_iff hrange]
    grind
  constructor
  · intro h
    refine ⟨hbounds.1 h.mem, fun e he f hf hein hfin => ?_⟩
    exact (ascending_iff sorted).1 h.ascending e ((h.mem e).2 ⟨he, hein⟩) f ((h.mem f).2 ⟨hf, hfin⟩)
  · intro h
    have hmem := hbounds.2 h.bounds
    refine ⟨hmem, (ascending_iff sorted).2 fun e he f hf => ?_⟩
    obtain ⟨heE, hein⟩ := (hmem e).1 he
    obtain ⟨hfE, hfin⟩ := (hmem f).1 hf
    exact h.order e heE f hfE hein hfin

theorem decode_bytes {e : IndexEntry} (he : e.id.Valid) : decode e.bytes = .ok e := by
  obtain ⟨key, ⟨id⟩⟩ := e
  have hbytes : bytes ⟨key, ⟨id⟩⟩ = (key ++ id) ++ [UInt8.ofNat id.length] := by
    simp [bytes, tail]
  have hle : id.length ≤ 255 := he.2
  have hlength : (UInt8.ofNat id.length).toNat = id.length := by
    rw [UInt8.toNat_ofNat']
    omega
  have hpos : id.length ≠ 0 := by simpa using he.1
  unfold decode
  rw [hbytes]
  simp [hlength, hpos]

end IndexEntry

theorem Policy.Keeps.exists_entries {E : Set IndexEntry} {m : Store}
    (h : Policy.multiKey.Keeps E m) (range : KeyRange) :
    ∃ es : List IndexEntry, m.range range = es.map (fun e => (e.bytes, [])) ∧
      (∀ e, e ∈ es ↔ e ∈ E ∧ range.contains e.bytes) ∧
      es.Pairwise fun a b => a.bytes < b.bytes := by
  have listed : ∀ raw : List (Bytes × Bytes), (∀ r ∈ raw, ∃ e ∈ E, Policy.multiKey.slot e = r) →
      ∃ es : List IndexEntry, raw = es.map (Policy.multiKey.slot) ∧ ∀ e ∈ es, e ∈ E := by
    intro raw
    induction raw with
    | nil => exact fun _ => ⟨[], rfl, by simp⟩
    | cons r rest ih =>
      intro hraw
      obtain ⟨e, he, rfl⟩ := hraw r List.mem_cons_self
      obtain ⟨es, rfl, hes⟩ := ih fun r' hr' => hraw r' (List.mem_cons_of_mem _ hr')
      exact ⟨e :: es, rfl, List.forall_mem_cons.2 ⟨he, hes⟩⟩
  have hraw : ∀ r ∈ m.range range, ∃ e ∈ E, Policy.multiKey.slot e = r := by
    intro r hr
    exact (h.stored r.1 r.2).1 (SortedMap.find?_eq_some_iff.2 (List.mem_filter.1 hr).1)
  obtain ⟨es, hes, hE⟩ := listed _ hraw
  have hslot : ∀ e ∈ E, (range.contains e.bytes ↔ (e.bytes, []) ∈ m.range range) := by
    intro e he
    have hstored : (e.bytes, []) ∈ m.entries :=
      SortedMap.find?_eq_some_iff.1 ((h.stored _ _).2 ⟨e, he, rfl⟩)
    simp [Store.range, hstored]
  refine ⟨es, hes, fun e => ⟨fun he => ⟨hE e he, ?_⟩, ?_⟩, ?_⟩
  · rw [hslot e (hE e he), hes]
    exact List.mem_map_of_mem he
  · intro found
    obtain ⟨he, hin⟩ := found
    rw [hslot e he, hes] at hin
    obtain ⟨f, hf, hsame⟩ := List.mem_map.1 hin
    have hbytes : f.key ++ f.tail = e.key ++ e.tail := congrArg Prod.fst hsame
    rwa [← IndexEntry.eq_of_append_tail (h.valid f (hE f hf)) (h.valid e he) hbytes]
  · have hsorted : (m.range range).Pairwise fun a b => a.1 < b.1 := m.ascending.filter _
    rw [hes, List.pairwise_map] at hsorted
    exact hsorted

theorem Cursor.run_outcomes {α : Type} {load : α → Op (Row T)} {out : α → Except Error (Row T)}
    {s : Store} (h : ∀ a, (load a).on s = (out a, s)) (as : List α) :
    (outcomes (as.map load)).run Store.handler s = (as.map out, s) := by
  unfold outcomes
  rw [List.mapM_map]
  induction as with
  | nil => rfl
  | cons a rest ih =>
    have hload : Program.run Store.handler (load a).run s = (out a, s) := h a
    rw [List.mapM_cons]
    change Program.run Store.handler (Program.bind (load a).run fun row =>
      Program.bind (rest.mapM (ExceptT.run ∘ load)) fun rows => .done (row :: rows)) s = _
    rw [Program.run_bind, hload, Program.run_bind, ih]
    rfl

namespace IndexEntry

def shown (live : LiveRows T) (e : IndexEntry) : Except Error (Row T) :=
  match live.find? e.id.bytes with
  | some value => .ok ⟨e.id, value⟩
  | none => .error .notFound

def answered (codec : Codec T) (live : LiveRows T) (e : IndexEntry) : Except Error (Row Json) := do
  let row ← e.shown live
  return ⟨row.id, ← codec.toJson row.value⟩

end IndexEntry

namespace MultiKeyIndex

/-- The rows that a cursor made by the operation shows are those of the entries. -/
def Shows {U : Type} (op : Op (Cursor U)) (s : Store) (outs : List (Except Error (Row U))) : Prop :=
  ∃ cursor, op.on s = (.ok cursor, s) ∧ cursor.outcomes.run Store.handler s = (outs, s)

variable {t : Table T} {indexers : List (Indexer T)} {live : LiveRows T} {s : Store}
  {indexer : Indexer T}

theorem on_load (h : t.Consistent indexers live s) (space : Space) (e : IndexEntry) :
    (load ⟨space, t.toRows⟩ (.ok e)).on s = (e.shown live, s) := by
  have hget : (t.toRows.get e.id).on s = (match live.find? e.id.bytes with
      | some value => .ok value
      | none => .error .notFound, s) := (h.reports e.id).2
  have hload : load ⟨space, t.toRows⟩ (.ok e) = (do
      let value ← t.toRows.get e.id
      return ⟨e.id, value⟩) := rfl
  rw [hload, Op.on_bind, hget, IndexEntry.shown]
  cases live.find? e.id.bytes <;> rfl

theorem on_scan (space : Space) {range : KeyRange} (hrange : range.inverted = false)
    {es : List IndexEntry} (hes : (s.part space).range range = es.map (fun e => (e.bytes, [])))
    (hvalid : ∀ e ∈ es, e.id.Valid) (reverse : Bool) :
    (scan ⟨space, t.toRows⟩ range reverse).on s =
      (.ok ((if reverse then es.reverse else es).map fun e => load ⟨space, t.toRows⟩ (.ok e)),
        s) := by
  have hcheck := KeyRange.check_of_not_inverted hrange
  have hitems : ((Op.scan range reverse).inSpace space).on s =
      (.ok ((if reverse then es.reverse else es).map fun e => .ok (e.bytes, [])), s) := by
    apply Op.on_inSpace_of_reads
    rw [Op.on_scan, hes]
    cases reverse <;> simp
  have hentries : ∀ es' : List IndexEntry, (∀ e ∈ es', e.id.Valid) →
      entries (es'.map fun e => .ok (e.bytes, [])) = es'.map .ok := by
    intro es' hvalid'
    rw [entries, List.map_map]
    exact List.map_congr_left fun e he => IndexEntry.decode_bytes (hvalid' e he)
  have hordered : ∀ e ∈ (if reverse then es.reverse else es), e.id.Valid := by
    cases reverse <;> simpa using hvalid
  simp only [scan, Op.on_bind, Op.on_lift, hcheck, hitems, Op.on_pure, hentries _ hordered,
    List.map_map]
  rfl

theorem exists_scanned (h : t.Consistent indexers live s) (hix : indexer ∈ indexers)
    (hpolicy : indexer.policy = .multiKey) {range : KeyRange} (hrange : range.inverted = false) :
    ∃ es : List IndexEntry,
      (∀ e, e ∈ es ↔ e ∈ indexer.entriesOf live ∧ range.contains e.bytes) ∧
      (es.Pairwise fun a b => a.bytes < b.bytes) ∧
      ∀ reverse, (scan ⟨indexer.space, t.toRows⟩ range reverse).on s =
        (.ok ((if reverse then es.reverse else es).map fun e =>
          load ⟨indexer.space, t.toRows⟩ (.ok e)), s) := by
  have hkeeps := h.entries indexer hix
  rw [hpolicy] at hkeeps
  obtain ⟨es, hes, mem, sorted⟩ := hkeeps.exists_entries range
  exact ⟨es, mem, sorted, on_scan indexer.space hrange hes fun e he =>
    hkeeps.valid e ((mem e).1 he).1⟩

theorem shows_map_load (h : t.Consistent indexers live s) {space : Space} {op : Op (Cursor T)}
    {es : List IndexEntry}
    (hop : op.on s = (.ok (es.map fun e => load ⟨space, t.toRows⟩ (.ok e)), s)) :
    Shows op s (es.map (IndexEntry.shown live)) :=
  ⟨_, hop, Cursor.run_outcomes (on_load h space) es⟩

theorem shows_map_answered (h : t.Consistent indexers live s) (space : Space)
    {op : Op (Cursor Json)} {es : List IndexEntry}
    (hop : op.on s = (.ok (Cursor.mapValues t.codec.toJson
      (es.map fun e => load ⟨space, t.toRows⟩ (.ok e))), s)) :
    Shows op s (es.map (IndexEntry.answered t.codec live)) := by
  refine ⟨_, hop, ?_⟩
  rw [Cursor.mapValues, List.map_map]
  refine Cursor.run_outcomes (fun e => ?_) es
  rw [Function.comp_apply, Op.on_bind, on_load h, IndexEntry.answered]
  cases e.shown live with
  | error e => rfl
  | ok row =>
    change (liftM (t.codec.toJson row.value) >>= fun j => pure ⟨row.id, j⟩ : Op (Row Json)).on s =
      (do return ⟨row.id, ← t.codec.toJson row.value⟩, s)
    rw [Op.on_bind, Op.on_lift]
    cases t.codec.toJson row.value <;> rfl

theorem shown_of_mem {e : IndexEntry} (he : e ∈ indexer.entriesOf live) :
    ∃ value, live.find? e.id.bytes = some value ∧ e.shown live = .ok ⟨e.id, value⟩ := by
  obtain ⟨value, hlive, _⟩ := he
  exact ⟨value, hlive, by rw [IndexEntry.shown, hlive]⟩

theorem eq_of_map_shown_eq {es es' : List IndexEntry} (hes : ∀ e ∈ es, e ∈ indexer.entriesOf live)
    (hes' : ∀ e ∈ es', e ∈ indexer.entriesOf live)
    (sole : ∀ e ∈ indexer.entriesOf live, ∀ f ∈ indexer.entriesOf live, e.id = f.id → e = f)
    (h : es.map (IndexEntry.shown live) = es'.map (IndexEntry.shown live)) : es = es' := by
  induction es generalizing es' with
  | nil => exact (List.map_eq_nil_iff.1 h.symm).symm
  | cons e rest ih =>
    obtain ⟨f, rest', rfl, hshown, hrest⟩ := List.map_eq_cons_iff.1 h.symm
    obtain ⟨he, hes⟩ := List.forall_mem_cons.1 hes
    obtain ⟨hf, hes'⟩ := List.forall_mem_cons.1 hes'
    obtain ⟨value, _, hvalue⟩ := shown_of_mem he
    obtain ⟨value', _, hvalue'⟩ := shown_of_mem hf
    have hid : e.id = f.id := by
      rw [hvalue, hvalue'] at hshown
      exact (congrArg Row.id (Except.ok.inj hshown)).symm
    rw [sole e he f hf hid, ih hes hes' hrest.symm]

/-- What a scan of the range shows, and when that is what the bounds ask of the keys. -/
structure ScanDecided (ix : MultiKeyIndex T) (E : Set IndexEntry) (live : LiveRows T) (s : Store)
    (range : KeyRange) (es : List IndexEntry) : Prop where
  mem : ∀ e, e ∈ es ↔ e ∈ E ∧ range.contains e.bytes
  sorted : es.Pairwise fun a b => a.bytes < b.bytes
  forward : Shows (ix.scan range false) s (es.map (IndexEntry.shown live))
  backward : Shows (ix.scan range true) s (es.reverse.map (IndexEntry.shown live))
  rows : ∀ e ∈ es, ∃ value, live.find? e.id.bytes = some value ∧ e.shown live = .ok ⟨e.id, value⟩
  byKey_iff : IndexEntry.ByKey E range es ↔ IndexEntry.Clear E range
  /-- Where every row stands under one key, no other list of entries shows the same rows. -/
  determined : (∀ e ∈ E, ∀ f ∈ E, e.id = f.id → e = f) → ∀ es', (∀ e ∈ es', e ∈ E) →
    es'.map (IndexEntry.shown live) = es.map (IndexEntry.shown live) → es' = es

/-- What a query by the beginning of keys answers, and when every row in the answer has a key that
begins so. -/
structure BeginningDecided (ix : MultiKeyIndex T) (E : Set IndexEntry) (live : LiveRows T)
    (s : Store) (lead : Bytes) (es : List IndexEntry) : Prop where
  mem : ∀ e, e ∈ es ↔ e ∈ E ∧ lead <+: e.bytes
  shows : Shows (ix.target.select (.beginning lead)) s
    (es.map (IndexEntry.answered ix.rows.codec live))
  sound_iff : (∀ e ∈ es, ∃ f ∈ E, f.id = e.id ∧ lead <+: f.key) ↔
    ∀ e ∈ E, ∀ t, t ≠ [] → lead = e.key ++ t → t <+: e.tail → ∃ f ∈ E, f.id = e.id ∧ lead <+: f.key

theorem exists_scanDecided (h : t.Consistent indexers live s) (hix : indexer ∈ indexers)
    (hpolicy : indexer.policy = .multiKey) {range : KeyRange} (hrange : range.inverted = false) :
    ∃ es, ScanDecided ⟨indexer.space, t.toRows⟩ (indexer.entriesOf live) live s range es := by
  obtain ⟨es, mem, sorted, hscan⟩ := exists_scanned h hix hpolicy hrange
  have hes : ∀ e ∈ es, e ∈ indexer.entriesOf live := fun e he => ((mem e).1 he).1
  refine ⟨es, mem, sorted, ?_, ?_, ?_, ?_, ?_⟩
  · exact shows_map_load h (hscan false)
  · exact shows_map_load h (hscan true)
  · exact fun e he => shown_of_mem (hes e he)
  · exact IndexEntry.byKey_iff_clear hrange mem sorted
  · exact fun sole es' hes' hshown => eq_of_map_shown_eq hes' hes sole hshown

theorem beginningWith_not_inverted (lead : Bytes) :
    (KeyRange.beginningWith lead).inverted = false := by
  cases hbound : Bytes.upperBound lead with
  | none => simp [KeyRange.beginningWith, KeyRange.inverted, hbound]
  | some bound =>
    have hlt : lead < bound := (Bytes.lt_upperBound_iff hbound lead).2 (.inl List.prefix_rfl)
    simp [KeyRange.beginningWith, KeyRange.inverted, hbound, hlt]

theorem exists_beginningDecided (h : t.Consistent indexers live s) (hix : indexer ∈ indexers)
    (hpolicy : indexer.policy = .multiKey) (lead : Bytes) :
    ∃ es, BeginningDecided ⟨indexer.space, t.toRows⟩ (indexer.entriesOf live) live s lead es := by
  obtain ⟨es, mem, _, hscan⟩ := exists_scanned h hix hpolicy (beginningWith_not_inverted lead)
  simp only [KeyRange.contains_beginningWith] at mem
  refine ⟨es, mem, ?_, ?_⟩
  · refine shows_map_answered h indexer.space ?_
    have hselect : Target.select (target ⟨indexer.space, t.toRows⟩) (.beginning lead) = (do
        let cursor ← scan ⟨indexer.space, t.toRows⟩ (.beginningWith lead) false
        return cursor.mapValues t.codec.toJson) := rfl
    rw [hselect, Op.on_bind_of_ok (hscan false)]
    rfl
  · constructor
    · intro sound e he t ht hlead htail
      refine sound e ((mem e).2 ⟨he, ?_⟩)
      rw [hlead, IndexEntry.bytes]
      exact (List.prefix_append_right_inj e.key).2 htail
    · intro clear e he
      obtain ⟨hE, hbytes⟩ := (mem e).1 he
      by_cases hkey : lead <+: e.key
      · exact ⟨e, hE, rfl, hkey⟩
      · obtain ⟨rest, hrest⟩ := hbytes
        -- The beginning ends within the key, or goes on into the bytes behind it.
        rcases List.append_eq_append_iff.1 hrest with ⟨t, hkey', _⟩ | ⟨t, hlead, htail⟩
        · exact absurd ⟨t, hkey'.symm⟩ hkey
        · refine clear e hE t ?_ hlead ⟨rest, htail.symm⟩
          intro same
          subst same
          exact hkey ⟨[], by rw [hlead, List.append_nil, List.append_nil]⟩

/-- On a table in step with its indexes, a scan shows the rows of the entries whose bytes lie in the
range; they are the entries whose keys do, in the order of keys, exactly if the range is clear. -/
theorem scans_decided_by_entry_bytes (h : t.Consistent indexers live s) (hix : indexer ∈ indexers)
    (hpolicy : indexer.policy = .multiKey) :
    (∀ range : KeyRange, range.inverted = false →
      ∃ es, ScanDecided ⟨indexer.space, t.toRows⟩ (indexer.entriesOf live) live s range es) ∧
    ∀ lead, ∃ es,
      BeginningDecided ⟨indexer.space, t.toRows⟩ (indexer.entriesOf live) live s lead es :=
  ⟨fun _ hrange => exists_scanDecided h hix hpolicy hrange, exists_beginningDecided h hix hpolicy⟩

end MultiKeyIndex

def oneWord : LiveRows Bytes := SortedMap.insert .empty [0x62] [0x61]

def oneWordStored : Store := ((words.create ⟨[0x62]⟩ [0x61]).on .empty).2

theorem oneWord_consistent : words.Consistent wordIndexers oneWord oneWordStored :=
  (Table.consistent_empty words wordIndexers).of_create words_indexedBy wordCodec_roundTrips rfl

theorem oneWord_scanned :
    words.Consistent wordIndexers oneWord oneWordStored ∧ letters ∈ wordIndexers ∧
      letters.policy = .multiKey ∧ KeyRange.inverted ⟨some [0x61], some [0x62]⟩ = false ∧
      (∃ es, MultiKeyIndex.ScanDecided ⟨letters.space, words.toRows⟩ (letters.entriesOf oneWord)
        oneWord oneWordStored ⟨some [0x61], some [0x62]⟩ es) ∧
      ∃ es, MultiKeyIndex.BeginningDecided ⟨letters.space, words.toRows⟩
        (letters.entriesOf oneWord) oneWord oneWordStored [0x61] es := by
  have hmem : letters ∈ wordIndexers := List.mem_cons_self
  obtain ⟨scans, beginnings⟩ :=
    MultiKeyIndex.scans_decided_by_entry_bytes oneWord_consistent hmem rfl
  exact ⟨oneWord_consistent, hmem, rfl, rfl, scans _ rfl, beginnings _⟩

/-- The only letter of the only word is `a`; asked for the letters from `ab` on and below `ac`, and
for those that begin with `ab`, the index shows the word. -/
theorem oneWord_beyond_key :
    words.Consistent wordIndexers oneWord oneWordStored ∧
      (∀ e ∈ letters.entriesOf oneWord,
        ¬ KeyRange.contains ⟨some [0x61, 0x62], some [0x61, 0x63]⟩ e.key ∧
          ¬ [0x61, 0x62] <+: e.key) ∧
      MultiKeyIndex.Shows (MultiKeyIndex.scan ⟨letters.space, words.toRows⟩
        ⟨some [0x61, 0x62], some [0x61, 0x63]⟩ false) oneWordStored [.ok ⟨⟨[0x62]⟩, [0x61]⟩] ∧
      MultiKeyIndex.Shows (Target.select (MultiKeyIndex.target ⟨letters.space, words.toRows⟩)
        (.beginning [0x61, 0x62])) oneWordStored [.ok ⟨⟨[0x62]⟩, .ofBytes [0x61]⟩] := by
  refine ⟨oneWord_consistent, fun e he => ?_, ⟨_, rfl, rfl⟩, ⟨_, rfl, rfl⟩⟩
  obtain ⟨value, hlive, _, keys, hkeys, hkey⟩ := he
  have hvalue : value = [0x61] := by
    have hrow := SortedMap.find?_eq_some_iff.1 hlive
    have honly : oneWord.entries = [([0x62], [0x61])] := rfl
    rw [honly, List.mem_singleton] at hrow
    exact congrArg Prod.snd hrow
  subst hvalue
  cases hkeys
  rw [List.map_singleton, List.mem_singleton] at hkey
  rw [hkey]
  decide

end IndexedTables
