import IndexedTables.Proofs.Lookups
set_option autoImplicit false

namespace IndexedTables

variable {T : Type}

namespace IndexEntry

theorem not_crosses_of_length {e : IndexEntry} {bound : Bytes}
    (h : bound.length = e.key.length) : ¬ e.Crosses (some bound) := by
  intro found
  obtain ⟨t, ht, hbound, _⟩ := found
  rw [Option.some.inj hbound, List.length_append, Nat.add_eq_left] at h
  exact ht (List.length_eq_zero_iff.1 h)

theorem contains_bytes_ofNumbers {first last : UInt64} (h : first < last) {e : IndexEntry}
    (he : e.key.length = 8) : (KeyRange.ofNumbers first last).contains e.bytes ↔
      (KeyRange.ofNumbers first last).contains e.key := by
  have hrange := KeyRange.not_inverted_ofNumbers h
  have apart : ∀ n, ¬ e.Crosses (some (numericKey n)) := fun n =>
    not_crosses_of_length (by rw [length_numericKey, he])
  exact (contains_bytes_iff hrange e).2 (iff_of_false (apart first) (apart last))

theorem bytes_lt_iff {e f : IndexEntry} (h : e.key.length = f.key.length) :
    e.bytes < f.bytes ↔ e.key < f.key ∨ e.key = f.key ∧ e.tail < f.tail :=
  Bytes.append_lt_append_iff_of_length h e.tail f.tail

end IndexEntry

def LiveRows.Derives (live : LiveRows T) (numbers : T → Except Error (List UInt64)) (n : UInt64)
    (row : Row T) : Prop :=
  live.find? row.id.bytes = some row.value ∧ ∃ ns, numbers row.value = .ok ns ∧ n ∈ ns

/-- The numbers from `first` on and below `last`, each with every live row that derives it, once:
by number, and for one number by id with the length behind. -/
structure LiveRows.ListsNumbers (live : LiveRows T) (numbers : T → Except Error (List UInt64))
    (first last : UInt64) (pairs : List (UInt64 × Row T)) : Prop where
  mem : ∀ n row, (n, row) ∈ pairs ↔ live.Derives numbers n row ∧ first ≤ n ∧ n < last
  ascending : pairs.Pairwise fun a b => a.1 < b.1 ∨ a.1 = b.1 ∧
    a.2.id.bytes ++ [UInt8.ofNat a.2.id.bytes.length] <
      b.2.id.bytes ++ [UInt8.ofNat b.2.id.bytes.length]

def IndexEntry.ofNumber (pair : UInt64 × Row T) : IndexEntry := ⟨numericKey pair.1, pair.2.id⟩

section

variable {live : LiveRows T} {numbers : T → Except Error (List UInt64)} {space : Space}

theorem Indexer.exists_number {value : T} {key : Bytes}
    (h : (Indexer.ofNumbers space numbers).Derives value key) : ∃ n, key = numericKey n := by
  obtain ⟨_, keys, hkeys, hkey⟩ := h
  cases hnumbers : numbers value with
  | error e => simp [ofNumbers, hnumbers, Except.map] at hkeys
  | ok ns =>
    simp only [ofNumbers, hnumbers, Except.map, Except.ok.injEq] at hkeys
    subst hkeys
    obtain ⟨n, _, rfl⟩ := List.mem_map.1 hkey
    exact ⟨n, rfl⟩

theorem IndexEntry.mem_entriesOf_ofNumber (pair : UInt64 × Row T)
    (hlive : live.find? pair.2.id.bytes = some pair.2.value) :
    ofNumber pair ∈ (Indexer.ofNumbers space numbers).entriesOf live ↔
      live.Derives numbers pair.1 pair.2 := by
  simp [Indexer.entriesOf, ofNumber, hlive, Indexer.derives_ofNumbers, LiveRows.Derives]

theorem IndexEntry.exists_pair {e : IndexEntry}
    (he : e ∈ (Indexer.ofNumbers space numbers).entriesOf live) :
    ∃ pair : UInt64 × Row T, ofNumber pair = e ∧ live.Derives numbers pair.1 pair.2 := by
  obtain ⟨key, id⟩ := e
  have ⟨value, hlive, hderives⟩ := he
  obtain ⟨n, hkey⟩ := Indexer.exists_number hderives
  change key = numericKey n at hkey
  subst hkey
  exact ⟨(n, ⟨id, value⟩), rfl, (mem_entriesOf_ofNumber (n, ⟨id, value⟩) hlive).1 he⟩

theorem LiveRows.eq_of_ofNumber_eq {pair pair' : UInt64 × Row T}
    (h : live.Derives numbers pair.1 pair.2) (h' : live.Derives numbers pair'.1 pair'.2)
    (same : IndexEntry.ofNumber pair = IndexEntry.ofNumber pair') : pair = pair' := by
  obtain ⟨n, ⟨id, value⟩⟩ := pair
  obtain ⟨m, ⟨_, value'⟩⟩ := pair'
  have hn : n = m := numericKey_injective (congrArg IndexEntry.key same)
  cases congrArg IndexEntry.id same
  have hvalue : some value = some value' := h.1.symm.trans h'.1
  rw [hn, Option.some.inj hvalue]

theorem LiveRows.Derives.shown {pair : UInt64 × Row T} (h : live.Derives numbers pair.1 pair.2) :
    (IndexEntry.ofNumber pair).shown live = .ok pair.2 := by
  rw [IndexEntry.shown, IndexEntry.ofNumber, h.1]

theorem IndexEntry.exists_pairs {es : List IndexEntry}
    (hes : ∀ e ∈ es, e ∈ (Indexer.ofNumbers space numbers).entriesOf live) :
    ∃ pairs : List (UInt64 × Row T), es = pairs.map ofNumber ∧
      ∀ pair ∈ pairs, live.Derives numbers pair.1 pair.2 := by
  induction es with
  | nil => exact ⟨[], rfl, by simp⟩
  | cons e rest ih =>
    obtain ⟨he, hrest⟩ := List.forall_mem_cons.1 hes
    obtain ⟨pair, rfl, hpair⟩ := exists_pair he
    obtain ⟨pairs, rfl, hpairs⟩ := ih hrest
    exact ⟨pair :: pairs, rfl, List.forall_mem_cons.2 ⟨hpair, hpairs⟩⟩

theorem LiveRows.listsNumbers_of_entries {first last : UInt64} (h : first < last)
    {pairs : List (UInt64 × Row T)} (derive : ∀ pair ∈ pairs, live.Derives numbers pair.1 pair.2)
    (mem : ∀ e, e ∈ pairs.map IndexEntry.ofNumber ↔
      e ∈ (Indexer.ofNumbers space numbers).entriesOf live ∧
        (KeyRange.ofNumbers first last).contains e.bytes)
    (sorted : (pairs.map IndexEntry.ofNumber).Pairwise fun a b => a.bytes < b.bytes) :
    live.ListsNumbers numbers first last pairs := by
  have length : ∀ pair : UInt64 × Row T, (IndexEntry.ofNumber pair).key.length = 8 := fun pair =>
    length_numericKey pair.1
  have within : ∀ pair : UInt64 × Row T,
      (KeyRange.ofNumbers first last).contains (IndexEntry.ofNumber pair).bytes ↔
        first ≤ pair.1 ∧ pair.1 < last := fun pair =>
    (IndexEntry.contains_bytes_ofNumbers h (length pair)).trans
      (KeyRange.contains_ofNumbers first last pair.1)
  refine ⟨fun n row => ⟨fun hpair => ?_, fun found => ?_⟩, ?_⟩
  · have hbytes := ((mem _).1 (List.mem_map_of_mem hpair)).2
    exact ⟨derive _ hpair, (within (n, row)).1 hbytes⟩
  · obtain ⟨hderives, hbounds⟩ := found
    have hentry : IndexEntry.ofNumber (n, row) ∈ pairs.map IndexEntry.ofNumber :=
      (mem _).2 ⟨(IndexEntry.mem_entriesOf_ofNumber (n, row) hderives.1).2 hderives,
        (within (n, row)).2 hbounds⟩
    obtain ⟨pair, hpair, same⟩ := List.mem_map.1 hentry
    have heq : pair = (n, row) := eq_of_ofNumber_eq (derive pair hpair) hderives same
    exact heq ▸ hpair
  · refine (List.pairwise_map.1 sorted).imp fun {a b} hlt => ?_
    rcases (IndexEntry.bytes_lt_iff ((length a).trans (length b).symm)).1 hlt with
      below | ⟨same, htail⟩
    · exact .inl ((numericKey_lt_iff a.1 b.1).1 below)
    · exact .inr ⟨numericKey_injective same, htail⟩

end

namespace NumberIndex

variable {t : Table T} {live : LiveRows T} {s : Store} {indexers : List (Indexer T)}
  {space : Space} {numbers : T → Except Error (List UInt64)} {first last : UInt64}

theorem exists_shown (h : t.Consistent indexers live s)
    (hix : Indexer.ofNumbers space numbers ∈ indexers) (hrange : first < last) :
    ∃ pairs, live.ListsNumbers numbers first last pairs ∧
      MultiKeyIndex.Shows (scan ⟨⟨space, t.toRows⟩⟩ first last false) s
        (pairs.map fun pair => .ok pair.2) ∧
      MultiKeyIndex.Shows (scan ⟨⟨space, t.toRows⟩⟩ first last true) s
        (pairs.reverse.map fun pair => .ok pair.2) := by
  have hinverted := KeyRange.not_inverted_ofNumbers hrange
  obtain ⟨es, mem, sorted, hscan⟩ := MultiKeyIndex.exists_scanned h hix rfl hinverted
  obtain ⟨pairs, rfl, derive⟩ := IndexEntry.exists_pairs fun e he => ((mem e).1 he).1
  have hshown : (pairs.map IndexEntry.ofNumber).map (IndexEntry.shown live) =
      pairs.map fun pair => .ok pair.2 := by
    rw [List.map_map]
    exact List.map_congr_left fun pair hpair => (derive pair hpair).shown
  refine ⟨pairs, LiveRows.listsNumbers_of_entries hrange derive mem sorted, ?_, ?_⟩
  · have hforward := MultiKeyIndex.shows_map_load h (hscan false)
    rwa [if_neg Bool.false_ne_true, hshown] at hforward
  · have hbackward := MultiKeyIndex.shows_map_load h (hscan true)
    rwa [if_pos rfl, List.map_reverse, hshown, ← List.map_reverse] at hbackward

theorem scan_invalid (ix : NumberIndex T) (hrange : last ≤ first) (reverse : Bool) (s : Store) :
    (ix.scan first last reverse).Invalid s := by
  have hinverted : (KeyRange.ofNumbers first last).inverted := by
    simpa [KeyRange.inverted_ofNumbers] using hrange
  have hcheck := KeyRange.check_of_inverted hinverted
  refine ⟨.emptyRange, ?_, rfl⟩
  rw [scan, MultiKeyIndex.scan, hcheck]
  rfl

/-- On a table in step with its indexes, a scan from one number to a greater one shows the live rows
of each number in between, in order or in the reverse of it; any other scan is refused. -/
theorem scans_follow_numbers (h : t.Consistent indexers live s)
    (hix : Indexer.ofNumbers space numbers ∈ indexers) :
    (∀ first last, first < last → ∃ pairs, live.ListsNumbers numbers first last pairs ∧
      MultiKeyIndex.Shows (scan ⟨⟨space, t.toRows⟩⟩ first last false) s
        (pairs.map fun pair => .ok pair.2) ∧
      MultiKeyIndex.Shows (scan ⟨⟨space, t.toRows⟩⟩ first last true) s
        (pairs.reverse.map fun pair => .ok pair.2)) ∧
    ∀ first last, last ≤ first → ∀ reverse,
      (scan ⟨⟨space, t.toRows⟩⟩ first last reverse).Invalid s :=
  ⟨fun _ _ hrange => exists_shown h hix hrange, fun _ _ hrange reverse =>
    scan_invalid _ hrange reverse s⟩

end NumberIndex

def values : Indexer Bytes :=
  .ofNumbers 0x05 fun word => .ok (word.map fun byte => UInt64.ofNat byte.toNat)

def weighed : Table Bytes := ⟨⟨0x04, wordCodec⟩, [values].map Indexer.observer⟩

def weighedStored : Store :=
  ((weighed.create ⟨[1]⟩ [2]).on ((weighed.create ⟨[1, 0]⟩ [2, 1, 2]).on .empty).2).2

def weighedRows : LiveRows Bytes :=
  SortedMap.insert (SortedMap.insert .empty [1, 0] [2, 1, 2]) [1] [2]

theorem weighed_consistent : weighed.Consistent [values] weighedRows weighedStored := by
  have indexed : weighed.IndexedBy [values] := ⟨rfl, by decide⟩
  have first : weighed.Consistent [values] (SortedMap.insert .empty [1, 0] [2, 1, 2])
      ((weighed.create ⟨[1, 0]⟩ [2, 1, 2]).on .empty).2 :=
    (Table.consistent_empty weighed _).of_create indexed wordCodec_roundTrips rfl
  exact first.of_create indexed wordCodec_roundTrips rfl

/-- The number 2 has two rows, one of which derives it twice. That row comes first: its id is the
greater one, and less than the other with the length behind. -/
theorem weighed_scanned :
    weighed.Consistent [values] weighedRows weighedStored ∧
      (∃ pairs, LiveRows.ListsNumbers weighedRows
          (fun word => .ok (word.map fun byte => UInt64.ofNat byte.toNat)) 2 3 pairs ∧
        MultiKeyIndex.Shows (NumberIndex.scan ⟨⟨0x05, weighed.toRows⟩⟩ 2 3 false) weighedStored
          (pairs.map fun pair => .ok pair.2) ∧
        MultiKeyIndex.Shows (NumberIndex.scan ⟨⟨0x05, weighed.toRows⟩⟩ 2 3 true) weighedStored
          (pairs.reverse.map fun pair => .ok pair.2)) ∧
      MultiKeyIndex.Shows (NumberIndex.scan ⟨⟨0x05, weighed.toRows⟩⟩ 2 3 false) weighedStored
        [.ok ⟨⟨[1, 0]⟩, [2, 1, 2]⟩, .ok ⟨⟨[1]⟩, [2]⟩] ∧
      (NumberIndex.scan ⟨⟨0x05, weighed.toRows⟩⟩ 3 3 false).Invalid weighedStored := by
  obtain ⟨shown, refused⟩ :=
    NumberIndex.scans_follow_numbers weighed_consistent (List.mem_singleton.2 rfl)
  exact ⟨weighed_consistent, shown 2 3 (by decide), ⟨_, rfl, rfl⟩, refused 3 3 (by decide) false⟩

end IndexedTables
