import Mathlib.Algebra.BigOperators.Group.List.Lemmas
import Mathlib.Algebra.GroupWithZero.Nat
import IndexedTables.Inspect
import IndexedTables.Proofs.HexText
import IndexedTables.Proofs.Operations
import IndexedTables.Proofs.Snapshots
set_option autoImplicit false

namespace IndexedTables

namespace Store

/-- How many keys begin with a byte. -/
def keysUnder (s : Store) (space : Space) : Nat := s.entries.countP fun e => e.1.head? = some space

def beginning (s : Store) (start : Bytes) (reverse : Bool) : List (Bytes × Bytes) :=
  (if reverse then s.entries.reverse else s.entries).filter fun e => start <+: e.1

theorem range_all (s : Store) : s.range .all = s.entries := by
  simp [range, KeyRange.all, KeyRange.contains]

theorem entries_under (start : Bytes) (s : Store) :
    (s.under start).entries =
      (s.beginning start false).map fun e => (e.1.drop start.length, e.2) := by
  simp only [under, beginning, Bool.false_eq_true, if_false]
  induction s.entries with
  | nil => rfl
  | cons e rest ih => by_cases h : start <+: e.1 <;> simp [strip, h, ih]

theorem beginning_reverse (start : Bytes) (s : Store) :
    s.beginning start true = (s.beginning start false).reverse := List.filter_reverse

theorem length_beginning (space : Space) (s : Store) :
    (s.beginning [space] false).length = s.keysUnder space := by
  rw [beginning, keysUnder, ← List.countP_eq_length_filter]
  refine List.countP_congr fun e _ => ?_
  cases e.1 <;> simp [List.cons_prefix_cons, eq_comm]

end Store

theorem Snapshot.decode_save {s : Store} (short : ∀ e ∈ s.entries, Short e)
    (counted : s.size < 2 ^ 64) : decode (save s).1 = .ok s := by
  have hload := decodeWith_fileOf Checksum.checksum short
    (congrArg SortedMap.size s.ofList_entries) counted
  rwa [s.ofList_entries] at hload

namespace Inspect

theorem stripMarks_eq {text : List Char} (h : 'x' ∉ text) : stripMarks text = text := by
  fun_cases stripMarks text with
  | case1 rest => simp at h
  | case2 => rfl

theorem readHex_encode (b : Bytes) : readHex (Hex.encode b) = .ok b := by
  have unmarked : 'x' ∉ b.flatMap Hex.ofByte := fun h => by
    obtain ⟨n, hn, hx⟩ := Hex.exists_digit h
    exact Hex.digit_ne_x n hn hx.symm
  have text : String.ofList (stripMarks (Hex.encode b).toList) = Hex.encode b := by
    rw [Hex.encode, String.toList_ofList, stripMarks_eq unmarked]
  simp only [readHex, text, Hex.decode_encode]

theorem readHex_marked (operand : String) : readHex ("0x" ++ operand) = readHex operand := by
  simp [readHex, stripMarks]

def tally (counts : SortedMap Space Nat) (space : Space) : SortedMap Space Nat :=
  counts.insert space ((counts.find? space).getD 0 + 1)

theorem getD_foldl_tally (spaces : List Space) (counts : SortedMap Space Nat) (space : Space) :
    ((spaces.foldl tally counts).find? space).getD 0 =
      (counts.find? space).getD 0 + spaces.count space := by
  induction spaces generalizing counts with
  | nil => rfl
  | cons first rest ih =>
    rw [List.foldl_cons, ih, tally, SortedMap.find?_insert]
    by_cases h : space = first
    · subst h
      simp
      omega
    · simp [h, List.count_cons_of_ne (Ne.symm h)]

theorem contains_foldl_tally (spaces : List Space) (counts : SortedMap Space Nat) (space : Space) :
    (spaces.foldl tally counts).contains space ↔ space ∈ spaces ∨ counts.contains space := by
  induction spaces generalizing counts with
  | nil => simp
  | cons first rest ih =>
    rw [List.foldl_cons, ih, tally, SortedMap.contains_insert]
    grind

def heads (s : Store) : List Space := s.entries.filterMap fun e => e.1.head?

theorem countSpaces_eq (s : Store) : countSpaces s = (heads s).foldl tally .empty := rfl

theorem count_heads (s : Store) (space : Space) : (heads s).count space = s.keysUnder space := by
  rw [heads, List.count, List.countP_filterMap, Store.keysUnder]
  refine List.countP_congr fun e _ => ?_
  cases e.1 <;> simp

theorem mem_keys_countSpaces (s : Store) (space : Space) :
    space ∈ (countSpaces s).keys ↔ space ∈ heads s := by
  rw [← SortedMap.contains_iff_mem_keys, countSpaces_eq, contains_foldl_tally]
  simp [SortedMap.contains]

theorem entries_countSpaces (s : Store) : (countSpaces s).entries =
    (countSpaces s).keys.map fun space => (space, s.keysUnder space) := by
  rw [SortedMap.keys, List.map_map]
  refine (List.map_id _).symm.trans (List.map_congr_left fun e he => ?_)
  have counted := getD_foldl_tally (heads s) .empty e.1
  rw [← countSpaces_eq, SortedMap.find?_eq_some_iff.2 he, count_heads] at counted
  exact Prod.ext rfl (by simpa using counted)

theorem sum_keysUnder (s : Store) :
    ((countSpaces s).keys.map s.keysUnder).sum = s.entries.countP fun e => e.1 ≠ [] := by
  -- The keys of the counts are the heads without repetition, if in another order.
  have same : (countSpaces s).keys.Perm (heads s).dedup := by
    refine (List.perm_ext_iff_of_nodup (countSpaces s).keys_nodup (List.nodup_dedup _)).2 ?_
    intro space
    rw [mem_keys_countSpaces, List.mem_dedup]
  calc ((countSpaces s).keys.map s.keysUnder).sum
      = ((heads s).dedup.map s.keysUnder).sum := (same.map _).sum_eq
    _ = ((heads s).dedup.map fun space => (heads s).count space).sum := by simp only [count_heads]
    _ = (heads s).length := List.sum_map_count_dedup_eq_length _
    _ = s.entries.countP fun e => e.1 ≠ [] := by
      rw [heads, List.length_filterMap_eq_countP]
      refine List.countP_congr fun e _ => ?_
      cases e.1 <;> simp

theorem on_scanLines (start : Bytes) (reverse : Bool) (limit : Nat) (s : Store) :
    (scanLines start reverse limit).on s =
      (.ok (((s.beginning start reverse).take limit).map fun e =>
        entryLine (e.1.drop start.length, e.2)), s) := by
  have inside : (if reverse then (s.under start).entries.reverse else (s.under start).entries) =
      (s.beginning start reverse).map fun e => (e.1.drop start.length, e.2) := by
    rw [Store.entries_under]
    cases reverse
    · rfl
    · rw [Store.beginning_reverse, List.map_reverse]
      rfl
  have hscan : ((Op.scan .all reverse).within start).on s =
      (.ok (((s.beginning start reverse).map fun e => (e.1.drop start.length, e.2)).map .ok), s) :=
    Op.on_within_of_reads (by rw [Op.on_scan, Store.range_all, inside])
  rw [scanLines, Op.on_bind_of_ok hscan, Op.mapM_lift, Op.on_lift]
  rw [← List.map_take, ← List.map_take, List.mapM_map, List.mapM_map]
  exact congrArg (·, s) List.mapM_pure

/-- What a command comes to if it is given the snapshot of a store. -/
def outcomeOn (s : Store) (command : Command) : Outcome :=
  (Request.run command).outcome (some (Snapshot.save s).1)

section

variable {s : Store} (short : ∀ e ∈ s.entries, e.1.length < 2 ^ 32 ∧ e.2.length < 2 ^ 32)
  (counted : s.size < 2 ^ 64)

include short counted

theorem outcomeOn_of_lines {command : Command} {lines : List String}
    (h : command.lines s = .ok lines) : outcomeOn s command = ⟨0, lines, none⟩ := by
  simp only [outcomeOn, Request.outcome, Option.elim, Snapshot.decode_save short counted, bind,
    Except.bind, h]

theorem outcomeOn_stats : outcomeOn s .stats =
    ⟨0, s!"{s.entries.length} entries" :: (countSpaces s).keys.map fun space =>
      "0x" ++ Hex.encode [space] ++ s!"\t{s.keysUnder space}", none⟩ := by
  have lines : Command.stats.lines s = .ok (statsLines s) := rfl
  rw [outcomeOn_of_lines short counted lines, statsLines, entries_countSpaces, List.map_map]
  rfl

theorem outcomeOn_scan {operand : String} {start : Bytes} (h : readHex operand = .ok start)
    (reverse : Bool) (limit : Nat) : outcomeOn s (.scan operand reverse limit) =
      ⟨0, ((s.beginning start reverse).take limit).map fun e =>
        Hex.encode (e.1.drop start.length) ++ s!"\t{e.2.length} bytes\t" ++ Hex.encode e.2,
        none⟩ := by
  refine outcomeOn_of_lines short counted ?_
  rw [Command.lines, h]
  exact congrArg Prod.fst (on_scanLines start reverse limit s)

end

/-- A store of fewer than 2 ^ 64 entries, which is what a snapshot can count, is saved and
inspected. For each byte that begins a key, in ascending order, `stats` prints how many keys begin
with it, and `scan` prints the first entries behind a prefix. Behind one byte these are as many as
`stats` counted, and in the reverse order they are the same. -/
theorem inspections_agree (s : Store)
    (short : ∀ e ∈ s.entries, e.1.length < 2 ^ 32 ∧ e.2.length < 2 ^ 32)
    (counted : s.size < 2 ^ 64) :
    (∃ spaces : List Space, spaces.Pairwise (· < ·) ∧
      (∀ space, space ∈ spaces ↔ ∃ e ∈ s.entries, e.1.head? = some space) ∧
      (spaces.map s.keysUnder).sum = (s.entries.countP fun e => e.1 ≠ []) ∧
      outcomeOn s .stats = ⟨0, s!"{s.entries.length} entries" :: spaces.map fun space =>
        "0x" ++ Hex.encode [space] ++ s!"\t{s.keysUnder space}", none⟩) ∧
    (∀ operand start, readHex operand = .ok start → ∀ reverse limit,
      outcomeOn s (.scan operand reverse limit) =
        ⟨0, ((s.beginning start reverse).take limit).map fun e =>
          Hex.encode (e.1.drop start.length) ++ s!"\t{e.2.length} bytes\t" ++ Hex.encode e.2,
          none⟩) ∧
    (∀ start, readHex (Hex.encode start) = .ok start ∧
      readHex ("0x" ++ Hex.encode start) = .ok start) ∧
    ∀ operand space limit, readHex operand = .ok [space] → s.keysUnder space ≤ limit →
      ∃ lines, lines.length = s.keysUnder space ∧
        outcomeOn s (.scan operand false limit) = ⟨0, lines, none⟩ ∧
        outcomeOn s (.scan operand true limit) = ⟨0, lines.reverse, none⟩ := by
  have scanned {operand : String} {start : Bytes} (h : readHex operand = .ok start) :=
    outcomeOn_scan short counted h
  refine ⟨⟨(countSpaces s).keys, ?_, fun space => ?_, sum_keysUnder s,
    outcomeOn_stats short counted⟩, fun _ _ => scanned, fun start => ?_, ?_⟩
  · exact List.pairwise_map.2 (countSpaces s).ascending
  · rw [mem_keys_countSpaces, heads, List.mem_filterMap]
  · exact ⟨readHex_encode start, (readHex_marked _).trans (readHex_encode start)⟩
  · intro operand space limit hread hlimit
    -- The limit cuts off nothing, so it does not matter from which end it is counted.
    have all : (s.beginning [space] false).length ≤ limit := s.length_beginning space ▸ hlimit
    refine ⟨_, ?_, scanned hread false limit, ?_⟩
    · rw [List.length_map, List.take_of_length_le all, Store.length_beginning]
    · rw [scanned hread, Store.beginning_reverse, List.take_of_length_le all,
        List.take_of_length_le (by simpa using all), List.map_reverse]

def edged : Store := .ofList [([], [1]), ([0xff], []), ([0xff, 0], [7, 8])]

theorem edged_inspected :
    (∀ e ∈ edged.entries, e.1.length < 2 ^ 32 ∧ e.2.length < 2 ^ 32) ∧ edged.size < 2 ^ 64 ∧
      readHex "0xFF" = .ok [0xff] ∧ edged.keysUnder 0xff = 2 ∧
      outcomeOn edged (.scan "0xFF" true 1) = ⟨0, ["00\t2 bytes\t0708"], none⟩ ∧
      ∃ lines, lines.length = 2 ∧ outcomeOn edged (.scan "0xFF" false 2) = ⟨0, lines, none⟩ ∧
        outcomeOn edged (.scan "0xFF" true 2) = ⟨0, lines.reverse, none⟩ := by
  have short : ∀ e ∈ edged.entries, e.1.length < 2 ^ 32 ∧ e.2.length < 2 ^ 32 := by decide
  have counted : edged.size < 2 ^ 64 := by decide
  have hread : readHex "0xFF" = .ok [0xff] := by decide
  obtain ⟨-, scanned, -, agree⟩ := inspections_agree edged short counted
  exact ⟨short, counted, hread, by decide, (scanned _ _ hread true 1).trans (by decide),
    agree "0xFF" 0xff 2 hread (by decide)⟩

end Inspect

end IndexedTables
