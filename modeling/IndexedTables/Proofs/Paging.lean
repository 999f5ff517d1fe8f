import Mathlib.Data.List.Sort
import Mathlib.Logic.Relation
import IndexedTables.Proofs.RowChanges
import IndexedTables.Proofs.TableScans
/-!
Pages of a table that are read one after the other while its rows change. Each page goes on at the
row that the one before it named and did not show, or at the next one if that row is gone. So no id
comes twice, and a row that is there all the time is not passed over.
-/
set_option autoImplicit false

namespace IndexedTables

theorem Config.pageLimit_ne_zero {config : Config} (h : config.defaultPageLimit ≠ 0)
    (limit : UInt64) : config.pageLimit limit ≠ 0 := by
  unfold pageLimit
  split <;> assumption

variable {T : Type}

namespace Table

variable {t : Table T} {s s' : Store}

/-- Every stored row can be read. -/
def Decodable (t : Table T) : Store → Prop :=
  t.Holds fun _ stored => ∃ value, t.codec.unmarshal stored = .ok value

theorem Decodable.exists_loads (h : t.Decodable s) (key : Option RowId) :
    ∃ rows, t.Loads (t.entriesFrom s key) rows := by
  rcases rows_or_failure ((t.entriesFrom s key).map fun e => t.ofItem (.ok e)) with
    ⟨rows, hrows⟩ | ⟨rows, error, after, hfailure⟩
  · exact ⟨rows, hrows⟩
  · have hmem : Except.error error ∈ (t.entriesFrom s key).map fun e => t.ofItem (.ok e) := by
      simp [hfailure]
    obtain ⟨e, he, hitem⟩ := List.mem_map.1 hmem
    obtain ⟨value, hvalue⟩ := h ⟨e.1⟩ e.2 (mem_entriesFrom.1 he).1
    rw [(t.ofItem_eq_ok_iff e ⟨⟨e.1⟩, value⟩).2 ⟨rfl, hvalue⟩] at hitem
    cases hitem

variable {key : Option RowId} {limit : UInt64} {config : Config} {page : Page T}

/-- A list can have room for a page of so many rows. -/
def RoomFor (t : Table T) (limit : UInt64) : Prop :=
  limit.toNat * t.codec.rowSize ≤ Cursor.maxListBytes

theorem exists_page (h : t.Decodable s) (hlimit : config.pageLimit limit ≠ 0)
    (room : t.RoomFor (config.pageLimit limit)) :
    ∃ page, (t.page key limit config).on s = (.ok page, s) := by
  obtain ⟨cursor, hscan, yields⟩ :=
    @exists_scanned T t ⟨key.map (·.bytes), none⟩ (by cases key <;> rfl) false s
  obtain ⟨rows, hrows⟩ := h.exists_loads key
  rw [Table.page, Op.on_bind_of_ok hscan, Cursor.paginate_of_room hlimit room]
  exact ⟨_, yields.on_page ((congrArg _ hrows).trans (List.map_take ..).symm)⟩

theorem on_page_of_overflow (overflow : ¬ t.RoomFor (config.pageLimit limit)) :
    (t.page key limit config).on s = (.error .capacityOverflow, s) := by
  obtain ⟨cursor, hscan, -⟩ :=
    @exists_scanned T t ⟨key.map (·.bytes), none⟩ (by cases key <;> rfl) false s
  rw [Table.page, Op.on_bind_of_ok hscan, Cursor.paginate_of_overflow (Nat.not_le.1 overflow)]
  rfl

theorem entries_of_page (h : (t.page key limit config).on s = (.ok page, s')) :
    s' = s ∧ 0 < (config.pageLimit limit).toNat ∧
      t.Loads ((t.entriesFrom s key).take (config.pageLimit limit).toNat) page.rows ∧
      page.next = ((t.entriesFrom s key).drop (config.pageLimit limit).toNat).head?.map
        (⟨·.1⟩) := by
  obtain ⟨cursor, hscan, yields⟩ :=
    @exists_scanned T t ⟨key.map (·.bytes), none⟩ (by cases key <;> rfl) false s
  rw [Table.page, Op.on_bind_of_ok hscan] at h
  obtain ⟨hlimit, -, h⟩ := Cursor.page_of_paginate h
  have positive : 0 < (config.pageLimit limit).toNat :=
    Nat.pos_of_ne_zero fun zero => hlimit (UInt64.toNat_inj.1 zero)
  generalize (config.pageLimit limit).toNat = n at h positive ⊢
  rcases rows_or_failure (((t.entriesFrom s key).map fun e => t.ofItem (.ok e)).take (n + 1)) with
    ⟨rows, hrows⟩ | ⟨rows, error, after, hfailure⟩
  · rw [yields.on_page hrows] at h
    cases h
    have loads : t.Loads ((t.entriesFrom s key).take (n + 1)) rows := by
      rw [Loads, List.map_take, hrows]
    refine ⟨rfl, positive, ?_, ?_⟩
    · have first := loads.take n
      rwa [List.take_take, Nat.min_eq_left (Nat.le_succ n)] at first
    · rw [← List.getElem?_map, loads.ids, List.getElem?_map,
        List.getElem?_take_of_lt (Nat.lt_succ_self n), List.head?_drop]
  · rw [yields.on_page_of_failure hfailure] at h
    cases h

/-- The rows from an id on, up to a limit, as they are stored, and the row after them if there is
one. -/
structure Shows (t : Table T) (s : Store) (key : Option RowId) (limit : Nat) (page : Page T) :
    Prop where
  short : page.rows.length ≤ limit
  ascending : page.rows.Pairwise fun a b => a.id.bytes < b.id.bytes
  stored : ∀ row ∈ page.rows, t.Stores s row
  start : ∀ k ∈ key, ∀ row ∈ page.rows, k.bytes ≤ row.id.bytes
  next : ∀ next ∈ page.next, s.contains (t.space :: next.bytes) ∧ page.rows ≠ [] ∧
    ∀ row ∈ page.rows, row.id.bytes < next.bytes
  complete : ∀ id : RowId, s.contains (t.space :: id.bytes) → (∀ k ∈ key, k.bytes ≤ id.bytes) →
    (∀ next ∈ page.next, id.bytes < next.bytes) → ∃ row ∈ page.rows, row.id = id

theorem lt_of_mem_take {entries : List (Bytes × Bytes)}
    (sorted : entries.Pairwise fun a b => a.1 < b.1) {n : Nat} {e after : Bytes × Bytes}
    (he : e ∈ entries.take n) (hafter : after ∈ entries.drop n) : e.1 < after.1 := by
  rw [← List.take_append_drop n entries, List.pairwise_append] at sorted
  exact sorted.2.2 e he after hafter

theorem mem_take_of_lt {entries : List (Bytes × Bytes)}
    (sorted : entries.Pairwise fun a b => a.1 < b.1) {n : Nat} {e : Bytes × Bytes}
    (he : e ∈ entries) (below : ∀ after ∈ (entries.drop n).head?, e.1 < after.1) :
    e ∈ entries.take n := by
  have left_sorted : (entries.drop n).Pairwise fun a b => a.1 < b.1 :=
    sorted.sublist (List.drop_sublist n entries)
  rw [← List.take_append_drop n entries, List.mem_append] at he
  refine he.resolve_right fun behind => ?_
  cases hdrop : entries.drop n with
  | nil =>
    rw [hdrop] at behind
    cases behind
  | cons after rest =>
    rw [hdrop] at behind below left_sorted
    have hlt := below after rfl
    rcases List.mem_cons.1 behind with rfl | later
    · exact List.lt_irrefl _ hlt
    · exact List.lt_irrefl _ (List.lt_trans hlt ((List.pairwise_cons.1 left_sorted).1 e later))

theorem shows_of_page (h : (t.page key limit config).on s = (.ok page, s')) :
    t.Shows s key (config.pageLimit limit).toNat page := by
  obtain ⟨-, positive, loads, hnext⟩ := entries_of_page h
  generalize (config.pageLimit limit).toNat = n at positive loads hnext ⊢
  have sorted := @ascending_entriesFrom T t s key
  have hlength : page.rows.length = min n (t.entriesFrom s key).length := by
    simpa using congrArg List.length loads.ids
  have entry_of_row : ∀ row ∈ page.rows, ∃ e ∈ (t.entriesFrom s key).take n,
      row.id = ⟨e.1⟩ ∧ t.codec.unmarshal e.2 = .ok row.value := fun row hrow => by
    obtain ⟨e, he, hitem⟩ := (loads.mem_iff row).1 hrow
    exact ⟨e, he, (t.ofItem_eq_ok_iff e row).1 hitem⟩
  constructor
  case short => omega
  case ascending => exact loads.ascending (sorted.sublist (List.take_sublist n _))
  case stored =>
    intro row hrow
    obtain ⟨e, he, hid, hvalue⟩ := entry_of_row row hrow
    exact ⟨e.2, hid ▸ (mem_entriesFrom.1 (List.mem_of_mem_take he)).1, hvalue⟩
  case start =>
    intro k hk row hrow
    obtain ⟨e, he, hid, -⟩ := entry_of_row row hrow
    exact hid ▸ (mem_entriesFrom.1 (List.mem_of_mem_take he)).2 k hk
  case next =>
    intro next hmem
    rw [hnext] at hmem
    obtain ⟨after, hafter, rfl⟩ := Option.map_eq_some_iff.1 hmem
    have hrest := List.mem_of_mem_head? hafter
    refine ⟨?_, ?_, fun row hrow => ?_⟩
    · have hstored := (mem_entriesFrom.1 (List.mem_of_mem_drop hrest)).1
      simp [SortedMap.contains, hstored]
    · have more := List.length_pos_of_mem hrest
      rw [List.length_drop] at more
      exact List.ne_nil_of_length_pos (by omega)
    · obtain ⟨e, he, hid, -⟩ := entry_of_row row hrow
      exact hid ▸ lt_of_mem_take sorted he hrest
  case complete =>
    intro id present start below
    obtain ⟨e, he, hid⟩ := exists_entry present start
    have shown : e ∈ (t.entriesFrom s key).take n := by
      refine mem_take_of_lt sorted he fun after hafter => ?_
      rw [hid]
      exact below ⟨after.1⟩ (hnext ▸ Option.mem_map_of_mem _ hafter)
    obtain ⟨row, hrow, hrowid⟩ := loads.exists_row shown
    exact ⟨row, hrow, by rw [hrowid, hid]⟩

theorem Shows.next_isSome_iff {limit : Nat} (h : t.Shows s key limit page) :
    page.next.isSome ↔ ∃ last ∈ page.rows.getLast?, ∃ id : RowId,
      s.contains (t.space :: id.bytes) ∧ last.id.bytes < id.bytes := by
  constructor
  · intro some
    obtain ⟨next, hnext⟩ := Option.isSome_iff_exists.1 some
    obtain ⟨present, nonempty, above⟩ := h.next next hnext
    exact ⟨page.rows.getLast nonempty, List.getLast?_eq_some_getLast nonempty, next, present,
      above _ (List.getLast_mem nonempty)⟩
  · rintro ⟨last, hlast, id, present, behind⟩
    by_contra none
    obtain ⟨before, hrows⟩ := List.getLast?_eq_some_iff.1 hlast
    have hmem : last ∈ page.rows := List.mem_of_mem_getLast? hlast
    obtain ⟨row, hrow, rfl⟩ := h.complete id present
      (fun k hk => List.le_of_lt (List.lt_of_le_of_lt (h.start k hk last hmem) behind))
      (fun next hnext => absurd (Option.isSome_iff_exists.2 ⟨next, hnext⟩) none)
    have sorted := h.ascending
    rw [hrows, List.pairwise_append] at sorted
    rw [hrows, List.mem_append, List.mem_singleton] at hrow
    rcases hrow with hbefore | rfl
    · exact List.lt_irrefl _
        (List.lt_trans behind (sorted.2.2 row hbefore last List.mem_cons_self))
    · exact List.lt_irrefl _ behind

end Table

structure Reading (T : Type) where
  store : Store
  limit : UInt64
  page : Page T

/-- The store as it is, and the pages that were read, in order. -/
structure Paging (T : Type) where
  store : Store
  readings : List (Reading T)

namespace Paging

def key (p : Paging T) : Option RowId := p.readings.getLast?.bind (·.page.next)

def Ended (p : Paging T) : Prop := ∃ last ∈ p.readings.getLast?, last.page.next = none

def rows (p : Paging T) : List (Row T) := p.readings.flatMap (·.page.rows)

/-- The row is there whenever a page is read. -/
def Lasts (t : Table T) (p : Paging T) (id : RowId) : Prop :=
  ∀ r ∈ p.readings, r.store.contains (t.space :: id.bytes)

end Paging

/-- Another page is read, from where the last one ended and with any limit, or something else is
done: rows are created, saved or deleted, in whole or broken off halfway. -/
inductive PagingStep (t : Table T) (config : Config) : Paging T → Paging T → Prop
  | read {p : Paging T} {limit : UInt64} {page : Page T} {s : Store} (more : ¬ p.Ended)
      (h : (t.page p.key limit config).on p.store = (.ok page, s)) :
      PagingStep t config p ⟨s, p.readings ++ [⟨p.store, limit, page⟩]⟩
  | change {p : Paging T} {α : Type} (op : Op α) {s : Store} (h : op.Reaches p.store s) :
      PagingStep t config p ⟨s, p.readings⟩

def Table.Pages (t : Table T) (config : Config) (s : Store) : Paging T → Prop :=
  Relation.ReflTransGen (PagingStep t config) ⟨s, []⟩

namespace Paging

variable {t : Table T} {config : Config} {p p' : Paging T} {s : Store}

/-- The rows of the pages ascend, up to where the next page begins; below it no row that lasts is
missing. -/
structure Follows (t : Table T) (config : Config) (p : Paging T) : Prop where
  shown : ∀ r ∈ p.readings, ∃ key, t.Shows r.store key (config.pageLimit r.limit).toNat r.page
  ascending : p.rows.Pairwise fun a b => a.id.bytes < b.id.bytes
  below : ∀ k ∈ p.key, ∀ row ∈ p.rows, row.id.bytes < k.bytes
  complete : p.readings ≠ [] → ∀ id, p.Lasts t id → (∀ k ∈ p.key, id.bytes < k.bytes) →
    ∃ row ∈ p.rows, row.id = id
  advances : ¬ p.Ended → p.readings.length ≤ p.rows.length

theorem follows_start (t : Table T) (config : Config) (s : Store) :
    Follows t config ⟨s, []⟩ :=
  ⟨by simp, .nil, by simp [key], by simp, by simp⟩

@[simp] theorem key_concat (p : Paging T) (r : Reading T) (s : Store) :
    key ⟨s, p.readings ++ [r]⟩ = r.page.next := by simp [key]

@[simp] theorem rows_concat (p : Paging T) (r : Reading T) (s : Store) :
    rows ⟨s, p.readings ++ [r]⟩ = p.rows ++ r.page.rows := by simp [rows]

@[simp] theorem ended_concat (p : Paging T) (r : Reading T) (s : Store) :
    Ended ⟨s, p.readings ++ [r]⟩ ↔ r.page.next = none := by simp [Ended]

theorem begun_of_key {k : RowId} (h : k ∈ p.key) : p.readings ≠ [] := by
  intro none
  simp [key, none] at h

theorem exists_key {row : Row T} (more : ¬ p.Ended) (hrow : row ∈ p.rows) : ∃ k, k ∈ p.key := by
  have begun : p.readings ≠ [] := by
    obtain ⟨r, hr, -⟩ := List.mem_flatMap.1 hrow
    exact List.ne_nil_of_mem hr
  have hlast := List.getLast?_eq_some_getLast begun
  cases hnext : (p.readings.getLast begun).page.next with
  | none => exact absurd ⟨_, hlast, hnext⟩ more
  | some k => exact ⟨k, by rw [key, hlast, Option.bind_some, hnext, Option.mem_some_iff]⟩

theorem Follows.read (h : p.Follows t config) {limit : UInt64} {page : Page T} (more : ¬ p.Ended)
    (shows : t.Shows p.store p.key (config.pageLimit limit).toNat page) (s : Store) :
    Follows t config ⟨s, p.readings ++ [⟨p.store, limit, page⟩]⟩ := by
  have behind : ∀ row ∈ p.rows, ∀ new ∈ page.rows, row.id.bytes < new.id.bytes := by
    intro row hrow new hnew
    obtain ⟨k, hk⟩ := exists_key more hrow
    exact Std.lt_of_lt_of_le (h.below k hk row hrow) (shows.start k hk new hnew)
  constructor
  case shown =>
    intro r hr
    rcases List.mem_append.1 hr with before | new
    · exact h.shown r before
    · rw [List.mem_singleton.1 new]
      exact ⟨p.key, shows⟩
  case ascending =>
    rw [rows_concat]
    exact List.pairwise_append.2 ⟨h.ascending, shows.ascending, behind⟩
  case below =>
    rw [key_concat, rows_concat]
    intro next hnext row hrow
    obtain ⟨-, nonempty, above⟩ := shows.next next hnext
    rcases List.mem_append.1 hrow with before | new
    · obtain ⟨new, hnew⟩ := List.exists_mem_of_ne_nil _ nonempty
      exact List.lt_trans (behind row before new hnew) (above new hnew)
    · exact above row new
  case complete =>
    rw [key_concat, rows_concat]
    intro _ id lasts below
    obtain ⟨before, present⟩ := List.forall_mem_append.1 lasts
    by_cases start : ∀ k ∈ p.key, k.bytes ≤ id.bytes
    · obtain ⟨row, hrow, hid⟩ :=
        shows.complete id (present _ List.mem_cons_self) start below
      exact ⟨row, List.mem_append_right _ hrow, hid⟩
    · -- The row was due on an earlier page.
      simp only [not_forall] at start
      obtain ⟨k, hk, hlt⟩ := start
      have earlier : ∀ k ∈ p.key, id.bytes < k.bytes := fun k' hk' => by
        rw [Option.mem_unique hk' hk]
        exact List.not_le.1 hlt
      obtain ⟨row, hrow, hid⟩ := h.complete (begun_of_key hk) id before earlier
      exact ⟨row, List.mem_append_left _ hrow, hid⟩
  case advances =>
    rw [ended_concat, rows_concat]
    intro more'
    obtain ⟨next, hnext⟩ := Option.ne_none_iff_exists'.1 more'
    have hrow := List.length_pos_of_ne_nil (shows.next next hnext).2.1
    have := h.advances more
    simp only [List.length_append, List.length_singleton]
    omega

theorem Follows.step (h : p.Follows t config) (hstep : PagingStep t config p p') :
    p'.Follows t config := by
  cases hstep with
  | read more hpage => exact h.read more (Table.shows_of_page hpage) _
  | change op _ => exact ⟨h.shown, h.ascending, h.below, h.complete, h.advances⟩

theorem follows_of_pages (h : t.Pages config s p) : p.Follows t config := by
  induction h with
  | refl => exact follows_start t config s
  | tail _ hstep ih => exact ih.step hstep

theorem Follows.complete_of_ended (h : p.Follows t config) (ended : p.Ended) {id : RowId}
    (lasts : p.Lasts t id) : ∃ row ∈ p.rows, row.id = id := by
  obtain ⟨last, hlast, hnext⟩ := ended
  refine h.complete (List.ne_nil_of_mem (List.mem_of_mem_getLast? hlast)) id lasts fun k hk => ?_
  rw [key, Option.mem_def.1 hlast, Option.bind_some, hnext] at hk
  cases hk

theorem Follows.nodup (h : p.Follows t config) : (p.rows.map (·.id)).Nodup := by
  refine List.pairwise_map.2 (h.ascending.imp fun below same => ?_)
  rw [same] at below
  exact List.lt_irrefl _ below

theorem Follows.stores (h : p.Follows t config) (quiet : ∀ r ∈ p.readings, r.store = s)
    {row : Row T} (hrow : row ∈ p.rows) : t.Stores s row := by
  obtain ⟨r, hr, hshown⟩ := List.mem_flatMap.1 hrow
  obtain ⟨key, shows⟩ := h.shown r hr
  exact quiet r hr ▸ shows.stored row hshown

theorem eq_of_ascending {rows rows' : List (Row T)}
    (h : rows.Pairwise fun a b => a.id.bytes < b.id.bytes)
    (h' : rows'.Pairwise fun a b => a.id.bytes < b.id.bytes)
    (same : ∀ row, row ∈ rows ↔ row ∈ rows') : rows = rows' := by
  have : Std.Antisymm fun a b : Row T => a.id.bytes < b.id.bytes :=
    ⟨fun a _ below above => absurd (List.lt_trans below above) (List.lt_irrefl a.id.bytes)⟩
  have : Std.Irrefl fun a b : Row T => a.id.bytes < b.id.bytes :=
    ⟨fun a => List.lt_irrefl a.id.bytes⟩
  exact h.eq_of_mem_iff h' same

theorem Follows.on_dump (h : p.Follows t config) (ended : p.Ended)
    (quiet : ∀ r ∈ p.readings, r.store = s) : t.dump.on s = (.ok p.rows, s) := by
  have reached : ∀ id : RowId, s.contains (t.space :: id.bytes) → ∃ row ∈ p.rows, row.id = id :=
    fun id present => h.complete_of_ended ended fun r hr => quiet r hr ▸ present
  have decodable : t.Decodable s := by
    intro id stored hstored
    obtain ⟨row, hrow, rfl⟩ := reached id (by simp [SortedMap.contains, hstored])
    obtain ⟨stored', hstored', hvalue⟩ := h.stores quiet hrow
    cases hstored.symm.trans hstored'
    exact ⟨row.value, hvalue⟩
  obtain ⟨rows, loads⟩ := decodable.exists_loads none
  have same : rows = p.rows := by
    refine eq_of_ascending (loads.ascending (Table.ascending_entriesFrom none)) h.ascending
      fun row => ?_
    rw [loads.mem_iff_stores]
    constructor
    · rintro ⟨stores, -⟩
      obtain ⟨other, hother, hid⟩ := reached row.id stores.contains
      exact (h.stores quiet hother).eq stores hid ▸ hother
    · exact fun hrow => ⟨h.stores quiet hrow, by simp⟩
  exact Table.on_dump_of_loads (same ▸ loads)

theorem exists_pages (hdefault : config.defaultPageLimit ≠ 0) (decodable : t.Decodable s)
    {limits : Nat → UInt64} (room : ∀ i, t.RoomFor (config.pageLimit (limits i))) (n : Nat) :
    ∃ p, t.Pages config s p ∧ p.store = s ∧
      (∀ i r, p.readings[i]? = some r → r.store = s ∧ r.limit = limits i) ∧
      (p.Ended ∨ p.readings.length = n) := by
  induction n with
  | zero => exact ⟨⟨s, []⟩, .refl, rfl, by simp, .inr rfl⟩
  | succ n ih =>
    obtain ⟨p, pages, hstore, each, ended | hlength⟩ := ih
    · exact ⟨p, pages, hstore, each, .inl ended⟩
    by_cases ended : p.Ended
    · exact ⟨p, pages, hstore, each, .inl ended⟩
    obtain ⟨page, hpage⟩ := @Table.exists_page T t s p.key (limits n) config decodable
      (Config.pageLimit_ne_zero hdefault _) (room n)
    rw [← hstore] at hpage
    refine ⟨_, pages.tail (.read ended hpage), hstore, fun i r hr => ?_, .inr (by simp [hlength])⟩
    rcases Nat.lt_or_ge i p.readings.length with before | after
    · rw [List.getElem?_append_left before] at hr
      exact each i r hr
    · rw [List.getElem?_append_right after, List.getElem?_singleton] at hr
      split at hr
      · next first =>
        cases hr
        exact ⟨hstore, congrArg limits (by omega)⟩
      · cases hr

theorem Follows.length_rows_le (h : p.Follows t config)
    (quiet : ∀ r ∈ p.readings, r.store = s) : p.rows.length ≤ (t.entriesFrom s none).length := by
  have sub : p.rows.map (·.id) ⊆ (t.entriesFrom s none).map (⟨·.1⟩) := by
    intro id hid
    obtain ⟨row, hrow, rfl⟩ := List.mem_map.1 hid
    obtain ⟨e, he, hkey⟩ : ∃ e ∈ t.entriesFrom s none, e.1 = row.id.bytes :=
      Table.exists_entry (h.stores quiet hrow).contains (by simp)
    exact List.mem_map.2 ⟨e, he, congrArg RowId.mk hkey⟩
  simpa using h.nodup.length_le_of_subset sub

theorem exists_ended (hdefault : config.defaultPageLimit ≠ 0) (decodable : t.Decodable s)
    {limits : Nat → UInt64} (room : ∀ i, t.RoomFor (config.pageLimit (limits i))) :
    ∃ p, t.Pages config s p ∧ p.Ended ∧
      ∀ i r, p.readings[i]? = some r → r.store = s ∧ r.limit = limits i := by
  obtain ⟨p, pages, -, each, ended | hlength⟩ :=
    exists_pages hdefault decodable room ((t.entriesFrom s none).length + 1)
  · exact ⟨p, pages, ended, each⟩
  · refine ⟨p, pages, ?_, each⟩
    have follows := follows_of_pages pages
    have quiet : ∀ r ∈ p.readings, r.store = s := fun r hr => by
      obtain ⟨i, hi⟩ := List.mem_iff_getElem?.1 hr
      exact (each i r hi).1
    -- Every page that is not the last shows a row, and there are not so many rows.
    by_contra more
    have := follows.advances more
    have := follows.length_rows_le quiet
    omega

/-- Over any changes between the pages, no id comes twice, ids ascend, and when the last page is
read each row that was there all the time has come once. A page shows values as they are stored,
keeps to its limit, and names a next row just if there is one; while the rows can be read it is not
refused, unless no list has room for the limit: then the program stops, however few rows there are.
If nothing changes, the pages end, whatever limits with room they have, and are the dump in
pieces. -/
theorem pages_follow_rows (hdefault : config.defaultPageLimit ≠ 0) :
    (∀ s p, t.Pages config s p →
      (p.rows.Pairwise fun a b => a.id.bytes < b.id.bytes) ∧
      (p.Ended → ∀ id, p.Lasts t id → (p.rows.map (·.id)).count id = 1) ∧
      (∀ r ∈ p.readings, r.page.rows.length ≤ (config.pageLimit r.limit).toNat ∧
        (∀ row ∈ r.page.rows, (t.get row.id).on r.store = (.ok row.value, r.store)) ∧
        (r.page.next.isSome ↔ ∃ last ∈ r.page.rows.getLast?, ∃ id : RowId,
          r.store.contains (t.space :: id.bytes) ∧ last.id.bytes < id.bytes)) ∧
      (t.Decodable p.store → ∀ limit, t.RoomFor (config.pageLimit limit) → ∃ page,
        (t.page p.key limit config).on p.store = (.ok page, p.store)) ∧
      (∀ limit, ¬ t.RoomFor (config.pageLimit limit) →
        (t.page p.key limit config).on p.store = (.error .capacityOverflow, p.store)) ∧
      (p.Ended → ∀ s', (∀ r ∈ p.readings, r.store = s') → t.dump.on s' = (.ok p.rows, s'))) ∧
    ∀ s, t.Decodable s → ∀ limits : Nat → UInt64,
      (∀ i, t.RoomFor (config.pageLimit (limits i))) → ∃ p, t.Pages config s p ∧ p.Ended ∧
        ∀ i r, p.readings[i]? = some r → r.store = s ∧ r.limit = limits i := by
  refine ⟨fun s p pages => ?_, fun s decodable _ room => exists_ended hdefault decodable room⟩
  have follows := follows_of_pages pages
  refine ⟨follows.ascending, fun ended id lasts => ?_, fun r hr => ?_,
    fun decodable limit room => ?_, fun limit overflow => Table.on_page_of_overflow overflow,
    fun ended s' quiet => follows.on_dump ended quiet⟩
  · obtain ⟨row, hrow, rfl⟩ := follows.complete_of_ended ended lasts
    exact List.count_eq_one_of_mem follows.nodup (List.mem_map_of_mem hrow)
  · obtain ⟨key, shows⟩ := follows.shown r hr
    exact ⟨shows.short, fun row hrow => (shows.stored row hrow).on_get, shows.next_isSome_iff⟩
  · exact Table.exists_page decodable (Config.pageLimit_ne_zero hdefault limit) room

end Paging

def threeWords : Store := SortedMap.ofList
  [([0x01, 1], [0x61]), ([0x01, 2], [0x62]), ([0x01, 3], [0x63])]

/-- Two pages of the words. The word that the first names is deleted before the second is read. -/
def wordPages : Paging Bytes := ⟨((words.delete ⟨[2]⟩).on threeWords).2,
  [⟨threeWords, 1, ⟨[⟨⟨[1]⟩, [0x61]⟩], some ⟨[2]⟩⟩⟩,
    ⟨((words.delete ⟨[2]⟩).on threeWords).2, 0, ⟨[⟨⟨[3]⟩, [0x63]⟩], none⟩⟩]⟩

theorem words_paged :
    Config.defaultPageLimit {} ≠ 0 ∧ words.Pages {} threeWords wordPages ∧ wordPages.Ended ∧
      wordPages.Lasts words ⟨[1]⟩ ∧ ¬ wordPages.Lasts words ⟨[2]⟩ ∧
      wordPages.Lasts words ⟨[3]⟩ ∧ (wordPages.rows.map (·.id)).count ⟨[1]⟩ = 1 ∧
      (wordPages.rows.map (·.id)).count ⟨[3]⟩ = 1 := by
  have pages : words.Pages {} threeWords wordPages := by
    refine ((Relation.ReflTransGen.refl.tail
      (.read (by simp [Paging.Ended]) rfl)).tail (.change (words.delete ⟨[2]⟩) ?_)).tail
        (.read (by simp [Paging.Ended]) rfl)
    exact ⟨.none, .ofStore threeWords, rfl, rfl⟩
  have ended : wordPages.Ended := ⟨_, rfl, rfl⟩
  have first : wordPages.Lasts words ⟨[1]⟩ := by
    simp only [Paging.Lasts, wordPages, List.forall_mem_cons]
    decide
  have second : ¬ wordPages.Lasts words ⟨[2]⟩ := by
    simp only [Paging.Lasts, wordPages, List.forall_mem_cons]
    decide
  have third : wordPages.Lasts words ⟨[3]⟩ := by
    simp only [Paging.Lasts, wordPages, List.forall_mem_cons]
    decide
  have once := ((@Paging.pages_follow_rows Bytes words {} (by decide)).1 _ _ pages).2.1 ended
  exact ⟨by decide, pages, ended, first, second, third, once _ first, once _ third⟩

/-- A table without rows, asked for a page with the greatest limit there is. -/
theorem words_page_overflows :
    Config.defaultPageLimit {} ≠ 0 ∧ words.Decodable .empty ∧
      words.Pages {} .empty ⟨.empty, []⟩ ∧
      (words.page none 0xffffffffffffffff {}).on .empty = (.error .capacityOverflow, .empty) ∧
      words.dump.on .empty = (.ok [], .empty) := by
  refine ⟨by decide, ?_, .refl, rfl, rfl⟩
  intro id stored hstored
  cases hstored

end IndexedTables
