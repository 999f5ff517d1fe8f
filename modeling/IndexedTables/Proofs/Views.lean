import IndexedTables.Proofs.Operations
set_option autoImplicit false

namespace IndexedTables

theorem Bytes.upperBound_append (lead rest : Bytes) :
    upperBound (lead ++ rest) = match upperBound rest with
      | some bound => some (lead ++ bound)
      | none => upperBound lead := by
  induction lead with
  | nil =>
    rw [List.nil_append]
    cases upperBound rest <;> rfl
  | cons b lead ih =>
    rw [List.cons_append, upperBound, ih]
    cases upperBound rest <;> rfl

theorem KeyRange.behind_behind (outer inner : Bytes) (range : KeyRange) :
    (range.behind inner).behind outer = range.behind (outer ++ inner) := by
  obtain ⟨start, stop⟩ := range
  cases stop with
  | some stop => simp [behind, List.append_assoc]
  | none =>
    rw [behind, behind, behind, Bytes.upperBound_append]
    cases Bytes.upperBound inner <;> simp [List.append_assoc]

theorem Item.behind_behind (outer inner : Bytes) (item : Item) :
    (item.behind outer).behind inner = item.behind (outer ++ inner) := by
  cases item with
  | error e => rfl
  | ok entry => simp [behind, Except.map, List.drop_drop]

namespace Program

variable {α β : Type}

theorem within_within (outer inner : Bytes) (p : Program α) :
    (p.within inner).within outer = p.within (outer ++ inner) := by
  induction p with
  | done a => rfl
  | tell line next ih => exact congrArg (Program.tell line) ih
  | call c next ih =>
    cases c with
    | get key =>
      rw [within, within, within, List.append_assoc]
      exact congrArg (Program.call _) (funext ih)
    | has key =>
      rw [within, within, within, List.append_assoc]
      exact congrArg (Program.call _) (funext ih)
    | set key value =>
      rw [within, within, within, List.append_assoc]
      exact congrArg (Program.call _) (funext ih)
    | delete key =>
      rw [within, within, within, List.append_assoc]
      exact congrArg (Program.call _) (funext ih)
    | scan range reverse =>
      rw [within, within, within, KeyRange.behind_behind]
      refine congrArg (Program.call _) (funext fun reply => (ih _).trans ?_)
      cases reply with
      | error e => rfl
      | ok items =>
        have hitems : (items.map (Item.behind outer)).map (Item.behind inner) =
            items.map (Item.behind (outer ++ inner)) := by
          rw [List.map_map]
          exact List.map_congr_left fun item _ => Item.behind_behind outer inner item
        exact congrArg (fun items => (next (.ok items)).within (outer ++ inner)) hitems

theorem ReadsOnly.within {p : Program α} (h : p.ReadsOnly) (lead : Bytes) :
    (p.within lead).ReadsOnly := by
  induction p with
  | done a => trivial
  | tell line next ih => exact ih h
  | call c next ih =>
    rcases reading_cases h.1 with ⟨key, rfl⟩ | ⟨key, rfl⟩ | ⟨range, reverse, rfl⟩
    · exact ⟨rfl, fun reply => ih reply (h.2 reply)⟩
    · exact ⟨rfl, fun reply => ih reply (h.2 reply)⟩
    · exact ⟨rfl, fun _ => ih _ (h.2 _)⟩

theorem not_begins_append {lead other : Bytes} (h : ¬ lead <+: other) (h' : ¬ other <+: lead)
    (key : Bytes) : ¬ lead <+: other ++ key := fun begins =>
  (List.prefix_or_prefix_of_prefix begins (List.prefix_append other key)).elim h h'

theorem under_of_apart {lead other : Bytes} (h : ¬ lead <+: other) (h' : ¬ other <+: lead)
    (w : Program β) (s : Store) :
    ((w.within lead).run Store.handler s).2.under other = s.under other := by
  refine SortedMap.ext_find? fun key => ?_
  rw [Store.find?_under, Store.find?_under]
  exact (run_within lead w s).2.2 _ (not_begins_append h h' key)

end Program

/-- Behind the leading bytes, the store is seen as the map. -/
structure Store.SeenAs (lead : Bytes) (s m : Store) : Prop where
  entries : ∀ key, m.find? key = s.find? (lead ++ key)
  /-- Whatever calls a program makes, scans of inverted and of empty ranges among them, they are
  answered as on the map. -/
  answers : ∀ {α : Type} (p : Program α),
    ((p.within lead).run Store.handler s).1 = (p.run Store.handler m).1
  leaves : ∀ {α : Type} (p : Program α) (key : Bytes),
    ((p.within lead).run Store.handler s).2.find? (lead ++ key) =
      (p.run Store.handler m).2.find? key
  keeps : ∀ {α : Type} (p : Program α) (key : Bytes), ¬ lead <+: key →
    ((p.within lead).run Store.handler s).2.find? key = s.find? key
  reads : ∀ {α : Type} (p : Program α), p.ReadsOnly →
    ((p.within lead).run Store.handler s).2 = s
  set : ∀ key value other, (((Op.set key value).within lead).on s).2.find? other =
    if other = lead ++ key then some value else s.find? other
  delete : ∀ key other, (((Op.delete key).within lead).on s).2.find? other =
    if other = lead ++ key then none else s.find? other
  strips : ∀ (range : KeyRange) reverse items,
    (Op.scan (range.behind lead) reverse).on s = (.ok items, s) →
    ∀ item ∈ items, ∃ key value, item = .ok (lead ++ key, value) ∧
      item.behind lead = .ok (key, value)

theorem Store.exists_rest {lead : Bytes} {range : KeyRange} {s : Store} {e : Bytes × Bytes}
    (h : e ∈ s.range (range.behind lead)) : ∃ key, e = (lead ++ key, e.2) := by
  obtain ⟨rest, hrest⟩ := KeyRange.prefix_of_contains_behind (List.mem_filter.1 h).2
  exact ⟨rest, Prod.ext hrest.symm rfl⟩

theorem Store.seenAs_under (lead : Bytes) (s : Store) : SeenAs lead s (s.under lead) where
  entries := s.find?_under lead
  answers p := (p.run_within lead s).1
  leaves p key := by rw [← (p.run_within lead s).2.1, find?_under]
  keeps p := (p.run_within lead s).2.2
  reads _ h := (h.within lead).store s
  set key value other := s.find?_insert (lead ++ key) other value
  delete key other := s.find?_erase (lead ++ key) other
  strips := by
    intro range reverse items hscan item hitem
    rw [Op.on_scan] at hscan
    cases hscan
    obtain ⟨e, he, rfl⟩ := List.mem_map.1 hitem
    have hin : e ∈ s.range (range.behind lead) := by
      cases reverse <;> simpa using he
    obtain ⟨key, hkey⟩ := exists_rest hin
    refine ⟨key, e.2, congrArg Except.ok hkey, ?_⟩
    rw [hkey]
    simp [Item.behind, Except.map]

/-- What is seen behind some leading bytes is a map of its own; a view of a view is one view behind
both runs of bytes; and what is written through a view is not seen through another, unless the bytes
of one begin with those of the other. -/
theorem Program.views_are_namespaces :
    (∀ (lead : Bytes) (s : Store), ∃ m, Store.SeenAs lead s m) ∧
    (∀ (outer inner : Bytes) {α : Type} (p : Program α),
      (p.within inner).within outer = p.within (outer ++ inner)) ∧
    ∀ lead other : Bytes, ¬ lead <+: other → ¬ other <+: lead →
      ∀ {α β : Type} (w : Program α) (r : Program β) (s : Store),
        ((r.within other).run Store.handler ((w.within lead).run Store.handler s).2).1 =
          ((r.within other).run Store.handler s).1 := by
  refine ⟨fun lead s => ⟨_, s.seenAs_under lead⟩, fun outer inner _ p =>
    within_within outer inner p, fun lead other h h' _ _ w r s => ?_⟩
  rw [(r.run_within other _).1, (r.run_within other s).1, under_of_apart h h']

def nestedStored : Store := .ofList
  [([0xfe, 0xff], [1]), ([0xff, 0xfe], [2]), ([0xff, 0xff], [3]), ([0xff, 0xff, 0x00], [4])]

def listing : Program (Except Error (List Item)) := (Op.scan .all false).run

theorem nestedStored_seen :
    (∃ m, Store.SeenAs [0xff, 0xff] nestedStored m) ∧
      (listing.within [0xff]).within [0xff] = listing.within [0xff, 0xff] ∧
      ¬ ([0xfe] : Bytes) <+: [0xff, 0xff] ∧ ¬ ([0xff, 0xff] : Bytes) <+: [0xfe] ∧
      ((listing.within [0xff, 0xff]).run Store.handler
        (((Op.delete [0xff]).run.within [0xfe]).run Store.handler nestedStored).2).1 =
          ((listing.within [0xff, 0xff]).run Store.handler nestedStored).1 ∧
      ((listing.within [0xff, 0xff]).run Store.handler nestedStored).1 =
        .ok [.ok ([], [3]), .ok ([0x00], [4])] := by
  obtain ⟨seen, nested, apart⟩ := Program.views_are_namespaces
  exact ⟨seen _ _, nested [0xff] [0xff] listing, by decide, by decide,
    apart [0xfe] [0xff, 0xff] (by decide) (by decide) _ listing nestedStored, rfl⟩

end IndexedTables
