import IndexedTables.Proofs.ByteOrder
import IndexedTables.SortedMap.Lemmas
import IndexedTables.Store.Contents
import IndexedTables.Store.View
set_option autoImplicit false

namespace IndexedTables

namespace Store

def strip (lead : Bytes) (e : Bytes × Bytes) : Option (Bytes × Bytes) :=
  if lead <+: e.1 then some (e.1.drop lead.length, e.2) else none

theorem strip_eq_some_iff {lead : Bytes} {e f : Bytes × Bytes} :
    strip lead e = some f ↔ e = (lead ++ f.1, f.2) := by
  obtain ⟨key, value⟩ := e
  unfold strip
  constructor
  · intro h
    split at h
    · next hp =>
      obtain ⟨rest, rfl⟩ := hp
      cases h
      simp
    · cases h
  · intro h
    cases h
    simp

/-- The part of a store behind some leading bytes. -/
def under (lead : Bytes) (s : Store) : Store where
  entries := s.entries.filterMap (strip lead)
  ascending := by
    refine List.pairwise_filterMap.2 (s.ascending.imp fun {a b} below a' ha b' hb => ?_)
    rw [strip_eq_some_iff.1 ha, strip_eq_some_iff.1 hb] at below
    exact (Bytes.append_lt_append_iff lead _ _).1 below

@[simp] theorem find?_under (lead : Bytes) (s : Store) (key : Bytes) :
    (s.under lead).find? key = s.find? (lead ++ key) := by
  ext value
  rw [SortedMap.find?_eq_some_iff, SortedMap.find?_eq_some_iff]
  simp only [under, List.mem_filterMap, strip_eq_some_iff]
  constructor
  · intro found
    obtain ⟨e, he, rfl⟩ := found
    exact he
  · intro h
    exact ⟨_, h, rfl⟩

@[simp] theorem contains_under (lead : Bytes) (s : Store) (key : Bytes) :
    (s.under lead).contains key = s.contains (lead ++ key) := by
  simp [SortedMap.contains]

theorem under_insert (lead : Bytes) (s : Store) (key value : Bytes) :
    under lead (s.insert (lead ++ key) value) = (s.under lead).insert key value := by
  refine SortedMap.ext_find? fun other => ?_
  rw [find?_under]
  by_cases h : other = key
  · subst h; simp
  · rw [SortedMap.find?_insert_of_ne _ _ h, SortedMap.find?_insert_of_ne _ _ (by simp [h]),
      find?_under]

theorem under_erase (lead : Bytes) (s : Store) (key : Bytes) :
    under lead (s.erase (lead ++ key)) = (s.under lead).erase key := by
  refine SortedMap.ext_find? fun other => ?_
  rw [find?_under]
  by_cases h : other = key
  · subst h; simp
  · rw [SortedMap.find?_erase_of_ne _ h, SortedMap.find?_erase_of_ne _ (by simp [h]),
      find?_under]

theorem range_under (lead : Bytes) (s : Store) (range : KeyRange) :
    (s.under lead).range range =
      (s.range (range.behind lead)).map fun e => (e.1.drop lead.length, e.2) := by
  simp only [Store.range, under]
  induction s.entries with
  | nil => rfl
  | cons e rest ih =>
    rw [List.filterMap_cons, List.filter_cons]
    cases h : strip lead e with
    | none =>
      have hout : ¬ (range.behind lead).contains e.1 := fun hc => by
        simp [strip, KeyRange.prefix_of_contains_behind hc] at h
      simp [hout, ih]
    | some f =>
      obtain ⟨key, value⟩ := f
      cases strip_eq_some_iff.1 h
      simp only [List.filter_cons]
      by_cases hc : range.contains key
      · simp [hc, (KeyRange.contains_behind_append range lead key).2 hc, ih]
      · have hout := mt (KeyRange.contains_behind_append range lead key).1 hc
        simp [hc, hout, ih]

theorem answer_scan_behind (lead : Bytes) (range : KeyRange) (reverse : Bool) (s : Store) :
    ((s.answer (.scan (range.behind lead) reverse)).1.map fun items =>
      items.map (Item.behind lead)) = ((s.under lead).answer (.scan range reverse)).1 := by
  cases reverse <;> simp [answer, range_under, Item.behind, Except.map, Function.comp_def]

theorem answer_scan_keeps (range : KeyRange) (reverse : Bool) (s : Store) :
    (s.answer (.scan range reverse)).2 = s := by cases reverse <;> rfl

end Store

theorem ne_of_not_begins {lead key other : Bytes} (h : ¬ lead <+: other) :
    other ≠ lead ++ key := by
  intro same
  subst same
  exact h (List.prefix_append lead key)

/-- What a program within some leading bytes answers and does: what it does on the part behind
them, and nothing elsewhere. -/
theorem Program.run_within {α : Type} (lead : Bytes) (p : Program α) (s : Store) :
    ((p.within lead).run Store.handler s).1 = (p.run Store.handler (s.under lead)).1 ∧
    ((p.within lead).run Store.handler s).2.under lead =
      (p.run Store.handler (s.under lead)).2 ∧
    ∀ key, ¬ lead <+: key →
      ((p.within lead).run Store.handler s).2.find? key = s.find? key := by
  induction p generalizing s with
  | done a => exact ⟨rfl, rfl, fun _ _ => rfl⟩
  | tell line next ih => exact ih s
  | call c next ih =>
    cases c with
    | get key =>
      have h := ih (.ok (s.find? (lead ++ key))) s
      simpa [within, run, Store.handler, Store.answer] using h
    | has key =>
      have h := ih (.ok (s.contains (lead ++ key))) s
      simpa [within, run, Store.handler, Store.answer] using h
    | set key value =>
      obtain ⟨answer, inside, outside⟩ := ih (.ok ()) (s.insert (lead ++ key) value)
      rw [Store.under_insert] at answer inside
      refine ⟨answer, inside, fun other hother => (outside other hother).trans ?_⟩
      exact SortedMap.find?_insert_of_ne _ _ (ne_of_not_begins hother)
    | delete key =>
      obtain ⟨answer, inside, outside⟩ := ih (.ok ()) (s.erase (lead ++ key))
      rw [Store.under_erase] at answer inside
      refine ⟨answer, inside, fun other hother => (outside other hother).trans ?_⟩
      exact SortedMap.find?_erase_of_ne _ (ne_of_not_begins hother)
    | scan range reverse =>
      have h := ih ((s.under lead).answer (.scan range reverse)).1 s
      rw [← Store.answer_scan_behind] at h
      simp only [within, run, Store.handler, Store.answer_scan_keeps]
      rw [← Store.answer_scan_behind]
      exact h

end IndexedTables
