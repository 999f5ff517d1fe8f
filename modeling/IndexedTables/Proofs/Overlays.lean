import IndexedTables.Proofs.Operations
import IndexedTables.Session
set_option autoImplicit false

namespace IndexedTables

namespace Overlay

/-- The store with the changes made. -/
def onto (o : Overlay) (s : Store) : Store := o.entries.foldl apply s

theorem find?_apply (s : Store) (e : Bytes × Change) (key : Bytes) :
    (apply s e).find? key = if key = e.1 then e.2.value? else s.find? key := by
  obtain ⟨k, change⟩ := e
  cases change with
  | put value => exact s.find?_insert k key value
  | remove => exact s.find?_erase k key

theorem find?_onto (o : Overlay) (s : Store) (key : Bytes) :
    (o.onto s).find? key = match o.find? key with
      | some change => change.value?
      | none => s.find? key := by
  have hlookup : SortedMap.lookup key o.entries = o.find? key := rfl
  rw [onto, SortedMap.find?_foldl find?_apply o.ascending, hlookup]
  cases o.find? key <;> rfl

theorem onto_insert (o : Overlay) (s : Store) (key : Bytes) (change : Change) :
    onto (o.insert key change) s = apply (o.onto s) (key, change) := by
  refine SortedMap.ext_find? fun other => ?_
  rw [find?_onto, find?_apply, find?_onto, SortedMap.find?_insert]
  by_cases h : other = key <;> simp [h]

theorem range_of_inverted {range : KeyRange} (h : range.inverted) (s : Store) :
    s.range range = [] := by
  obtain ⟨start, hstart, stop, hstop, hle⟩ := range.inverted_iff.1 h
  refine List.filter_eq_nil_iff.2 fun e _ hin => ?_
  obtain ⟨low, high⟩ := (range.contains_iff e.1).1 hin
  have hlt : e.1 < e.1 :=
    Std.lt_of_lt_of_le (high stop hstop) (Std.le_trans hle (low start hstart))
  exact Std.lt_irrefl hlt

/-- Making the changes in a range on what lies in it below leaves what lies in it above. -/
theorem merge_range (o : Overlay) (s : Store) (range : KeyRange) :
    o.merge range (s.range range) = (o.onto s).range range := by
  have hmap : ((o.restrict range.contains).entries.foldl apply
      (.ofList (s.restrict range.contains).entries)) =
        SortedMap.restrict range.contains (o.onto s) := by
    refine SortedMap.ext_find? fun key => ?_
    rw [SortedMap.ofList_entries, SortedMap.find?_restrict]
    have honto := find?_onto (o.restrict range.contains) (s.restrict range.contains) key
    rw [onto, SortedMap.find?_restrict, SortedMap.find?_restrict] at honto
    rw [honto, find?_onto]
    by_cases h : range.contains key <;> simp [h]
  exact congrArg SortedMap.entries hmap

theorem collect_map_ok (entries : List (Bytes × Bytes)) :
    Item.collect (entries.map .ok) = .ok entries := by
  rw [Item.collect, List.mapM_map]
  exact List.mapM_pure.trans (congrArg Except.ok (List.map_id entries))

theorem merged_eq (o : Overlay) (s : Store) (range : KeyRange) :
    (do return o.merge range (← Item.collect (← .ok ((s.range range).map .ok))) :
      Except Error (List (Bytes × Bytes))) = .ok ((o.onto s).range range) := by
  change (do return o.merge range (← Item.collect ((s.range range).map .ok))) = _
  rw [collect_map_ok, ← merge_range]
  rfl

/-- A program over an overlay answers as on the store with the changes made, puts its own changes
into the overlay and leaves the store below as it is. -/
theorem run_serve {α : Type} (p : Program α) (o : Overlay) (s : Store) :
    ∃ o', (serve p o).run Store.handler s = (((p.run Store.handler (o.onto s)).1, o'), s) ∧
      onto o' s = (p.run Store.handler (o.onto s)).2 := by
  induction p generalizing o with
  | done a => exact ⟨o, rfl, rfl⟩
  | tell line next ih => exact ih o
  | call c next ih =>
    cases c with
    | get key =>
      have h := ih (.ok ((o.onto s).find? key)) o
      -- Only a key that the overlay has not touched is looked up below.
      cases hkey : o.find? key with
      | none =>
        have hsame : (o.onto s).find? key = s.find? key := by rw [find?_onto, hkey]
        rw [hsame] at h
        simpa [serve, hkey, Program.run, Store.handler, Store.answer, hsame] using h
      | some change =>
        have hsame : (o.onto s).find? key = change.value? := by rw [find?_onto, hkey]
        rw [hsame] at h
        simpa [serve, hkey, Program.run, Store.handler, Store.answer, hsame] using h
    | has key =>
      have h := ih (.ok ((o.onto s).find? key).isSome) o
      cases hkey : o.find? key with
      | none =>
        have hsame : (o.onto s).find? key = s.find? key := by rw [find?_onto, hkey]
        rw [hsame] at h
        simpa [serve, hkey, Program.run, Store.handler, Store.answer, SortedMap.contains, hsame,
          Except.map] using h
      | some change =>
        have hsame : (o.onto s).find? key = change.value? := by rw [find?_onto, hkey]
        rw [hsame] at h
        simpa [serve, hkey, Program.run, Store.handler, Store.answer, SortedMap.contains, hsame]
          using h
    | set key value =>
      have h := ih (.ok ()) (o.insert key (.put value))
      rw [onto_insert] at h
      exact h
    | delete key =>
      have h := ih (.ok ()) (o.insert key .remove)
      rw [onto_insert] at h
      exact h
    | scan range reverse =>
      -- No call below is made for an inverted range.
      by_cases hinv : range.inverted
      · have h := ih (.ok []) o
        have hnil := range_of_inverted hinv (o.onto s)
        cases reverse <;>
          simpa [serve, hinv, Program.run, Store.handler, Store.answer, hnil] using h
      · cases reverse with
        | false =>
          have h := ih (.ok (((o.onto s).range range).map .ok)) o
          simp only [serve, hinv, Program.run, Store.handler, Store.answer, Bool.false_eq_true,
            if_false, merged_eq, Except.map]
          exact h
        | true =>
          have h := ih (.ok (((o.onto s).range range).reverse.map .ok)) o
          simp only [serve, hinv, Program.run, Store.handler, Store.answer, Bool.false_eq_true,
            if_false, merged_eq, Except.map]
          exact h

def answered (o : Overlay) : Call → Overlay
  | .set key value => o.insert key (.put value)
  | .delete key => o.insert key .remove
  | .get _ | .has _ | .scan _ _ => o

theorem answered_of_read {c : Call} (h : c.write? = none) (o : Overlay) : o.answered c = o := by
  rcases Program.reading_cases h with ⟨key, rfl⟩ | ⟨key, rfl⟩ | ⟨range, reverse, rfl⟩ <;> rfl

theorem readsTo_serve_call (c : Call) (o : Overlay) :
    (serve (.call c .done) o).ReadsTo fun a => a.2 = o.answered c := by
  cases c with
  | get key =>
    simp only [serve]
    cases o.find? key with
    | some change => exact rfl
    | none => exact ⟨rfl, fun _ => rfl⟩
  | has key =>
    simp only [serve]
    cases o.find? key with
    | some change => exact rfl
    | none => exact ⟨rfl, fun _ => rfl⟩
  | set key value => exact rfl
  | delete key => exact rfl
  | scan range reverse =>
    simp only [serve]
    split
    · exact rfl
    · exact ⟨rfl, fun _ => rfl⟩

theorem serve_call {α : Type} (c : Call) (next : Except Error c.Reply → Program α) (o : Overlay) :
    serve (.call c next) o = (serve (.call c .done) o).bind fun a => serve (next a.1) a.2 := by
  cases c with
  | get key =>
    simp only [serve]
    cases o.find? key <;> rfl
  | has key =>
    simp only [serve]
    cases o.find? key <;> rfl
  | set key value => rfl
  | delete key => rfl
  | scan range reverse =>
    simp only [serve]
    split <;> rfl

theorem readsTo_serve {α : Type} (p : Program α) (o : Overlay) :
    (serve p o).ReadsTo fun _ => True := by
  induction p generalizing o with
  | done a => trivial
  | tell line next ih => exact ih o
  | call c next ih =>
    rw [serve_call]
    exact (readsTo_serve_call c o).bind fun a _ => ih a.1 a.2

theorem readsTo_serve_of_readsTo {α : Type} {P : α → Prop} {p : Program α} (h : p.ReadsTo P)
    (o : Overlay) : (serve p o).ReadsTo fun a => P a.1 ∧ a.2 = o := by
  induction p generalizing o with
  | done a => exact ⟨h, rfl⟩
  | tell line next ih => exact ih h o
  | call c next ih =>
    rw [serve_call]
    refine (readsTo_serve_call c o).bind fun a same => ?_
    rw [answered_of_read h.1] at same
    exact same ▸ ih a.1 (h.2 a.1) a.2

theorem readsTo_serveAll {α : Type} {P : α → Prop} {p : Program α} (h : p.ReadsTo P)
    (overlays : List Overlay) :
    (serveAll overlays p).ReadsTo fun a => P a.1 ∧ a.2 = overlays := by
  induction overlays generalizing α with
  | nil => exact h.bind fun a ha => ⟨ha, rfl⟩
  | cons o outer ih =>
    refine (ih (readsTo_serve_of_readsTo h o)).bind fun a ha => ?_
    obtain ⟨⟨answered, inner⟩, outer⟩ := ha
    exact ⟨answered, by rw [inner, outer]⟩

end Overlay

end IndexedTables
