import IndexedTables.Proofs.Lookups
import IndexedTables.Proofs.RowChanges
set_option autoImplicit false

namespace IndexedTables

theorem lt_next_of_ne_last {n : UInt64} (h : n ≠ 0xffffffffffffffff) : n < n + 1 := by
  have hn := UInt64.toNat_lt n
  have hne : n.toNat ≠ 0xffffffffffffffff := fun same => h (UInt64.toNat.inj same)
  rw [UInt64.lt_iff_toNat_lt, UInt64.toNat_add]
  simp
  omega

theorem Op.reaches_of_on {α : Type} {op : Op α} {s s' : Store} {answer : Except Error α}
    (h : op.on s = (answer, s')) : op.Reaches s s' :=
  ⟨.none, .ofStore s, rfl, (Disk.run_none op.run _).2.trans (congrArg Prod.snd h)⟩

namespace Sequence

variable {q : Sequence} {last n : UInt64} {s s' : Store}

/-- The counter is at `last`; before the first number there is none. -/
def Stands (q : Sequence) (last : UInt64) (s : Store) : Prop :=
  s.find? (q.space :: key) = some (numericKey last) ∨ s.find? (q.space :: key) = none ∧ last = 0

def moved (q : Sequence) (n : UInt64) (s : Store) : Store :=
  s.insert (q.space :: key) (numericKey n)

theorem stands_moved (q : Sequence) (n : UInt64) (s : Store) : q.Stands n (q.moved n s) :=
  .inl (SortedMap.find?_insert_self ..)

theorem stands_of_empty (h : s.part q.space = .empty) : q.Stands 0 s := by
  refine .inr ⟨?_, rfl⟩
  rw [← Store.find?_part, h]
  rfl

theorem Stands.of_sameBut (h : q.Stands last s) {spaces : List Space}
    (frame : Store.SameBut spaces s s') (apart : q.space ∉ spaces) : q.Stands last s' := by
  unfold Stands
  rw [← Store.find?_part, frame.part apart, Store.find?_part]
  exact h

theorem Stands.on_current (h : q.Stands last s) : q.current.on s = (.ok last, s) := by
  have hread : ((Op.get key).inSpace q.space).on s = (.ok (s.find? (q.space :: key)), s) := rfl
  rcases h with found | ⟨absent, rfl⟩
  · simp [current, Op.on_bind, hread, found, numberOfKey_numericKey]
  · simp [current, Op.on_bind, hread, absent]

theorem stands_of_current (h : q.current.on s = (.ok last, s)) : q.Stands last s := by
  have hread : ((Op.get key).inSpace q.space).on s = (.ok (s.find? (q.space :: key)), s) := rfl
  simp only [current, Op.on_bind, hread] at h
  cases hfound : s.find? (q.space :: key) with
  | none =>
    rw [hfound] at h
    cases h
    exact .inr ⟨hfound, rfl⟩
  | some raw =>
    cases hnumber : numberOfKey raw with
    | error e => simp [hfound, hnumber] at h
    | ok n =>
      simp only [hfound, hnumber, Op.on_pure, Prod.mk.injEq, Except.ok.injEq, and_true] at h
      rw [eq_numericKey_of_number hnumber, h] at hfound
      exact .inl hfound

theorem Stands.eq_of_current (h : q.Stands last s) (hn : q.current.on s = (.ok n, s)) :
    n = last := by
  rw [h.on_current] at hn
  cases hn
  rfl

theorem Stands.on_peek (h : q.Stands last s) : q.peek.on s =
    (if last = 0xffffffffffffffff then .error (.sequenceExhausted q.space)
      else .ok (last + 1), s) := by
  by_cases hlast : last = 0xffffffffffffffff
  · simp [peek, Op.on_bind, h.on_current, hlast]
  · simp [peek, Op.on_bind, h.on_current, hlast]

theorem on_store (q : Sequence) (n : UInt64) (s : Store) :
    (q.store n).on s = (.ok (), q.moved n s) := rfl

theorem Stands.on_next (h : q.Stands last s) : q.next.on s =
    if last = 0xffffffffffffffff then (.error (.sequenceExhausted q.space), s)
    else (.ok (last + 1), q.moved (last + 1) s) := by
  by_cases hlast : last = 0xffffffffffffffff
  · simp [next, Op.on_bind, h.on_peek, hlast]
  · simp only [next, Op.on_bind, h.on_peek, if_neg hlast, on_store, Op.on_pure]

theorem Stands.of_next_ok (h : q.Stands last s) (hrun : q.next.on s = (.ok n, s')) :
    last < n ∧ n = last + 1 ∧ s' = q.moved n s := by
  rw [h.on_next] at hrun
  split at hrun
  · cases hrun
  · next hlast =>
    cases hrun
    exact ⟨lt_next_of_ne_last hlast, rfl, rfl⟩

theorem on_start_of_unset (h : s.find? (q.space :: key) = none) (n : UInt64) :
    (q.start n).on s = (.ok (), q.moved n s) := by
  have hread : ((Op.has key).inSpace q.space).on s = (.ok (s.contains (q.space :: key)), s) := rfl
  simp [start, Op.on_bind, hread, SortedMap.contains, h, on_store]

theorem on_start_of_set (h : s.contains (q.space :: key)) (n : UInt64) :
    (q.start n).on s = (.error (.sequenceStarted q.space), s) := by
  have hread : ((Op.has key).inSpace q.space).on s = (.ok (s.contains (q.space :: key)), s) := rfl
  simp [start, Op.on_bind, hread, h]

theorem Stands.of_start_ok (h : q.Stands last s) (hrun : (q.start n).on s = (.ok (), s')) :
    last = 0 ∧ s' = q.moved n s := by
  rcases h with found | ⟨absent, rfl⟩
  · rw [on_start_of_set (by simp [SortedMap.contains, found])] at hrun
    cases hrun
  · rw [on_start_of_unset absent] at hrun
    cases hrun
    exact ⟨rfl, rfl⟩

theorem obeys_current : q.current.Obeys Eq := Op.obeys_closed.current (Op.obeys_get _)

theorem obeys_peek : q.peek.Obeys Eq := Op.obeys_closed.peek (Op.obeys_get _)

theorem strict_peek (q : Sequence) : q.peek.Strict :=
  Op.strict_closed.peek ((Op.strict_get key).inSpace q.space)

theorem moved_of_store (h : (q.store n).Reaches s s') : s' = s ∨ s' = q.moved n s :=
  Op.reaches_set h

theorem Stands.of_next (h : q.Stands last s) (hrun : q.next.Reaches s s') :
    s' = s ∨ last < last + 1 ∧ s' = q.moved (last + 1) s := by
  rcases q.strict_peek.reaches_bind hrun with hpeek | ⟨n, s₁, hpeek, hrest⟩
  · exact .inl (obeys_peek s s' hpeek).symm
  rw [h.on_peek] at hpeek
  split at hpeek
  · cases hpeek
  · next hlast =>
    cases hpeek
    exact (moved_of_store (Op.reaches_of_return hrest)).imp_right fun same =>
      ⟨lt_next_of_ne_last hlast, same⟩

theorem Stands.of_start (h : q.Stands last s) (hrun : (q.start n).Reaches s s') :
    s' = s ∨ last = 0 ∧ s' = q.moved n s := by
  simp only [start, Op.inSpace_has] at hrun
  rcases Op.reaches_has hrun with rfl | hrun
  · exact .inl rfl
  rcases h with found | ⟨absent, rfl⟩
  · simp only [SortedMap.contains, found, Option.isSome_some, if_true] at hrun
    exact .inl (Op.eq_of_reaches_throw hrun)
  · simp only [SortedMap.contains, absent, Option.isSome_none] at hrun
    exact (moved_of_store hrun).imp_right fun same => ⟨rfl, same⟩

end Sequence

end IndexedTables
