import Mathlib.Data.List.Forall2
import IndexedTables.Proofs.Operations
set_option autoImplicit false

namespace IndexedTables

variable {T U : Type}

theorem rows_or_failure (outs : List (Except Error (Row T))) :
    (∃ rows : List (Row T), outs = rows.map .ok) ∨
      ∃ (rows : List (Row T)) (e : Error) (after : List (Except Error (Row T))),
        outs = rows.map .ok ++ .error e :: after := by
  induction outs with
  | nil => exact .inl ⟨[], rfl⟩
  | cons out rest ih =>
    cases out with
    | error e => exact .inr ⟨[], e, rest, rfl⟩
    | ok row =>
      rcases ih with ⟨rows, rfl⟩ | ⟨rows, e, after, rfl⟩
      · exact .inl ⟨row :: rows, rfl⟩
      · exact .inr ⟨row :: rows, e, after, rfl⟩

theorem rows_ne_failure (rows before : List (Row T)) {e : Error}
    {after : List (Except Error (Row T))} :
    rows.map .ok ≠ before.map .ok ++ .error e :: after := by
  intro h
  have hmem : Except.error e ∈ (rows.map .ok : List (Except Error (Row T))) := by simp [h]
  simp at hmem

theorem first_failure_unique {rows rows' : List (Row T)} {e e' : Error}
    {after after' : List (Except Error (Row T))}
    (h : rows.map .ok ++ .error e :: after = rows'.map .ok ++ .error e' :: after') : e = e' := by
  induction rows generalizing rows' with
  | nil =>
    cases rows' with
    | nil => exact Except.error.inj (List.cons.inj h).1
    | cons row' rest' => cases (List.cons.inj h).1
  | cons row rest ih =>
    cases rows' with
    | nil => cases (List.cons.inj h).1
    | cons row' rest' => exact ih (List.cons.inj h).2

namespace Cursor

/-- Asked on the store, the rows of the cursor are these or fail so, and the store stays. -/
def Yields (c : Cursor T) (s : Store) (outs : List (Except Error (Row T))) : Prop :=
  List.Forall₂ (fun load out => load.on s = (out, s)) c outs

variable {c : Cursor T} {s : Store} {outs : List (Except Error (Row T))} {rows : List (Row T)}
  {limit : Nat}

theorem yields_map {α : Type} {load : α → Op (Row T)} {out : α → Except Error (Row T)}
    (as : List α) (h : ∀ a ∈ as, (load a).on s = (out a, s)) :
    Yields (as.map load) s (as.map out) := by
  rw [Yields, List.forall₂_map_left_iff, List.forall₂_map_right_iff, List.forall₂_same]
  exact h

theorem readAll_cons (load : Op (Row T)) (c : Cursor T) : readAll (load :: c) = (do
    let row ← load
    let rows ← readAll c
    return row :: rows) := List.mapM_cons

theorem Yields.on_readAll (h : c.Yields s (rows.map .ok)) : c.readAll.on s = (.ok rows, s) := by
  induction rows generalizing c with
  | nil =>
    cases h
    rfl
  | cons row rest ih =>
    obtain ⟨load, c, hload, hrest, rfl⟩ := List.forall₂_cons_right_iff.1 h
    rw [readAll_cons, Op.on_bind_of_ok hload, Op.on_bind_of_ok (ih hrest), Op.on_pure]

theorem Yields.on_readAll_of_failure {e : Error} {after : List (Except Error (Row T))}
    (h : c.Yields s (rows.map .ok ++ .error e :: after)) : c.readAll.on s = (.error e, s) := by
  induction rows generalizing c with
  | nil =>
    obtain ⟨load, c, hload, -, rfl⟩ := List.forall₂_cons_right_iff.1 h
    rw [readAll_cons, Op.on_bind_of_error hload]
  | cons row rest ih =>
    obtain ⟨load, c, hload, hrest, rfl⟩ := List.forall₂_cons_right_iff.1 h
    rw [readAll_cons, Op.on_bind_of_ok hload, Op.on_bind_of_error (ih hrest)]

theorem Yields.on_page (h : c.Yields s outs) (hrows : outs.take (limit + 1) = rows.map .ok) :
    (c.page limit).on s = (.ok ⟨rows.take limit, rows[limit]?.map (·.id)⟩, s) := by
  have hfirst : outs.take limit = (rows.take limit).map .ok := by
    rw [List.map_take, ← hrows, List.take_take, Nat.min_eq_left (Nat.le_succ limit)]
  have hread : (readAll (c.take limit)).on s = (.ok (rows.take limit), s) :=
    Yields.on_readAll (hfirst ▸ List.forall₂_take limit h)
  have hnext : (outs.drop limit).head? = rows[limit]?.map .ok := by
    rw [List.head?_drop, ← List.getElem?_map, ← hrows,
      List.getElem?_take_of_lt (Nat.lt_succ_self limit)]
  rw [page, Op.on_bind_of_ok hread]
  have hrest := List.forall₂_drop limit h
  cases hdrop : c.drop limit with
  | nil =>
    rw [hdrop] at hrest
    rw [List.forall₂_nil_left_iff.1 hrest] at hnext
    cases hrow : rows[limit]? with
    | none => rfl
    | some row => simp [hrow] at hnext
  | cons load more =>
    rw [hdrop] at hrest
    obtain ⟨out, after, hload, -, hafter⟩ := List.forall₂_cons_left_iff.1 hrest
    rw [hafter, List.head?_cons] at hnext
    obtain ⟨row, hrow, hout⟩ := Option.map_eq_some_iff.1 hnext.symm
    rw [hrow]
    exact Op.on_bind_of_ok (hload.trans (by rw [← hout])) _

theorem Yields.on_page_of_failure {e : Error} {after : List (Except Error (Row T))}
    (h : c.Yields s outs)
    (hfailure : outs.take (limit + 1) = rows.map .ok ++ .error e :: after) :
    (c.page limit).on s = (.error e, s) := by
  have hlength : rows.length ≤ limit := by
    have := congrArg List.length hfailure
    simp only [List.length_take, List.length_append, List.length_map, List.length_cons] at this
    omega
  have hfirst : outs.take limit =
      rows.map .ok ++ (Except.error e :: after).take (limit - rows.length) := by
    have htake := congrArg (List.take limit) hfailure
    rwa [List.take_take, Nat.min_eq_left (Nat.le_succ limit), List.take_append, ← List.map_take,
      List.take_of_length_le hlength, List.length_map] at htake
  have hread := List.forall₂_take limit h
  rw [hfirst] at hread
  rw [page]
  rcases Nat.lt_or_eq_of_le hlength with below | rfl
  · obtain ⟨k, hk⟩ : ∃ k, limit - rows.length = k + 1 := ⟨limit - rows.length - 1, by omega⟩
    rw [hk, List.take_succ_cons] at hread
    exact Op.on_bind_of_error (Yields.on_readAll_of_failure hread) _
  · rw [Nat.sub_self, List.take_zero, List.append_nil] at hread
    have hnext : (outs.drop rows.length).head? = some (.error e) := by
      rw [List.head?_drop, ← List.getElem?_take_of_lt (Nat.lt_succ_self rows.length), hfailure,
        List.getElem?_append_right (by simp)]
      simp
    obtain ⟨rest, hdrop⟩ := List.head?_eq_some_iff.1 hnext
    have hrest := List.forall₂_drop rows.length h
    rw [hdrop] at hrest
    obtain ⟨load, more, hload, -, hc⟩ := List.forall₂_cons_right_iff.1 hrest
    rw [Op.on_bind_of_ok (Yields.on_readAll hread), hc]
    exact Op.on_bind_of_error hload _

theorem paginate_of_room {rowSize : Nat} {limit : UInt64} (hlimit : limit ≠ 0)
    (room : limit.toNat * rowSize ≤ maxListBytes) :
    c.paginate rowSize limit = c.page limit.toNat := by
  rw [paginate, if_neg hlimit, if_neg (Nat.not_lt.2 room)]

theorem paginate_of_overflow {rowSize : Nat} {limit : UInt64}
    (overflow : maxListBytes < limit.toNat * rowSize) :
    c.paginate rowSize limit = throw .capacityOverflow := by
  -- No rows at all are never too much.
  have hlimit : limit ≠ 0 := by
    rintro rfl
    simp at overflow
  rw [paginate, if_neg hlimit, if_pos overflow]

theorem page_of_paginate {rowSize : Nat} {limit : UInt64} {page : Page T} {s' : Store}
    (h : (c.paginate rowSize limit).on s = (.ok page, s')) :
    limit ≠ 0 ∧ limit.toNat * rowSize ≤ maxListBytes ∧
      (c.page limit.toNat).on s = (.ok page, s') := by
  have hlimit : limit ≠ 0 := by
    rintro rfl
    cases h
  rcases Nat.lt_or_ge maxListBytes (limit.toNat * rowSize) with overflow | room
  · rw [paginate_of_overflow overflow] at h
    cases h
  · rw [paginate_of_room hlimit room] at h
    exact ⟨hlimit, room, h⟩

end Cursor

end IndexedTables
