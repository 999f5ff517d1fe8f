import IndexedTables.KeyRange
set_option autoImplicit false

namespace IndexedTables.Bytes

theorem append_lt_append_iff (lead a b : Bytes) : lead ++ a < lead ++ b ↔ a < b := by
  induction lead with
  | nil => simp
  | cons c rest ih => simp [ih]

theorem append_le_append_iff (lead a b : Bytes) : lead ++ a ≤ lead ++ b ↔ a ≤ b := by
  rw [← List.not_lt, ← List.not_lt, append_lt_append_iff]

theorem lt_append {t : Bytes} (key : Bytes) (h : t ≠ []) : key < key ++ t := by
  obtain ⟨b, rest, rfl⟩ := List.exists_cons_of_ne_nil h
  have hb := (append_lt_append_iff key [] (b :: rest)).2 (List.nil_lt_cons b rest)
  rwa [List.append_nil] at hb

theorem le_append (key t : Bytes) : key ≤ key ++ t := by
  have h := (append_le_append_iff key [] t).2 (List.nil_le t)
  rwa [List.append_nil] at h

theorem le_of_begins {lead key : Bytes} (h : lead <+: key) : lead ≤ key := by
  obtain ⟨t, rfl⟩ := h
  exact le_append lead t

theorem crosses_iff (key tail bound : Bytes) :
    key < bound ∧ bound ≤ key ++ tail ↔ ∃ t, t ≠ [] ∧ bound = key ++ t ∧ t ≤ tail := by
  constructor
  · intro ⟨above, within_tail⟩
    induction key generalizing bound with
    | nil =>
      refine ⟨bound, ?_, rfl, within_tail⟩
      intro same
      subst same
      exact List.not_lt_nil _ above
    | cons c rest ih =>
      cases bound with
      | nil => exact absurd above (List.not_lt_nil _)
      | cons b bs =>
        rw [List.cons_append] at within_tail
        rcases List.cons_lt_cons_iff.1 above with hcb | ⟨rfl, hrest⟩
        · rcases List.cons_le_cons_iff.1 within_tail with hbc | ⟨rfl, _⟩
          · exact absurd hbc (Std.not_lt.2 (Std.le_of_lt hcb))
          · exact absurd hcb Std.lt_irrefl
        · rcases List.cons_le_cons_iff.1 within_tail with hcc | ⟨_, hbs⟩
          · exact absurd hcc Std.lt_irrefl
          · obtain ⟨t, ht, rfl, hle⟩ := ih bs hrest hbs
            exact ⟨t, ht, rfl, hle⟩
  · intro found
    obtain ⟨t, ht, rfl, hle⟩ := found
    exact ⟨lt_append key ht, (append_le_append_iff key t tail).2 hle⟩

theorem prefix_of_between {lead a b key : Bytes} (low : lead ++ a ≤ key)
    (high : key < lead ++ b) : lead <+: key := by
  induction lead generalizing key with
  | nil => exact List.nil_prefix
  | cons c rest ih =>
    cases key with
    | nil => simp at low
    | cons k ks =>
      rw [List.cons_append] at low high
      rcases List.cons_lt_cons_iff.1 high with hkc | ⟨rfl, hks⟩
      · rcases List.cons_le_cons_iff.1 low with hck | ⟨rfl, _⟩
        · exact absurd hck (Std.not_lt.2 (Std.le_of_lt hkc))
        · exact absurd hkc Std.lt_irrefl
      · rcases List.cons_le_cons_iff.1 low with hkk | ⟨_, hle⟩
        · exact absurd hkk Std.lt_irrefl
        · exact (List.prefix_cons_inj k).2 (ih hle hks)

theorem byte_lt_succ_iff {b c : UInt8} (h : b < 0xff) : c < b + 1 ↔ c ≤ b := by
  have hb : (b + 1).toNat = b.toNat + 1 := by
    have hlt := UInt8.lt_iff_toNat_lt.1 h
    rw [UInt8.toNat_add]
    exact Nat.mod_eq_of_lt (Nat.add_lt_add_right hlt 1)
  rw [UInt8.lt_iff_toNat_lt, UInt8.le_iff_toNat_le, hb, Nat.lt_succ_iff]

theorem eq_top_of_not_lt {b : UInt8} (h : ¬ b < 0xff) : b = 0xff := by
  apply UInt8.toNat.inj
  have hlt := UInt8.toNat_lt b
  have htop : (0xff : UInt8).toNat = 255 := by decide
  rw [UInt8.lt_iff_toNat_lt, htop] at h
  omega

/-- Nothing bounds the strings that begin with a run of `0xff`: all greater ones begin so. -/
theorem prefix_or_lt_of_upperBound_eq_none {lead : Bytes} (h : upperBound lead = none)
    (key : Bytes) : lead <+: key ∨ key < lead := by
  induction lead generalizing key with
  | nil => exact .inl List.nil_prefix
  | cons b rest ih =>
    cases key with
    | nil => exact .inr (List.nil_lt_cons b rest)
    | cons k ks =>
      unfold upperBound at h
      split at h
      · cases h
      · next hr =>
        split at h
        · cases h
        · next hb =>
          rw [List.cons_prefix_cons, List.cons_lt_cons_iff]
          by_cases hkb : k = b
          · subst hkb
            exact (ih hr ks).imp (⟨rfl, ·⟩) (.inr ⟨rfl, ·⟩)
          · have hk : k < b := by
              cases eq_top_of_not_lt hb
              exact Decidable.not_not.1 (mt eq_top_of_not_lt hkb)
            exact .inr (.inl hk)

theorem lt_upperBound_iff {lead bound : Bytes} (h : upperBound lead = some bound) (key : Bytes) :
    key < bound ↔ lead <+: key ∨ key < lead := by
  induction lead generalizing bound key with
  | nil => cases h
  | cons b rest ih =>
    cases key with
    | nil =>
      have hb : bound ≠ [] := by
        intro same
        subst same
        unfold upperBound at h
        split at h <;> simp at h
      obtain ⟨c, cs, rfl⟩ := List.exists_cons_of_ne_nil hb
      simp
    | cons k ks =>
      unfold upperBound at h
      split at h
      · next restBound hr =>
        -- The rest has a bound, so the first byte stays as it is.
        cases h
        rw [List.cons_lt_cons_iff, List.cons_lt_cons_iff, ih hr ks, List.cons_prefix_cons]
        by_cases hkb : k = b
        · subst hkb; simp
        · simp [hkb, Ne.symm hkb]
      · next hr =>
        split at h
        · next hb =>
          -- The rest is a run of `0xff`, so the first byte goes up by one and ends the bound.
          cases h
          have top := prefix_or_lt_of_upperBound_eq_none hr ks
          rw [List.cons_lt_cons_iff, List.cons_lt_cons_iff, byte_lt_succ_iff hb,
            List.cons_prefix_cons]
          by_cases hkb : k = b
          · subst hkb; simp [top]
          · have hle : k ≤ b ↔ k < b := by
              rw [Std.le_iff_lt_or_eq]; simp [hkb]
            simp [hle, hkb, Ne.symm hkb]
        · cases h

theorem prefix_iff_of_upperBound_eq_some {lead bound : Bytes} (h : upperBound lead = some bound)
    (key : Bytes) : lead <+: key ↔ lead ≤ key ∧ key < bound := by
  rw [lt_upperBound_iff h key]
  constructor
  · intro hp
    exact ⟨le_of_begins hp, .inl hp⟩
  · intro found
    obtain ⟨hle, hp | hlt⟩ := found
    · exact hp
    · exact absurd hlt (Std.not_lt.2 hle)

theorem prefix_iff_of_upperBound_eq_none {lead : Bytes} (h : upperBound lead = none)
    (key : Bytes) : lead <+: key ↔ lead ≤ key := by
  constructor
  · exact le_of_begins
  · intro hle
    rcases prefix_or_lt_of_upperBound_eq_none h key with hp | hlt
    · exact hp
    · exact absurd hlt (Std.not_lt.2 hle)

theorem upperBound_eq_none_iff {lead : Bytes} :
    upperBound lead = none ↔ ∀ b ∈ lead, b = 0xff := by
  induction lead with
  | nil => simp
  | cons b rest ih =>
    rw [List.forall_mem_cons, ← ih, upperBound]
    split
    · next bound hr => simp [hr]
    · next hr =>
      split
      · next hb =>
        have hne : b ≠ 0xff := fun same => Std.lt_irrefl (same ▸ hb)
        simp [hne]
      · next hb => simp [eq_top_of_not_lt hb, hr]

theorem upperBound_le {lead bound other : Bytes} (h : upperBound lead = some bound)
    (above : ∀ key, lead <+: key → key < other) : bound ≤ other := by
  rw [← Std.not_lt, lt_upperBound_iff h]
  intro found
  rcases found with begins | below
  · exact Std.lt_irrefl (above other begins)
  · exact Std.lt_irrefl (Std.lt_trans below (above lead (List.prefix_refl lead)))

/-- The bound closes the interval of the strings with a given beginning and is the least string
above them. Only a run of `0xff` has none, and then every string from the run on begins with it. -/
theorem beginnings_bounded (lead : Bytes) :
    (∀ bound, upperBound lead = some bound →
      (∀ key, lead <+: key ↔ lead ≤ key ∧ key < bound) ∧
        (∀ key, lead <+: key → key < bound) ∧
        ∀ other, (∀ key, lead <+: key → key < other) → bound ≤ other) ∧
    (upperBound lead = none →
      (∀ b ∈ lead, b = 0xff) ∧ ∀ key, lead <+: key ↔ lead ≤ key) := by
  constructor
  · intro bound h
    refine ⟨prefix_iff_of_upperBound_eq_some h, fun key begins => ?_, fun other => upperBound_le h⟩
    exact (lt_upperBound_iff h key).2 (.inl begins)
  · intro h
    exact ⟨upperBound_eq_none_iff.1 h, prefix_iff_of_upperBound_eq_none h⟩

theorem beginnings_bounded_at_top :
    upperBound [1, 0xff, 0xff] = some [2] ∧
      (∀ key : Bytes, [1, 0xff, 0xff] <+: key ↔ [1, 0xff, 0xff] ≤ key ∧ key < [2]) ∧
      (∀ other : Bytes, (∀ key, [1, 0xff, 0xff] <+: key → key < other) → [2] ≤ other) ∧
      upperBound [0xff, 0xff] = none ∧
      ∀ key : Bytes, [0xff, 0xff] <+: key ↔ [0xff, 0xff] ≤ key := by
  have bounded : upperBound [1, 0xff, 0xff] = some [2] := by decide
  have unbounded : upperBound [0xff, 0xff] = none := by decide
  obtain ⟨interval, -, least⟩ := (beginnings_bounded [1, 0xff, 0xff]).1 [2] bounded
  obtain ⟨-, rest⟩ := (beginnings_bounded [0xff, 0xff]).2 unbounded
  exact ⟨bounded, interval, least, unbounded, rest⟩

end IndexedTables.Bytes

namespace IndexedTables.KeyRange

theorem contains_iff (range : KeyRange) (key : Bytes) :
    range.contains key ↔
      (∀ start ∈ range.start, start ≤ key) ∧ ∀ stop ∈ range.stop, key < stop := by
  obtain ⟨start, stop⟩ := range
  cases start <;> cases stop <;> simp [contains]

theorem inverted_iff (range : KeyRange) :
    range.inverted ↔ ∃ start ∈ range.start, ∃ stop ∈ range.stop, stop ≤ start := by
  obtain ⟨start, stop⟩ := range
  cases start <;> cases stop <;> simp [inverted]

theorem check_of_inverted {range : KeyRange} (h : range.inverted) :
    range.check = .error .emptyRange := by simp [check, h]

theorem check_of_not_inverted {range : KeyRange} (h : range.inverted = false) :
    range.check = .ok () := by simp [check, h]

theorem contains_beginningWith (lead key : Bytes) :
    (beginningWith lead).contains key ↔ lead <+: key := by
  rw [contains_iff]
  cases h : Bytes.upperBound lead with
  | none => simp [beginningWith, h, Bytes.prefix_iff_of_upperBound_eq_none h]
  | some bound => simp [beginningWith, h, Bytes.prefix_iff_of_upperBound_eq_some h]

theorem prefix_of_contains_behind {range : KeyRange} {lead key : Bytes}
    (h : (range.behind lead).contains key) : lead <+: key := by
  obtain ⟨low, high⟩ := (contains_iff _ _).1 h
  have hlow : lead ++ range.start.getD [] ≤ key := low _ rfl
  cases hstop : range.stop with
  | some stop =>
    have hhigh : key < lead ++ stop := high _ (by simp [behind, hstop])
    exact Bytes.prefix_of_between hlow hhigh
  | none =>
    have hle : lead ≤ key := Std.le_trans (Bytes.le_append lead _) hlow
    cases hb : Bytes.upperBound lead with
    | none => exact (Bytes.prefix_iff_of_upperBound_eq_none hb key).2 hle
    | some bound =>
      have hhigh : key < bound := high _ (by simp [behind, hstop, hb])
      exact (Bytes.prefix_iff_of_upperBound_eq_some hb key).2 ⟨hle, hhigh⟩

theorem contains_behind_append (range : KeyRange) (lead key : Bytes) :
    (range.behind lead).contains (lead ++ key) ↔ range.contains key := by
  have hlow : lead ++ range.start.getD [] ≤ lead ++ key ↔ ∀ start ∈ range.start, start ≤ key := by
    rw [Bytes.append_le_append_iff]
    cases range.start <;> simp
  have hhigh : (∀ stop ∈ (range.behind lead).stop, lead ++ key < stop) ↔
      ∀ stop ∈ range.stop, key < stop := by
    cases hstop : range.stop with
    | some stop => simp [behind, hstop, Bytes.append_lt_append_iff]
    | none =>
      have hall : ∀ bound ∈ Bytes.upperBound lead, lead ++ key < bound := fun bound hb =>
        (Bytes.lt_upperBound_iff hb _).2 (.inl (List.prefix_append lead key))
      simpa [behind, hstop] using hall
  rw [contains_iff, contains_iff, hhigh, ← hlow]
  simp [behind]

end IndexedTables.KeyRange
