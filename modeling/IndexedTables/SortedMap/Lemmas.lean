import IndexedTables.SortedMap
set_option autoImplicit false

namespace IndexedTables.SortedMap

variable {κ ν : Type} [LT κ] [DecidableLT κ]

theorem lookup_eq_none_of_below {key : κ} {entries : List (κ × ν)}
    (h : ∀ e ∈ entries, key < e.1) : lookup key entries = none := by
  cases entries with
  | nil => rfl
  | cons head rest => simp [lookup, h head List.mem_cons_self]

@[simp] theorem find?_empty (key : κ) : (empty : SortedMap κ ν).find? key = none := rfl

variable [LE κ] [Std.IsLinearOrder κ] [Std.LawfulOrderLT κ]

omit [DecidableLT κ] in
theorem eq_of_not_lt {a b : κ} (h : ¬ a < b) (h' : ¬ b < a) : a = b :=
  Std.le_antisymm (Std.not_lt.1 h') (Std.not_lt.1 h)

omit [Std.IsLinearOrder κ] in
theorem lookup_place_self (key : κ) (value : ν) (entries : List (κ × ν)) :
    lookup key (place key value entries) = some value := by
  induction entries with
  | nil => simp [place, lookup, Std.lt_irrefl]
  | cons head rest ih =>
    unfold place
    split
    · simp [lookup, Std.lt_irrefl]
    · split
      · next not_below below => simp [lookup, not_below, below, ih]
      · simp [lookup, Std.lt_irrefl]

theorem lookup_place_of_ne {key other : κ} (value : ν) {entries : List (κ × ν)}
    (ascending : entries.Pairwise fun a b => a.1 < b.1) (ne : other ≠ key) :
    lookup other (place key value entries) = lookup other entries := by
  have beside : other < key ∨ key < other := by
    by_cases below : other < key
    · exact .inl below
    · by_cases above : key < other
      · exact .inr above
      · exact absurd (eq_of_not_lt below above) ne
  induction entries with
  | nil => rcases beside with h | h <;> simp [place, lookup, h, Std.not_lt.2 (Std.le_of_lt h)]
  | cons head rest ih =>
    obtain ⟨above, rest_ascending⟩ := List.pairwise_cons.1 ascending
    unfold place
    split
    · next below =>
      rcases beside with h | h
      · simp [lookup, h, Std.lt_trans h below]
      · simp [lookup, h, Std.not_lt.2 (Std.le_of_lt h)]
    · split
      · simp [lookup, ih rest_ascending]
      · next not_below not_above =>
        cases eq_of_not_lt not_below not_above
        rcases beside with h | h <;> simp [lookup, h, Std.not_lt.2 (Std.le_of_lt h)]

theorem lookup_drop_self (key : κ) {entries : List (κ × ν)}
    (ascending : entries.Pairwise fun a b => a.1 < b.1) :
    lookup key (drop key entries) = none := by
  induction entries with
  | nil => rfl
  | cons head rest ih =>
    obtain ⟨above, rest_ascending⟩ := List.pairwise_cons.1 ascending
    unfold drop
    split
    · next below => simp [lookup, below]
    · split
      · next not_below below => simp [lookup, not_below, below, ih rest_ascending]
      · next not_below not_above =>
        cases eq_of_not_lt not_below not_above
        exact lookup_eq_none_of_below above

theorem lookup_drop_of_ne {key other : κ} {entries : List (κ × ν)}
    (ascending : entries.Pairwise fun a b => a.1 < b.1) (ne : other ≠ key) :
    lookup other (drop key entries) = lookup other entries := by
  induction entries with
  | nil => rfl
  | cons head rest ih =>
    obtain ⟨above, rest_ascending⟩ := List.pairwise_cons.1 ascending
    unfold drop
    split
    · rfl
    · split
      · simp [lookup, ih rest_ascending]
      · next not_below not_above =>
        cases eq_of_not_lt not_below not_above
        by_cases below : other < head.1
        · have none_below : lookup other rest = none :=
            lookup_eq_none_of_below fun e he => Std.lt_trans below (above e he)
          simp [lookup, below, none_below]
        · by_cases beyond : head.1 < other
          · simp [lookup, below, beyond]
          · exact absurd (eq_of_not_lt below beyond) ne

theorem lookup_eq_some_iff {key : κ} {value : ν} {entries : List (κ × ν)}
    (ascending : entries.Pairwise fun a b => a.1 < b.1) :
    lookup key entries = some value ↔ (key, value) ∈ entries := by
  induction entries with
  | nil => simp [lookup]
  | cons head rest ih =>
    obtain ⟨above, rest_ascending⟩ := List.pairwise_cons.1 ascending
    have absent : ¬ head.1 < key → (key, value) ∉ rest := fun h hm => h (above _ hm)
    unfold lookup
    split
    · next below =>
      have : (key, value) ≠ head := by rintro rfl; exact Std.lt_irrefl below
      simp [this, absent (Std.not_lt.2 (Std.le_of_lt below))]
    · split
      · next below =>
        have : (key, value) ≠ head := by rintro rfl; exact Std.lt_irrefl below
        simp [this, ih rest_ascending]
      · next not_below not_above =>
        cases eq_of_not_lt not_below not_above
        simp [absent not_above, Prod.ext_iff, eq_comm]

@[simp] theorem find?_insert_self (m : SortedMap κ ν) (key : κ) (value : ν) :
    (m.insert key value).find? key = some value :=
  lookup_place_self key value m.entries

theorem find?_insert_of_ne (m : SortedMap κ ν) {key other : κ} (value : ν) (ne : other ≠ key) :
    (m.insert key value).find? other = m.find? other :=
  lookup_place_of_ne value m.ascending ne

@[simp] theorem find?_erase_self (m : SortedMap κ ν) (key : κ) : (m.erase key).find? key = none :=
  lookup_drop_self key m.ascending

theorem find?_erase_of_ne (m : SortedMap κ ν) {key other : κ} (ne : other ≠ key) :
    (m.erase key).find? other = m.find? other :=
  lookup_drop_of_ne m.ascending ne

theorem find?_eq_some_iff {m : SortedMap κ ν} {key : κ} {value : ν} :
    m.find? key = some value ↔ (key, value) ∈ m.entries :=
  lookup_eq_some_iff m.ascending

theorem ext_find? {m n : SortedMap κ ν} (h : ∀ key, m.find? key = n.find? key) : m = n := by
  have same : ∀ e, e ∈ m.entries ↔ e ∈ n.entries := fun e => by
    rw [← find?_eq_some_iff, ← find?_eq_some_iff, h]
  have nodup : ∀ l : SortedMap κ ν, l.entries.Nodup := fun l => by
    refine l.ascending.imp ?_
    rintro a b below rfl
    exact Std.lt_irrefl below
  refine ext (List.Perm.eq_of_pairwise (fun a b _ _ below above => ?_) m.ascending n.ascending
    ((List.perm_ext_iff_of_nodup (nodup m) (nodup n)).2 same))
  exact absurd above (Std.not_lt.2 (Std.le_of_lt below))

section Changes

variable [DecidableEq κ]

theorem find?_insert (m : SortedMap κ ν) (key other : κ) (value : ν) :
    (m.insert key value).find? other = if other = key then some value else m.find? other := by
  split
  · next h => rw [h, find?_insert_self]
  · next h => exact find?_insert_of_ne m value h

theorem find?_erase (m : SortedMap κ ν) (key other : κ) :
    (m.erase key).find? other = if other = key then none else m.find? other := by
  split
  · next h => rw [h, find?_erase_self]
  · next h => exact find?_erase_of_ne m h

/-- What a fold over entries in ascending order does to a key is what its own entry does. -/
theorem find?_foldl {μ : Type} {step : SortedMap κ ν → κ × μ → SortedMap κ ν}
    {v : μ → Option ν}
    (hstep : ∀ m e key, (step m e).find? key = if key = e.1 then v e.2 else m.find? key)
    {entries : List (κ × μ)} (ascending : entries.Pairwise fun a b => a.1 < b.1)
    (m : SortedMap κ ν) (key : κ) :
    (entries.foldl step m).find? key = match lookup key entries with
      | some change => v change
      | none => m.find? key := by
  induction entries generalizing m with
  | nil => rfl
  | cons e rest ih =>
    obtain ⟨above, rest_ascending⟩ := List.pairwise_cons.1 ascending
    rw [List.foldl_cons, ih rest_ascending, hstep]
    by_cases below : key < e.1
    · have absent : lookup key rest = none :=
        lookup_eq_none_of_below fun f hf => Std.lt_trans below (above f hf)
      have ne : key ≠ e.1 := by rintro rfl; exact Std.lt_irrefl below
      simp [lookup, absent, below, ne]
    · by_cases beyond : e.1 < key
      · have ne : key ≠ e.1 := by rintro rfl; exact Std.lt_irrefl beyond
        simp [lookup, below, beyond, ne]
      · cases eq_of_not_lt below beyond
        simp [lookup, lookup_eq_none_of_below above, below]

theorem find?_foldl_erase (keys : List κ) (m : SortedMap κ ν) (key : κ) :
    (keys.foldl erase m).find? key = if key ∈ keys then none else m.find? key := by
  induction keys generalizing m with
  | nil => simp
  | cons k rest ih =>
    rw [List.foldl_cons, ih, find?_erase]
    by_cases h : key = k <;> simp [h]

theorem ofList_entries (m : SortedMap κ ν) : ofList m.entries = m := by
  refine ext_find? fun key => ?_
  rw [ofList, find?_foldl (v := some) (fun m e key => m.find?_insert e.1 key e.2) m.ascending]
  change (match m.find? key with | some value => some value | none => none) = _
  cases m.find? key <;> rfl

def lastValue (entries : List (κ × ν)) (key : κ) : Option ν :=
  (entries.filter fun e => e.1 = key).getLast?.map (·.2)

theorem find?_ofList (entries : List (κ × ν)) (key : κ) :
    (ofList entries).find? key = lastValue entries key := by
  have from_any : ∀ m : SortedMap κ ν, (entries.foldl (fun m e => m.insert e.1 e.2) m).find? key =
      (lastValue entries key).or (m.find? key) := by
    induction entries with
    | nil => simp [lastValue]
    | cons e rest ih =>
      intro m
      rw [List.foldl_cons, ih, find?_insert]
      by_cases h : e.1 = key
      · cases hlast : (rest.filter fun e => e.1 = key).getLast? with
        | none => simp [lastValue, h, hlast, List.getLast?_cons]
        | some last => simp [lastValue, h, hlast, List.getLast?_cons]
      · simp [lastValue, h, Ne.symm h]
  rw [ofList, from_any, find?_empty, Option.or_none]

end Changes

def restrict (p : κ → Bool) (m : SortedMap κ ν) : SortedMap κ ν :=
  ⟨m.entries.filter fun e => p e.1, m.ascending.filter _⟩

theorem find?_restrict (p : κ → Bool) (m : SortedMap κ ν) (key : κ) :
    (m.restrict p).find? key = if p key then m.find? key else none := by
  ext value
  rw [find?_eq_some_iff]
  by_cases h : p key
  · simp [restrict, h, find?_eq_some_iff]
  · simp [restrict, h]

def mapValues {μ : Type} (f : ν → μ) (m : SortedMap κ ν) : SortedMap κ μ :=
  ⟨m.entries.map fun e => (e.1, f e.2), List.pairwise_map.2 m.ascending⟩

omit [LE κ] [Std.IsLinearOrder κ] [Std.LawfulOrderLT κ] in
theorem find?_mapValues {μ : Type} (f : ν → μ) (m : SortedMap κ ν) (key : κ) :
    (m.mapValues f).find? key = (m.find? key).map f := by
  change lookup key (m.entries.map fun e => (e.1, f e.2)) = (lookup key m.entries).map f
  induction m.entries with
  | nil => rfl
  | cons e rest ih =>
    simp only [List.map_cons, lookup, ih]
    split
    · rfl
    · split <;> rfl

theorem contains_iff_mem_keys {m : SortedMap κ ν} {key : κ} : m.contains key ↔ key ∈ m.keys := by
  simp only [contains, Option.isSome_iff_exists, find?_eq_some_iff, keys, List.mem_map]
  constructor
  · rintro ⟨value, h⟩
    exact ⟨_, h, rfl⟩
  · rintro ⟨e, he, rfl⟩
    exact ⟨e.2, he⟩

omit [DecidableLT κ] [Std.IsLinearOrder κ] in
theorem keys_nodup (m : SortedMap κ ν) : m.keys.Nodup := by
  refine List.pairwise_map.2 (m.ascending.imp fun {a b} below => ?_)
  intro same
  exact Std.lt_irrefl (same ▸ below)

theorem contains_insert (m : SortedMap κ ν) (key other : κ) (value : ν) :
    (m.insert key value).contains other ↔ other = key ∨ m.contains other := by
  by_cases h : other = key
  · subst h; simp [contains]
  · simp [contains, find?_insert_of_ne m value h, h]

theorem mem_keys_ofList (entries : List (κ × ν)) (key : κ) :
    key ∈ (ofList entries).keys ↔ ∃ value, (key, value) ∈ entries := by
  have from_any : ∀ m : SortedMap κ ν,
      (entries.foldl (fun m e => m.insert e.1 e.2) m).contains key ↔
        (∃ value, (key, value) ∈ entries) ∨ m.contains key := by
    induction entries with
    | nil => simp
    | cons e rest ih =>
      intro m
      rw [List.foldl_cons, ih, contains_insert]
      grind
  rw [← contains_iff_mem_keys, ofList, from_any]
  simp [contains]

omit [Std.IsLinearOrder κ] in
theorem entries_erase_head {m : SortedMap κ ν} {key : κ} {value : ν} {rest : List (κ × ν)}
    (h : m.entries = (key, value) :: rest) : (m.erase key).entries = rest := by
  simp [erase, h, drop, Std.lt_irrefl]

theorem entries_insert_last {m : SortedMap κ ν} {key : κ} (value : ν)
    (h : ∀ e ∈ m.entries, e.1 < key) :
    (m.insert key value).entries = m.entries ++ [(key, value)] := by
  have placed : ∀ entries : List (κ × ν), (∀ e ∈ entries, e.1 < key) →
      place key value entries = entries ++ [(key, value)] := by
    intro entries below
    induction entries with
    | nil => rfl
    | cons e rest ih =>
      obtain ⟨he, hrest⟩ := List.forall_mem_cons.1 below
      simp [place, he, Std.not_lt.2 (Std.le_of_lt he), ih hrest]
  exact placed m.entries h

theorem foldl_erase_keys [DecidableEq κ] (m : SortedMap κ ν) : m.keys.foldl erase m = empty := by
  refine ext_find? fun key => ?_
  rw [find?_foldl_erase, find?_empty]
  split
  · rfl
  · next absent =>
    have hcontains : m.contains key = false := by
      simpa using mt contains_iff_mem_keys.1 absent
    simpa [contains] using hcontains

end IndexedTables.SortedMap
