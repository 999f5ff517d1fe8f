set_option autoImplicit false

namespace IndexedTables

/-- A finite map; its entries stand in strictly ascending key order, so a map has one form. -/
structure SortedMap (κ ν : Type) [LT κ] where
  entries : List (κ × ν)
  ascending : entries.Pairwise fun a b => a.1 < b.1

namespace SortedMap

variable {κ ν : Type} [LT κ] [DecidableLT κ]

def lookup (key : κ) : List (κ × ν) → Option ν
  | [] => none
  | (k, v) :: rest => if key < k then none else if k < key then lookup key rest else some v

def place (key : κ) (value : ν) : List (κ × ν) → List (κ × ν)
  | [] => [(key, value)]
  | (k, v) :: rest =>
    if key < k then (key, value) :: (k, v) :: rest
    else if k < key then (k, v) :: place key value rest
    else (key, value) :: rest

def drop (key : κ) : List (κ × ν) → List (κ × ν)
  | [] => []
  | (k, v) :: rest =>
    if key < k then (k, v) :: rest else if k < key then (k, v) :: drop key rest else rest

theorem mem_place {key : κ} {value : ν} {e : κ × ν} {entries : List (κ × ν)}
    (h : e ∈ place key value entries) : e = (key, value) ∨ e ∈ entries := by
  induction entries with
  | nil => simpa [place] using h
  | cons head rest ih => unfold place at h; grind

theorem mem_of_mem_drop {key : κ} {e : κ × ν} {entries : List (κ × ν)}
    (h : e ∈ drop key entries) : e ∈ entries := by
  induction entries with
  | nil => exact h
  | cons head rest ih => unfold drop at h; grind

theorem ascending_drop (key : κ) {entries : List (κ × ν)}
    (h : entries.Pairwise fun a b => a.1 < b.1) :
    (drop key entries).Pairwise fun a b => a.1 < b.1 := by
  induction entries with
  | nil => exact h
  | cons head rest ih =>
    obtain ⟨above, rest_ascending⟩ := List.pairwise_cons.1 h
    unfold drop
    split
    · exact h
    · split
      · exact List.pairwise_cons.2
          ⟨fun e he => above e (mem_of_mem_drop he), ih rest_ascending⟩
      · exact rest_ascending

theorem ascending_place [LE κ] [Std.IsLinearOrder κ] [Std.LawfulOrderLT κ]
    (key : κ) (value : ν) {entries : List (κ × ν)}
    (h : entries.Pairwise fun a b => a.1 < b.1) :
    (place key value entries).Pairwise fun a b => a.1 < b.1 := by
  induction entries with
  | nil => simp [place]
  | cons head rest ih =>
    obtain ⟨above, rest_ascending⟩ := List.pairwise_cons.1 h
    unfold place
    split
    · next below =>
      refine List.pairwise_cons.2 ⟨fun e he => ?_, h⟩
      rcases List.mem_cons.1 he with rfl | he
      · exact below
      · exact Std.lt_trans below (above e he)
    · split
      · next below =>
        refine List.pairwise_cons.2 ⟨fun e he => ?_, ih rest_ascending⟩
        rcases mem_place he with rfl | he
        · exact below
        · exact above e he
      · next not_below not_above =>
        have same : key = head.1 :=
          Std.le_antisymm (Std.not_lt.1 not_above) (Std.not_lt.1 not_below)
        exact List.pairwise_cons.2 ⟨fun e he => same ▸ above e he, rest_ascending⟩

omit [DecidableLT κ] in
@[ext] theorem ext {m n : SortedMap κ ν} (h : m.entries = n.entries) : m = n := by
  cases m; cases n; cases h; rfl

def empty : SortedMap κ ν := ⟨[], List.Pairwise.nil⟩

instance : Inhabited (SortedMap κ ν) := ⟨empty⟩

def size (m : SortedMap κ ν) : Nat := m.entries.length

def keys (m : SortedMap κ ν) : List κ := m.entries.map (·.1)

def find? (m : SortedMap κ ν) (key : κ) : Option ν := lookup key m.entries

def contains (m : SortedMap κ ν) (key : κ) : Bool := (m.find? key).isSome

def erase (m : SortedMap κ ν) (key : κ) : SortedMap κ ν :=
  ⟨drop key m.entries, ascending_drop key m.ascending⟩

variable [LE κ] [Std.IsLinearOrder κ] [Std.LawfulOrderLT κ]

def insert (m : SortedMap κ ν) (key : κ) (value : ν) : SortedMap κ ν :=
  ⟨place key value m.entries, ascending_place key value m.ascending⟩

/-- The map of a list of entries. Of two with one key the later holds. -/
def ofList (entries : List (κ × ν)) : SortedMap κ ν :=
  entries.foldl (fun m e => m.insert e.1 e.2) empty

end SortedMap

end IndexedTables
