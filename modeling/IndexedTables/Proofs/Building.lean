import IndexedTables.Schema
import IndexedTables.SortedMap.Lemmas
set_option autoImplicit false

namespace IndexedTables

namespace Schema

/-- Nothing keeps the spaces from being taken. -/
structure Admits (schema : Schema) (own : List (Space × Role)) : Prop where
  unsealed : schema.isSealed = false
  distinct : (own.map (·.1)).Nodup
  free : ∀ e ∈ own, ¬ schema.taken.contains e.1

structure Gains (schema after : Schema) (own : List (Space × Role)) : Prop where
  isSealed : after.isSealed = schema.isSealed
  spaces : ∀ e, e ∈ after.spaces ↔ e ∈ schema.spaces ∨ e ∈ own

variable {schema after later : Schema} {space : Space} {role : Role} {e : Space × Role}
  {own more : List (Space × Role)}

theorem Gains.contains_iff (h : schema.Gains after own) (space : Space) :
    after.taken.contains space ↔ schema.taken.contains space ∨ ∃ e ∈ own, e.1 = space := by
  have mem := fun role : Role => h.spaces (space, role)
  simp only [SortedMap.contains_iff_mem_keys, SortedMap.keys, List.mem_map] at mem ⊢
  unfold Schema.spaces at mem
  grind

theorem Gains.trans (h : schema.Gains after own) (h' : after.Gains later more) :
    schema.Gains later (own ++ more) where
  isSealed := h'.isSealed.trans h.isSealed
  spaces e := by rw [h'.spaces, h.spaces, List.mem_append, or_assoc]

theorem Gains.admits_iff (h : schema.Gains after [e]) :
    after.Admits more ↔ schema.Admits more ∧ ∀ f ∈ more, f.1 ≠ e.1 := by
  have hfree : (∀ f ∈ more, ¬ after.taken.contains f.1) ↔
      (∀ f ∈ more, ¬ schema.taken.contains f.1) ∧ ∀ f ∈ more, f.1 ≠ e.1 := by
    simp only [h.contains_iff, List.mem_singleton, exists_eq_left]
    grind
  constructor
  · intro admits
    obtain ⟨free, apart⟩ := hfree.1 admits.free
    exact ⟨⟨h.isSealed ▸ admits.unsealed, admits.distinct, free⟩, apart⟩
  · intro found
    obtain ⟨admits, apart⟩ := found
    exact ⟨h.isSealed.trans admits.unsealed, admits.distinct, hfree.2 ⟨admits.free, apart⟩⟩

theorem admits_cons_iff :
    schema.Admits (e :: more) ↔
      schema.Admits [e] ∧ schema.Admits more ∧ ∀ f ∈ more, f.1 ≠ e.1 := by
  have hdistinct : ((e :: more).map (·.1)).Nodup ↔
      (more.map (·.1)).Nodup ∧ ∀ f ∈ more, f.1 ≠ e.1 := by
    simp only [List.map_cons, List.nodup_cons, List.mem_map]
    grind
  constructor
  · intro h
    obtain ⟨distinct, apart⟩ := hdistinct.1 h.distinct
    obtain ⟨free, rest⟩ := List.forall_mem_cons.1 h.free
    exact ⟨⟨h.unsealed, by simp, by simpa using free⟩, ⟨h.unsealed, distinct, rest⟩, apart⟩
  · intro found
    obtain ⟨h, rest, apart⟩ := found
    have free := h.free e List.mem_cons_self
    exact ⟨h.unsealed, hdistinct.2 ⟨rest.distinct, apart⟩, List.forall_mem_cons.2 ⟨free, rest.free⟩⟩

theorem claim_of_admits (h : schema.Admits [(space, role)]) :
    ∃ after, schema.claim space role = .ok after ∧ schema.Gains after [(space, role)] := by
  have free : schema.taken.find? space = none := by
    simpa [SortedMap.contains] using h.free _ List.mem_cons_self
  refine ⟨{ schema with taken := schema.taken.insert space role }, ?_, rfl, fun e => ?_⟩
  · simp [claim, h.unsealed, free]
  · unfold spaces
    rw [← SortedMap.find?_eq_some_iff, ← SortedMap.find?_eq_some_iff, SortedMap.find?_insert,
      List.mem_singleton, Prod.ext_iff]
    by_cases hsame : e.1 = space
    · simp [hsame, free, eq_comm]
    · simp [hsame]

theorem claim_of_taken {owner : Role} (unsealed : schema.isSealed = false)
    (h : (space, owner) ∈ schema.spaces) (role : Role) :
    schema.claim space role = .error (.spaceTaken space owner) := by
  simp [claim, unsealed, SortedMap.find?_eq_some_iff.2 h]

theorem claim_of_not_admits (h : ¬ schema.Admits [(space, role)]) :
    ∃ e, schema.claim space role = .error e := by
  unfold claim
  split
  · exact ⟨_, rfl⟩
  · next unsealed =>
    split
    · exact ⟨_, rfl⟩
    · next free =>
      exact absurd ⟨by simpa using unsealed, by simp, by simp [SortedMap.contains, free]⟩ h

theorem claim_ok (h : schema.claim space role = .ok after) :
    ¬ schema.taken.contains space ∧
      ∀ other, after.taken.contains other ↔ other = space ∨ schema.taken.contains other := by
  by_cases admits : schema.Admits [(space, role)]
  · obtain ⟨claimed, hclaim, gains⟩ := claim_of_admits admits
    cases h.symm.trans hclaim
    refine ⟨admits.free _ List.mem_cons_self, fun other => ?_⟩
    simp only [gains.contains_iff, List.mem_singleton, exists_eq_left]
    rw [or_comm, eq_comm]
  · obtain ⟨e, hclaim⟩ := claim_of_not_admits admits
    cases h.symm.trans hclaim

end Schema

namespace Building

variable {α β : Type}

/-- What is made is `a`, and the schema then has these spaces too. Or one of them cannot be had, and
the schema is left as it was. -/
def Makes (x : Building α) (a : α) (own : List (Space × Role)) : Prop :=
  ∀ schema, match x.run.run schema with
    | (.ok made, after) => made = a ∧ schema.Admits own ∧ schema.Gains after own
    | (.error _, after) => ¬ schema.Admits own ∧ after = schema

theorem run_bind_of_ok {x : Building α} {schema after : Schema} {a : α}
    (h : x.run.run schema = (.ok a, after)) (f : α → Building β) :
    (x >>= f).run.run schema = (f a).run.run after := by
  rw [ExceptT.run_bind, StateT.run_bind, h]
  rfl

theorem run_bind_of_error {x : Building α} {schema after : Schema} {e : Error}
    (h : x.run.run schema = (.error e, after)) (f : α → Building β) :
    (x >>= f).run.run schema = (.error e, after) := by
  rw [ExceptT.run_bind, StateT.run_bind, h]
  rfl

theorem run_claim (schema : Schema) (space : Space) (role : Role) :
    (Building.claim space role).run.run schema = match schema.claim space role with
      | .ok schema' => (.ok (), schema')
      | .error e => (.error e, schema) := by
  change (match schema.claim space role with
    | .ok schema' => set schema'
    | .error e => throw e : Building Unit).run.run schema = _
  cases schema.claim space role <;> rfl

theorem ok_of_claim {schema schema' : Schema} {space : Space} {role : Role} {a b : α}
    (h : (do Building.claim space role; return b : Building α).run.run schema =
      (.ok a, schema')) : schema.claim space role = .ok schema' ∧ b = a := by
  rw [ExceptT.run_bind, StateT.run_bind, run_claim] at h
  cases hclaim : schema.claim space role with
  | error e =>
    rw [hclaim] at h
    change (Except.error e, schema) = _ at h
    cases h
  | ok claimed =>
    rw [hclaim] at h
    change (Except.ok b, claimed) = _ at h
    cases h
    exact ⟨rfl, rfl⟩

theorem ok_of_bind {schema schema' : Schema} {x : Building α} {f : α → Building β} {b : β}
    (h : (x >>= f).run.run schema = (.ok b, schema')) :
    ∃ a schema₁, x.run.run schema = (.ok a, schema₁) ∧
      (f a).run.run schema₁ = (.ok b, schema') := by
  rw [ExceptT.run_bind, StateT.run_bind] at h
  rcases hx : x.run.run schema with ⟨e | a, schema₁⟩
  · rw [hx] at h
    cases h
  · rw [hx] at h
    exact ⟨a, schema₁, rfl, h⟩

theorem run_claim_of_admits {schema : Schema} {space : Space} {role : Role}
    (h : schema.Admits [(space, role)]) (a : α) :
    ∃ after, (do Building.claim space role; return a : Building α).run.run schema =
      (.ok a, after) ∧ schema.Gains after [(space, role)] := by
  obtain ⟨after, hclaim, gains⟩ := Schema.claim_of_admits h
  have hrun : (Building.claim space role).run.run schema = (.ok (), after) := by
    rw [run_claim, hclaim]
  exact ⟨after, run_bind_of_ok hrun _, gains⟩

theorem run_claim_of_not_admits {schema : Schema} {space : Space} {role : Role}
    (h : ¬ schema.Admits [(space, role)]) (a : α) :
    ∃ e, (do Building.claim space role; return a : Building α).run.run schema =
      (.error e, schema) := by
  obtain ⟨e, hclaim⟩ := Schema.claim_of_not_admits h
  exact ⟨e, run_bind_of_error (by rw [run_claim, hclaim]) _⟩

theorem makes_claim (space : Space) (role : Role) (a : α) :
    (do Building.claim space role; return a : Building α).Makes a [(space, role)] := by
  intro schema
  by_cases h : schema.Admits [(space, role)]
  · obtain ⟨after, hrun, gains⟩ := run_claim_of_admits h a
    rw [hrun]
    exact ⟨rfl, h, gains⟩
  · obtain ⟨e, hrun⟩ := run_claim_of_not_admits h a
    rw [hrun]
    exact ⟨h, rfl⟩

end Building

end IndexedTables
