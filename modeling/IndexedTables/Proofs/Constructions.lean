import IndexedTables.Index.Unique
import IndexedTables.Proofs.Building
import IndexedTables.Proofs.TableWrites
import IndexedTables.Table.Natural
import IndexedTables.Table.Numbered
set_option autoImplicit false

namespace IndexedTables

variable {T : Type}

theorem Table.makes_build (space : Space) (codec : Codec T) :
    (Table.build space codec).Makes ⟨⟨space, codec⟩, []⟩ [(space, .table)] :=
  Building.makes_claim space .table _

theorem Sequence.makes_build (space : Space) :
    (Sequence.build space).Makes ⟨space⟩ [(space, .sequence)] :=
  Building.makes_claim space .sequence _

theorem NaturalTable.makes_build (space : Space) (codec : Codec T) (key : T → RowId) :
    (NaturalTable.build space codec key).Makes ⟨⟨⟨space, codec⟩, []⟩, key⟩ [(space, .table)] := by
  simp only [NaturalTable.build, Table.build, bind_assoc, pure_bind]
  exact Building.makes_claim space .table _

inductive Attachment (T : Type) where
  | multiKey (space : Space) (keys : T → Except Error (List Bytes))
  | number (space : Space) (numbers : T → Except Error (List UInt64))
  | unique (space : Space) (key : T → Except Error Bytes)

namespace Attachment

def indexer : Attachment T → Indexer T
  | .multiKey space keys => ⟨space, .multiKey, keys⟩
  | .number space numbers =>
    ⟨space, .multiKey, fun value => (numbers value).map (·.map numericKey)⟩
  | .unique space key => ⟨space, .unique, fun value => (key value).map fun key => [key]⟩

def Index : Attachment T → Type
  | .multiKey _ _ => MultiKeyIndex T
  | .number _ _ => NumberIndex T
  | .unique _ _ => UniqueIndex T

def index (t : Table T) : (a : Attachment T) → a.Index
  | .multiKey space _ => (⟨space, t.toRows⟩ : MultiKeyIndex T)
  | .number space _ => (⟨⟨space, t.toRows⟩⟩ : NumberIndex T)
  | .unique space _ => (⟨space, t.toRows⟩ : UniqueIndex T)

def onto (t : Table T) : (a : Attachment T) → Building (Table T × a.Index)
  | .multiKey space keys => MultiKeyIndex.attach t space keys
  | .number space numbers => NumberIndex.attach t space numbers
  | .unique space key => UniqueIndex.attach t space key

theorem makes_onto (t : Table T) (a : Attachment T) :
    (a.onto t).Makes (t.observe a.indexer.observer, a.index t) [(a.indexer.space, .index)] := by
  cases a with
  | multiKey space keys => exact Building.makes_claim space .index _
  | number space numbers =>
    simp only [onto, NumberIndex.attach, MultiKeyIndex.attach, bind_assoc, pure_bind]
    exact Building.makes_claim space .index _
  | unique space key => exact Building.makes_claim space .index _

end Attachment

structure Bench (T : Type) where
  schema : Schema
  table : Table T

namespace Bench

/-- Attaches an index to the table. A table is a value, so if the index is refused there is no other
table to take its place: that the observers stay is so by the form of the definition, that the
schema stays is not. -/
def attach (b : Bench T) (a : Attachment T) : Except Error a.Index × Bench T :=
  match (a.onto b.table).run.run b.schema with
  | (.ok (table, index), schema) => (.ok index, ⟨schema, table⟩)
  | (.error e, schema) => (.error e, { b with schema })

theorem attach_cases (b : Bench T) (a : Attachment T) :
    match b.attach a with
    | (.ok index, after) => index = a.index b.table ∧
        b.schema.Admits [(a.indexer.space, .index)] ∧
        b.schema.Gains after.schema [(a.indexer.space, .index)] ∧
        after.table = b.table.observe a.indexer.observer
    | (.error _, after) => ¬ b.schema.Admits [(a.indexer.space, .index)] ∧ after = b := by
  have makes := a.makes_onto b.table b.schema
  unfold attach
  rcases hrun : (a.onto b.table).run.run b.schema with ⟨e | ⟨table, index⟩, schema⟩
  · rw [hrun] at makes
    obtain ⟨refused, rfl⟩ := makes
    exact ⟨refused, rfl⟩
  · rw [hrun] at makes
    obtain ⟨made, admits, gains⟩ := makes
    cases made
    exact ⟨rfl, admits, gains, rfl⟩

end Bench

namespace NumberedTable

variable {schema : Schema} {rows sequence : Space}

theorem run_build_of_admits (codec : Codec T)
    (h : schema.Admits [(rows, .table), (sequence, .sequence)]) :
    ∃ after, (NumberedTable.build rows sequence codec).run.run schema =
        (.ok ⟨⟨⟨rows, codec⟩, []⟩, ⟨sequence⟩⟩, after) ∧
      schema.Gains after [(rows, .table), (sequence, .sequence)] := by
  obtain ⟨hrows, rest⟩ := Schema.admits_cons_iff.1 h
  obtain ⟨after, htable, gains⟩ :=
    Building.run_claim_of_admits hrows (⟨⟨rows, codec⟩, []⟩ : Table T)
  obtain ⟨last, hsequence, gains'⟩ :=
    Building.run_claim_of_admits (gains.admits_iff.2 rest) (⟨sequence⟩ : Sequence)
  refine ⟨last, ?_, gains.trans gains'⟩
  exact (Building.run_bind_of_ok htable _).trans (Building.run_bind_of_ok hsequence _)

theorem run_build_of_rows_refused (sequence : Space) (codec : Codec T)
    (h : ¬ schema.Admits [(rows, .table)]) :
    ∃ e, (NumberedTable.build rows sequence codec).run.run schema = (.error e, schema) := by
  obtain ⟨e, htable⟩ := Building.run_claim_of_not_admits h (⟨⟨rows, codec⟩, []⟩ : Table T)
  exact ⟨e, Building.run_bind_of_error htable _⟩

/-- The space of the sequence is refused: that of the rows stays taken. -/
theorem run_build_of_sequence_refused (codec : Codec T) (hrows : schema.Admits [(rows, .table)])
    (h : ¬ schema.Admits [(rows, .table), (sequence, .sequence)]) :
    ∃ e after, (NumberedTable.build rows sequence codec).run.run schema = (.error e, after) ∧
      schema.Gains after [(rows, .table)] := by
  obtain ⟨after, htable, gains⟩ :=
    Building.run_claim_of_admits hrows (⟨⟨rows, codec⟩, []⟩ : Table T)
  have refused : ¬ after.Admits [(sequence, .sequence)] := fun admits =>
    h (Schema.admits_cons_iff.2 ⟨hrows, gains.admits_iff.1 admits⟩)
  obtain ⟨e, hsequence⟩ := Building.run_claim_of_not_admits refused (⟨sequence⟩ : Sequence)
  refine ⟨e, after, ?_, gains⟩
  exact (Building.run_bind_of_ok htable _).trans (Building.run_bind_of_error hsequence _)

theorem run_build_of_rows_taken (unsealed : schema.isSealed = false)
    (h : (rows, .table) ∈ schema.spaces) (sequence : Space) (codec : Codec T) :
    (NumberedTable.build rows sequence codec).run.run schema =
      (.error (.spaceTaken rows .table), schema) := by
  have htable : (Table.build rows codec).run.run schema =
      (.error (.spaceTaken rows .table), schema) :=
    Building.run_bind_of_error
      (by rw [Building.run_claim, Schema.claim_of_taken unsealed h]) _
  exact Building.run_bind_of_error htable _

end NumberedTable

/-- A construction succeeds exactly if the schema is open and the spaces are free and distinct, and
the schema then has these spaces besides the old ones. One that fails changes nothing, but for this:
a numbered table whose rows could have their space and whose sequence cannot leaves the space of the
rows taken, so that it can be built only with another one. -/
theorem Schema.constructions_take_own_spaces :
    (∀ {T : Type} (space : Space) (codec : Codec T),
      (Table.build space codec).Makes ⟨⟨space, codec⟩, []⟩ [(space, .table)]) ∧
    (∀ {T : Type} (space : Space) (codec : Codec T) (key : T → RowId),
      (NaturalTable.build space codec key).Makes ⟨⟨⟨space, codec⟩, []⟩, key⟩ [(space, .table)]) ∧
    (∀ space : Space, (Sequence.build space).Makes ⟨space⟩ [(space, .sequence)]) ∧
    (∀ {T : Type} (b : Bench T) (a : Attachment T), match b.attach a with
      | (.ok index, after) => index = a.index b.table ∧
          b.schema.Admits [(a.indexer.space, .index)] ∧
          b.schema.Gains after.schema [(a.indexer.space, .index)] ∧
          after.table = b.table.observe a.indexer.observer
      | (.error _, after) => ¬ b.schema.Admits [(a.indexer.space, .index)] ∧ after = b) ∧
    ∀ {T : Type} (rows sequence : Space) (codec : Codec T) (schema : Schema),
      match (NumberedTable.build rows sequence codec).run.run schema with
      | (.ok made, after) => made = ⟨⟨⟨rows, codec⟩, []⟩, ⟨sequence⟩⟩ ∧
          schema.Admits [(rows, .table), (sequence, .sequence)] ∧
          schema.Gains after [(rows, .table), (sequence, .sequence)]
      | (.error _, after) => ¬ schema.Admits [(rows, .table), (sequence, .sequence)] ∧
          (¬ schema.Admits [(rows, .table)] → after = schema) ∧
          (schema.Admits [(rows, .table)] → schema.Gains after [(rows, .table)] ∧
            (∀ other, (NumberedTable.build rows other codec).run.run after =
              (.error (.spaceTaken rows .table), after)) ∧
            ∀ own, after.Admits own ↔ schema.Admits own ∧ ∀ f ∈ own, f.1 ≠ rows) := by
  refine ⟨Table.makes_build, NaturalTable.makes_build, Sequence.makes_build, Bench.attach_cases,
    fun rows sequence codec schema => ?_⟩
  by_cases both : schema.Admits [(rows, .table), (sequence, .sequence)]
  · obtain ⟨after, hrun, gains⟩ := NumberedTable.run_build_of_admits codec both
    rw [hrun]
    exact ⟨rfl, both, gains⟩
  by_cases hrows : schema.Admits [(rows, .table)]
  · obtain ⟨e, after, hrun, gains⟩ := NumberedTable.run_build_of_sequence_refused codec hrows both
    -- The rows were claimed before the sequence was refused, and nothing gives them back.
    have taken : (rows, .table) ∈ after.spaces := (gains.spaces _).2 (.inr List.mem_cons_self)
    have unsealed : after.isSealed = false := gains.isSealed.trans hrows.unsealed
    rw [hrun]
    exact ⟨both, fun h => absurd hrows h, fun _ => ⟨gains, fun other =>
      NumberedTable.run_build_of_rows_taken unsealed taken other codec, fun _ => gains.admits_iff⟩⟩
  · obtain ⟨e, hrun⟩ := NumberedTable.run_build_of_rows_refused sequence codec hrows
    rw [hrun]
    exact ⟨both, fun _ => rfl, fun h => absurd h hrows⟩

def crowded : Schema := ⟨.ofList [(0x12, .index)], false⟩

def crowdedByRows : Schema := ⟨.ofList [(0x10, .table), (0x12, .index)], false⟩

theorem crowded_taken :
    crowded.Admits [(0x10, .table)] ∧
      (NumberedTable.build 0x10 0x12 wordCodec).run.run crowded =
        (.error (.spaceTaken 0x12 .index), crowdedByRows) ∧
      crowded.Gains crowdedByRows [(0x10, .table)] ∧
      crowdedByRows.Admits [(0x20, .table), (0x11, .sequence)] := by
  have admits : crowded.Admits [(0x10, .table)] := ⟨rfl, by decide, by decide⟩
  have fresh : crowded.Admits [(0x20, .table), (0x11, .sequence)] := ⟨rfl, by decide, by decide⟩
  have hrun : (NumberedTable.build 0x10 0x12 wordCodec).run.run crowded =
      (.error (.spaceTaken 0x12 .index), crowdedByRows) := rfl
  have decided := Schema.constructions_take_own_spaces.2.2.2.2 0x10 0x12 wordCodec crowded
  rw [hrun] at decided
  obtain ⟨gains, -, more⟩ := decided.2.2 admits
  exact ⟨admits, hrun, gains, (more _).2 ⟨fresh, by decide⟩⟩

/-- The refused table keeps its rows from being built with the sequence that they could have had. -/
theorem crowded_rows_kept :
    (NumberedTable.build 0x10 0x12 wordCodec).run.run crowded =
        (.error (.spaceTaken 0x12 .index), crowdedByRows) ∧
      crowdedByRows.spaces ≠ crowded.spaces ∧
      (∃ made after, (NumberedTable.build 0x10 0x11 wordCodec).run.run crowded =
        (.ok made, after)) ∧
      (NumberedTable.build 0x10 0x11 wordCodec).run.run crowdedByRows =
        (.error (.spaceTaken 0x10 .table), crowdedByRows) :=
  ⟨rfl, by decide, ⟨_, _, rfl⟩, rfl⟩

end IndexedTables
