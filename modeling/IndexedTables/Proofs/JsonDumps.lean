import Mathlib.Data.List.Forall2
import IndexedTables.Keeper.Rows
import IndexedTables.Proofs.JsonText
import IndexedTables.Proofs.Operations
import IndexedTables.Table.Natural
import IndexedTables.Table.Numbered
set_option autoImplicit false

namespace IndexedTables

variable {T : Type}

namespace Json

variable {α β : Type} {read : Json → Option α}

/-- The JSON value is built of naturals and texts, and `a` is read from it. -/
def States (read : Json → Option α) (j : Json) (a : α) : Prop := j.Plain ∧ read j = some a

theorem states_ofText (s : String) : States text? (ofText s) s :=
  ⟨.text (Bytes.ofText s), textOf?_ofText s⟩

theorem states_ofBytes (b : Bytes) : States bytes? (ofBytes b) b :=
  ⟨plain_ofBytes b, bytes?_ofBytes b⟩

theorem states_ofUInt64 (n : UInt64) : States uint64? (ofNat n.toNat) n := by
  have hlt : n.toNat < UInt64.size := n.toNat_lt
  exact ⟨.natural n.toNat, by simp [uint64?, hlt]⟩

theorem states_array {items : List Json} {as : List α}
    (h : List.Forall₂ (States read) items as) : States (list? read) (.array items) as := by
  refine ⟨.array ?_, ?_⟩
  · induction h with
    | nil => simp
    | cons hitem hitems ih => exact List.forall_mem_cons.2 ⟨hitem.1, ih⟩
  · change items.mapM read = some as
    induction h with
    | nil => rfl
    | cons hitem hitems ih =>
      rw [List.mapM_cons, hitem.2, ih]
      rfl

theorem states_map {write : α → Json} (h : ∀ a, States read (write a) a) (as : List α) :
    States (list? read) (.array (as.map write)) as := by
  refine states_array ?_
  induction as with
  | nil => exact .nil
  | cons a rest ih => exact .cons (h a) ih

theorem forall₂_of_mapM {write : α → Except Error Json} {as : List α} {items : List Json}
    (hitems : as.mapM write = .ok items) :
    List.Forall₂ (fun j a => write a = .ok j) items as := by
  induction as generalizing items with
  | nil =>
    cases hitems
    exact .nil
  | cons a rest ih =>
    rw [List.mapM_cons] at hitems
    obtain ⟨j, hj, hitems⟩ := ok_of_bind hitems
    obtain ⟨more, hmore, hitems⟩ := ok_of_bind hitems
    cases hitems
    exact .cons hj (ih hmore)

theorem states_mapM {write : α → Except Error Json}
    (h : ∀ a j, write a = .ok j → States read j a) {as : List α} {items : List Json}
    (hitems : as.mapM write = .ok items) : States (list? read) (.array items) as :=
  states_array ((forall₂_of_mapM hitems).imp fun j a => h a j)

theorem States.read?_render {j : Json} {a : α} (h : States read j a) (shallow : j.Shallow) :
    Json.read? j.render >>= read = some a := by
  rw [h.1.read?_render shallow]
  exact h.2

end Json

open Json

/-- A row that can be written as JSON is read from it. -/
def Codec.JsonRoundTrips (codec : Codec T) : Prop :=
  ∀ value j, codec.toJson value = .ok j → States codec.ofJson? j value

theorem Group.codec_jsonRoundTrips : codec.JsonRoundTrips := by
  intro g j h
  cases h
  have name := states_ofText g.name
  have admin := states_ofBytes g.admin
  have nickname := states_ofText g.nickname
  refine ⟨plain_ofFields (by simp [name.1, admin.1, nickname.1]), ?_⟩
  change ofJson? (toJson g) = some g
  rw [ofJson?, toJson, members?_ofFields]
  simp [name.2, admin.2, nickname.2]

theorem Member.codec_jsonRoundTrips : codec.JsonRoundTrips := by
  intro m j h
  cases h
  have groupId := states_ofUInt64 m.groupId
  have member := states_ofBytes m.member
  have weight := states_ofUInt64 m.weight
  refine ⟨plain_ofFields (by simp [groupId.1, member.1, weight.1]), ?_⟩
  change ofJson? (toJson m) = some m
  rw [ofJson?, toJson, members?_ofFields]
  simp [groupId.2, member.2, weight.2]

theorem Note.codec_jsonRoundTrips : codec.JsonRoundTrips := by
  intro n j h
  change (if n.title = reservedTitle then Except.error _ else Except.ok n.toJson) = .ok j at h
  split at h
  · cases h
  cases h
  have title := states_ofText n.title
  have body := states_ofText n.body
  refine ⟨plain_ofFields (by simp [title.1, body.1]), ?_⟩
  change ofJson? (toJson n) = some n
  rw [ofJson?, toJson, members?_ofFields]
  simp [title.2, body.2]

theorem Tagged.codec_jsonRoundTrips : codec.JsonRoundTrips := by
  intro t j h
  cases h
  have tags := states_map states_ofText t.tags
  have nums := states_map states_ofUInt64 t.nums
  have slug := states_ofText t.slug
  refine ⟨plain_ofFields (by simp [tags.1, nums.1, slug.1]), ?_⟩
  change ofJson? (toJson t) = some t
  rw [ofJson?, toJson, members?_ofFields]
  simp [tags.2, nums.2, slug.2]

theorem Row.states_toJson {codec : Codec T} (h : codec.JsonRoundTrips) (row : Row T) (j : Json)
    (hj : row.toJson codec = .ok j) : States (ofJson? codec) j row := by
  obtain ⟨value, hvalue, hj⟩ := ok_of_bind hj
  cases hj
  have id := states_ofBytes row.id.bytes
  have value := h row.value value hvalue
  refine ⟨plain_ofFields (by simp [id.1, value.1]), ?_⟩
  rw [ofJson?, members?_ofFields]
  simp [id.2, value.2]

theorem NumberedDump.states_toJson {codec : Codec T} (h : codec.JsonRoundTrips)
    {d : NumberedDump T} {j : Json} (hj : d.toJson codec = .ok j) :
    States (ofJson? codec) j d := by
  obtain ⟨items, hitems, hj⟩ := ok_of_bind hj
  cases hj
  have sequence := states_ofUInt64 d.sequence
  have rows := states_mapM (Row.states_toJson h) hitems
  refine ⟨plain_ofFields (by simp [sequence.1, rows.1]), ?_⟩
  rw [ofJson?, members?_ofFields]
  simp [sequence.2, rows.2]

theorem NumberedDump.parse_render {codec : Codec T} (h : codec.JsonRoundTrips)
    {d : NumberedDump T} {j : Json} (hj : d.toJson codec = .ok j) (shallow : j.Shallow) :
    parse codec j.render = .ok d := by
  rw [parse, (states_toJson h hj).read?_render shallow]

theorem NaturalTable.parse_render {codec : Codec T} (h : codec.JsonRoundTrips)
    {rows : List (Row T)} {items : List Json} (hitems : rows.mapM (Row.toJson codec) = .ok items)
    (shallow : (Json.array items).Shallow) :
    parse codec (Json.array items).render = .ok rows := by
  rw [parse, (states_mapM (Row.states_toJson h) hitems).read?_render shallow]

/-- Restoring a dump from its text is restoring the dump, if its JSON is of this sort. -/
structure Codec.TextsRestore (codec : Codec T) (sort : Json → Prop) : Prop where
  numbered : ∀ (t : NumberedTable T) (d : NumberedDump T) (j : Json), t.table.codec = codec →
    d.toJson codec = .ok j → sort j → t.restoreJson j.render = t.restore d
  natural : ∀ (t : NaturalTable T) (rows : List (Row T)) (items : List Json),
    t.table.codec = codec → rows.mapM (Row.toJson codec) = .ok items → sort (.array items) →
    t.restoreJson (Json.array items).render = t.restore rows

theorem Codec.JsonRoundTrips.textsRestore {codec : Codec T} (h : codec.JsonRoundTrips) :
    codec.TextsRestore Json.Shallow where
  numbered t d j hcodec hj shallow := by
    rw [NumberedTable.restoreJson, hcodec, NumberedDump.parse_render h hj shallow]
    rfl
  natural t rows items hcodec hitems shallow := by
    rw [NaturalTable.restoreJson, hcodec, NaturalTable.parse_render h hitems shallow]
    rfl

/-- No value of the type is written deeper than an object of lists. -/
def Codec.Flat (codec : Codec T) : Prop := ∀ value j, codec.toJson value = .ok j → j.depth ≤ 2

theorem Group.codec_flat : codec.Flat := by
  intro g j h
  cases h
  exact depth_ofFields_le (by simp [depth_ofBytes_le])

theorem Member.codec_flat : codec.Flat := by
  intro m j h
  cases h
  exact depth_ofFields_le (by simp [depth_ofBytes_le])

theorem Note.codec_flat : codec.Flat := by
  intro n j h
  change (if n.title = reservedTitle then Except.error _ else Except.ok n.toJson) = .ok j at h
  split at h
  · cases h
  cases h
  exact depth_ofFields_le (by simp)

theorem Tagged.codec_flat : codec.Flat := by
  intro t j h
  cases h
  have tags : (Json.array (t.tags.map ofText)).depth ≤ 1 := depth_array_le (by simp)
  have nums : (Json.array (t.nums.map fun n => ofNat n.toNat)).depth ≤ 1 :=
    depth_array_le (by simp)
  exact depth_ofFields_le (by simp [tags, nums])

namespace Codec.Flat

variable {codec : Codec T} (flat : codec.Flat)

include flat

theorem depth_row {row : Row T} {j : Json} (hj : row.toJson codec = .ok j) : j.depth ≤ 3 := by
  obtain ⟨value, hvalue, hj⟩ := ok_of_bind hj
  cases hj
  have hid := Nat.le_succ_of_le (depth_ofBytes_le row.id.bytes)
  exact depth_ofFields_le (by simp [hid, flat row.value value hvalue])

theorem depth_rows {rows : List (Row T)} {items : List Json}
    (hitems : rows.mapM (Row.toJson codec) = .ok items) : (Json.array items).depth ≤ 4 := by
  have written := (forall₂_of_mapM hitems).imp fun j row hj => And.intro (flat.depth_row hj) hj
  exact depth_array_le ((List.forall₂_and_left (p := fun j => j.depth ≤ 3) items rows).1 written).1

theorem depth_dump {d : NumberedDump T} {j : Json} (hj : d.toJson codec = .ok j) :
    j.depth ≤ 5 := by
  obtain ⟨items, hitems, hj⟩ := ok_of_bind hj
  cases hj
  exact depth_ofFields_le (by simp [flat.depth_rows hitems])

theorem textsRestore (h : codec.JsonRoundTrips) : codec.TextsRestore fun _ => True where
  numbered t d j hcodec hj _ :=
    h.textsRestore.numbered t d j hcodec hj (Nat.le_trans (flat.depth_dump hj) (by decide))
  natural t rows items hcodec hitems _ :=
    h.textsRestore.natural t rows items hcodec hitems
      (Nat.le_trans (flat.depth_rows hitems) (by decide))

end Codec.Flat

def awkwardDump : NumberedDump Tagged :=
  ⟨7, [⟨.ofNumber 5, ⟨["\"\\\n\x01é", ""], [0, 0xffffffffffffffff], "s"⟩⟩]⟩

end IndexedTables
