import IndexedTables.Bytes.Lemmas
import IndexedTables.Keeper.Rows
import IndexedTables.Proofs.TableWrites
set_option autoImplicit false

namespace IndexedTables

namespace Packed

variable {α β : Type}

/-- A value is read off the front exactly if it fits the format and its packed form stands there. -/
def Inverts (r : Reader α) (write : α → Bytes) (Fits : α → Prop) : Prop :=
  ∀ input value rest, r input = some (value, rest) ↔ Fits value ∧ input = write value ++ rest

theorem bind_eq_some_iff {r : Reader α} {f : α → Reader β} {input rest : Bytes} {b : β} :
    (r >>= f) input = some (b, rest) ↔
      ∃ a mid, r input = some (a, mid) ∧ f a mid = some (b, rest) := by
  change (r input >>= fun p => f p.1 p.2) = some (b, rest) ↔ _
  cases r input with
  | none => simp
  | some p => simp [Prod.ext_iff]

theorem pure_eq_some_iff {a b : α} {input rest : Bytes} :
    (pure a : Reader α) input = some (b, rest) ↔ a = b ∧ input = rest := by
  change some (a, input) = some (b, rest) ↔ _
  simp

theorem take_eq_some_iff {n : Nat} {input b rest : Bytes} :
    take n input = some (b, rest) ↔ b.length = n ∧ input = b ++ rest := by
  constructor
  · intro h
    unfold take at h
    split at h
    · next full =>
      cases h
      exact ⟨full, (List.take_append_drop n input).symm⟩
    · cases h
  · intro h
    obtain ⟨rfl, rfl⟩ := h
    simp [take]

theorem map_eq_some_iff {r : Reader α} {f : α → β} {input rest : Bytes} {b : β} :
    (f <$> r) input = some (b, rest) ↔ ∃ a, r input = some (a, rest) ∧ f a = b := by
  change (r >>= fun a => pure (f a)) input = some (b, rest) ↔ _
  simp only [bind_eq_some_iff, pure_eq_some_iff]
  constructor
  · intro here
    obtain ⟨a, mid, ha, hb, rfl⟩ := here
    exact ⟨a, ha, hb⟩
  · intro here
    obtain ⟨a, ha, hb⟩ := here
    exact ⟨a, rest, ha, hb, rfl⟩

theorem inverts_nat : Inverts nat ofNat (· < 2 ^ 64) := by
  intro input n rest
  rw [nat, map_eq_some_iff]
  constructor
  · intro here
    obtain ⟨b, hb, rfl⟩ := here
    obtain ⟨hlength, rfl⟩ := take_eq_some_iff.1 hb
    have hlt := Bytes.littleValue_lt b
    have hwritten := Bytes.littleEndian_littleValue b
    rw [hlength] at hlt hwritten
    exact ⟨hlt, by rw [ofNat, hwritten]⟩
  · intro here
    obtain ⟨hlt, rfl⟩ := here
    exact ⟨ofNat n, take_eq_some_iff.2 ⟨Bytes.length_littleEndian 8 n, rfl⟩,
      @Bytes.littleValue_littleEndian_of_lt 8 n hlt⟩

theorem inverts_uint64 : Inverts uint64 ofUInt64 fun _ => True := by
  intro input n rest
  rw [uint64, map_eq_some_iff]
  simp only [inverts_nat _ _ _, true_and]
  constructor
  · intro here
    obtain ⟨m, ⟨hlt, rfl⟩, rfl⟩ := here
    rw [ofUInt64, UInt64.toNat_ofNat_of_lt' hlt]
  · intro here
    subst here
    exact ⟨n.toNat, ⟨n.toNat_lt, rfl⟩, UInt64.ofNat_toNat⟩

theorem inverts_bytes : Inverts bytes ofBytes fun b => b.length < 2 ^ 64 := by
  intro input b rest
  simp only [bytes, bind_eq_some_iff, inverts_nat _ _ _, take_eq_some_iff]
  constructor
  · intro here
    obtain ⟨n, mid, ⟨hlt, rfl⟩, rfl, rfl⟩ := here
    exact ⟨hlt, by rw [ofBytes, List.append_assoc]⟩
  · intro here
    obtain ⟨hlt, rfl⟩ := here
    exact ⟨b.length, b ++ rest, ⟨hlt, by rw [ofBytes, List.append_assoc]⟩, rfl, rfl⟩

theorem inverts_text : Inverts text ofText fun s => (Bytes.ofText s).length < 2 ^ 64 := by
  intro input s rest
  simp only [text, bind_eq_some_iff, inverts_bytes _ _ _]
  constructor
  · intro here
    obtain ⟨b, mid, ⟨hlt, rfl⟩, hs⟩ := here
    cases htext : Bytes.toText? b with
    | none =>
      rw [htext] at hs
      cases hs
    | some found =>
      rw [htext] at hs
      obtain ⟨rfl, rfl⟩ := pure_eq_some_iff.1 hs
      cases Bytes.ofText_of_toText? htext
      exact ⟨hlt, rfl⟩
  · intro here
    obtain ⟨hlt, rfl⟩ := here
    refine ⟨Bytes.ofText s, rest, ⟨hlt, rfl⟩, ?_⟩
    rw [Bytes.toText?_ofText]
    rfl

theorem Inverts.many {item : Reader α} {write : α → Bytes} {Fits : α → Prop}
    (h : Inverts item write Fits) (n : Nat) (input : Bytes) (items : List α) (rest : Bytes) :
    many item n input = some (items, rest) ↔
      items.length = n ∧ (∀ a ∈ items, Fits a) ∧ input = items.flatMap write ++ rest := by
  induction n generalizing input items rest with
  | zero =>
    rw [Packed.many, pure_eq_some_iff, List.length_eq_zero_iff]
    constructor
    · intro here
      obtain ⟨rfl, rfl⟩ := here
      exact ⟨rfl, by simp, rfl⟩
    · intro here
      obtain ⟨rfl, -, rfl⟩ := here
      exact ⟨rfl, rfl⟩
  | succ n ih =>
    simp only [Packed.many, bind_eq_some_iff, pure_eq_some_iff, h _ _ _, ih]
    constructor
    · intro here
      obtain ⟨a, mid, ⟨ha, rfl⟩, more, last, ⟨rfl, hmore, rfl⟩, rfl, rfl⟩ := here
      exact ⟨rfl, List.forall_mem_cons.2 ⟨ha, hmore⟩,
        by rw [List.flatMap_cons, List.append_assoc]⟩
    · intro here
      obtain ⟨hlength, hitems, rfl⟩ := here
      cases items with
      | nil => cases hlength
      | cons a more =>
        obtain ⟨ha, hmore⟩ := List.forall_mem_cons.1 hitems
        exact ⟨a, more.flatMap write ++ rest,
          ⟨ha, by rw [List.flatMap_cons, List.append_assoc]⟩, more, rest,
          ⟨Nat.succ.inj hlength, hmore, rfl⟩, rfl, rfl⟩

theorem Inverts.list {item : Reader α} {write : α → Bytes} {Fits : α → Prop}
    (h : Inverts item write Fits) :
    Inverts (list item) (ofList write) fun items =>
      items.length < 2 ^ 64 ∧ ∀ a ∈ items, Fits a := by
  intro input items rest
  simp only [Packed.list, bind_eq_some_iff, inverts_nat _ _ _, h.many]
  constructor
  · intro here
    obtain ⟨n, mid, ⟨hlt, rfl⟩, rfl, hitems, rfl⟩ := here
    exact ⟨⟨hlt, hitems⟩, by rw [ofList, List.append_assoc]⟩
  · intro here
    obtain ⟨⟨hlt, hitems⟩, rfl⟩ := here
    exact ⟨items.length, items.flatMap write ++ rest,
      ⟨hlt, by rw [ofList, List.append_assoc]⟩, rfl, hitems, rfl⟩

theorem Inverts.read?_eq_some_iff {r : Reader α} {write : α → Bytes} {Fits : α → Prop}
    (h : Inverts r write Fits) {input : Bytes} {value : α} :
    read? r input = some value ↔ Fits value ∧ write value <+: input := by
  rw [read?, Option.map_eq_some_iff]
  constructor
  · intro here
    obtain ⟨⟨found, rest⟩, hread, rfl⟩ := here
    obtain ⟨hfits, rfl⟩ := (h _ _ _).1 hread
    exact ⟨hfits, rest, rfl⟩
  · intro here
    obtain ⟨hfits, rest, rfl⟩ := here
    exact ⟨(value, rest), (h _ _ _).2 ⟨hfits, rfl⟩, rfl⟩

@[simp] theorem length_ofNat (n : Nat) : (ofNat n).length = 8 := Bytes.length_littleEndian 8 n

@[simp] theorem length_ofUInt64 (n : UInt64) : (ofUInt64 n).length = 8 := length_ofNat n.toNat

@[simp] theorem length_ofBytes (b : Bytes) : (ofBytes b).length = 8 + b.length := by
  simp [ofBytes]

@[simp] theorem length_ofText (s : String) : (ofText s).length = 8 + (Bytes.ofText s).length :=
  length_ofBytes (Bytes.ofText s)

theorem length_le_ofList (item : α → Bytes) (nonempty : ∀ a, 0 < (item a).length)
    (items : List α) : items.length ≤ (ofList item items).length ∧
      ∀ a ∈ items, (item a).length ≤ (ofList item items).length := by
  simp only [ofList, List.length_append]
  induction items with
  | nil => simp
  | cons a rest ih =>
    have ha := nonempty a
    simp only [length_ofNat, List.length_cons, List.flatMap_cons, List.length_append] at ih ⊢
    refine ⟨by omega, List.forall_mem_cons.2 ⟨by omega, fun b hb => ?_⟩⟩
    have hitem := ih.2 b hb
    omega

end Packed

def Group.Fits (g : Group) : Prop :=
  (Bytes.ofText g.name).length < 2 ^ 64 ∧ g.admin.length < 2 ^ 64 ∧
    (Bytes.ofText g.nickname).length < 2 ^ 64

def Member.Fits (m : Member) : Prop := m.member.length < 2 ^ 64

def Note.Fits (n : Note) : Prop :=
  (Bytes.ofText n.title).length < 2 ^ 64 ∧ (Bytes.ofText n.body).length < 2 ^ 64

def Tagged.Fits (t : Tagged) : Prop :=
  (t.tags.length < 2 ^ 64 ∧ ∀ tag ∈ t.tags, (Bytes.ofText tag).length < 2 ^ 64) ∧
    t.nums.length < 2 ^ 64 ∧ (Bytes.ofText t.slug).length < 2 ^ 64

section Readers

open Packed

theorem Group.fits_of_length {g : Group} (h : g.pack.length < 2 ^ 64) : g.Fits := by
  simp only [pack, List.length_append, length_ofText, length_ofBytes] at h
  exact ⟨by omega, by omega, by omega⟩

theorem Member.fits_of_length {m : Member} (h : m.pack.length < 2 ^ 64) : m.Fits := by
  simp only [pack, List.length_append, length_ofBytes] at h
  exact Nat.lt_of_le_of_lt (by omega) h

theorem Note.fits_of_length {n : Note} (h : n.pack.length < 2 ^ 64) : n.Fits := by
  simp only [pack, List.length_append, length_ofText] at h
  exact ⟨by omega, by omega⟩

theorem Tagged.fits_of_length {t : Tagged} (h : t.pack.length < 2 ^ 64) : t.Fits := by
  obtain ⟨tags, eachTag⟩ := length_le_ofList ofText (fun s => by rw [length_ofText]; omega) t.tags
  obtain ⟨nums, -⟩ := length_le_ofList ofUInt64 (fun n => by simp) t.nums
  simp only [pack, List.length_append, length_ofText] at h eachTag
  refine ⟨⟨by omega, fun tag htag => ?_⟩, by omega, by omega⟩
  have htag := eachTag tag htag
  omega

theorem Group.inverts_reader : Inverts reader pack Fits := by
  intro input g rest
  simp only [reader, bind_eq_some_iff, pure_eq_some_iff, inverts_text _ _ _, inverts_bytes _ _ _]
  constructor
  · intro here
    obtain ⟨name, _, ⟨hname, rfl⟩, admin, _, ⟨hadmin, rfl⟩, here⟩ := here
    obtain ⟨nickname, _, ⟨hnickname, rfl⟩, rfl, rfl⟩ := here
    exact ⟨⟨hname, hadmin, hnickname⟩, by simp [pack]⟩
  · intro here
    obtain ⟨⟨hname, hadmin, hnickname⟩, rfl⟩ := here
    exact ⟨g.name, _, ⟨hname, by simp [pack]⟩, g.admin, _, ⟨hadmin, rfl⟩,
      g.nickname, _, ⟨hnickname, rfl⟩, rfl, rfl⟩

theorem Member.inverts_reader : Inverts reader pack Fits := by
  intro input m rest
  simp only [reader, bind_eq_some_iff, pure_eq_some_iff, inverts_uint64 _ _ _, inverts_bytes _ _ _,
    true_and]
  constructor
  · intro here
    obtain ⟨groupId, _, rfl, member, _, ⟨hmember, rfl⟩, weight, _, rfl, rfl, rfl⟩ := here
    exact ⟨hmember, by simp [pack]⟩
  · intro here
    obtain ⟨hmember, rfl⟩ := here
    exact ⟨m.groupId, _, by simp [pack], m.member, _, ⟨hmember, rfl⟩, m.weight, _, rfl, rfl, rfl⟩

theorem Note.inverts_reader : Inverts reader pack Fits := by
  intro input n rest
  simp only [reader, bind_eq_some_iff, pure_eq_some_iff, inverts_text _ _ _]
  constructor
  · intro here
    obtain ⟨title, _, ⟨htitle, rfl⟩, body, _, ⟨hbody, rfl⟩, rfl, rfl⟩ := here
    exact ⟨⟨htitle, hbody⟩, by simp [pack]⟩
  · intro here
    obtain ⟨⟨htitle, hbody⟩, rfl⟩ := here
    exact ⟨n.title, _, ⟨htitle, by simp [pack]⟩, n.body, _, ⟨hbody, rfl⟩, rfl, rfl⟩

theorem Tagged.inverts_reader : Inverts reader pack Fits := by
  intro input t rest
  simp only [reader, bind_eq_some_iff, pure_eq_some_iff, inverts_text.list _ _ _,
    inverts_uint64.list _ _ _, inverts_text _ _ _]
  constructor
  · intro here
    obtain ⟨tags, _, ⟨htags, rfl⟩, nums, _, ⟨⟨hnums, -⟩, rfl⟩, here⟩ := here
    obtain ⟨slug, _, ⟨hslug, rfl⟩, rfl, rfl⟩ := here
    exact ⟨⟨htags, hnums, hslug⟩, by simp [pack]⟩
  · intro here
    obtain ⟨⟨htags, hnums, hslug⟩, rfl⟩ := here
    exact ⟨t.tags, _, ⟨htags, by simp [pack]⟩, t.nums, _, ⟨⟨hnums, fun _ _ => trivial⟩, rfl⟩,
      t.slug, _, ⟨hslug, rfl⟩, rfl, rfl⟩

end Readers

namespace Codec

variable {T : Type} {codec : Codec T} {pack : T → Bytes} {Fits : T → Prop}

/-- Values that fit are stored in their packed form, from which no other value is read. -/
structure PacksAs (codec : Codec T) (pack : T → Bytes) (Fits : T → Prop) : Prop where
  reads : ∀ value stored, codec.unmarshal stored = .ok value ↔ Fits value ∧ pack value <+: stored
  refuses : ∀ stored e, codec.unmarshal stored = .error e → e.kind = .serialization
  writes : ∀ value stored, codec.marshal value = .ok stored → stored = pack value

theorem packsAs_ofPacked {r : Packed.Reader T} (h : Packed.Inverts r pack Fits) (toJson : T → Json)
    (ofJson? : Json → Option T) (rowSize : Nat) :
    (ofPacked pack r toJson ofJson? rowSize).PacksAs pack Fits where
  reads value stored := by
    simp only [← h.read?_eq_some_iff, ofPacked]
    cases Packed.read? r stored <;> simp
  refuses stored e herror := by
    cases hread : Packed.read? r stored with
    | some value => simp [ofPacked, hread] at herror
    | none =>
      simp only [ofPacked, hread, Except.error.injEq] at herror
      exact herror ▸ rfl
  writes value stored hmarshal := (Except.ok.inj hmarshal).symm

theorem packsAs_note : Note.codec.PacksAs Note.pack Note.Fits :=
  let plain := packsAs_ofPacked Note.inverts_reader Note.toJson Note.ofJson? Note.codec.rowSize
  { reads := plain.reads
    refuses := plain.refuses
    writes := fun n stored hmarshal => by
      by_cases reserved : n.title = Note.reservedTitle
      · simp [Note.codec, reserved] at hmarshal
      · simp only [Note.codec, reserved, if_false] at hmarshal
        exact plain.writes n stored hmarshal }

namespace PacksAs

variable (h : codec.PacksAs pack Fits)

include h

theorem unmarshal_marshal {value : T} (fits : Fits value) {stored : Bytes}
    (hmarshal : codec.marshal value = .ok stored) (behind : Bytes) :
    codec.unmarshal (stored ++ behind) = .ok value := by
  rw [h.writes value stored hmarshal]
  exact (h.reads value _).2 ⟨fits, List.prefix_append _ _⟩

theorem eq_of_prefix {value other : T} (fits : Fits value) (fits' : Fits other)
    (front : pack value <+: pack other) : value = other := by
  have hvalue := (h.reads value (pack other)).2 ⟨fits, front⟩
  rw [(h.reads other (pack other)).2 ⟨fits', List.prefix_rfl⟩] at hvalue
  exact (Except.ok.inj hvalue).symm

theorem refuses_of_short {value : T} (fits : Fits value) {stored : Bytes}
    (front : stored <+: pack value) (short : stored ≠ pack value) :
    ∃ e, codec.unmarshal stored = .error e ∧ e.kind = .serialization := by
  cases hread : codec.unmarshal stored with
  | error e => exact ⟨e, rfl, h.refuses stored e hread⟩
  | ok other =>
    obtain ⟨fits', front'⟩ := (h.reads other stored).1 hread
    -- A value read off the shorter bytes would stand at the front of the packed form as well.
    cases h.eq_of_prefix fits' fits (front'.trans front)
    exact absurd (front'.eq_of_length_le front.length_le).symm short

end PacksAs

/-- What the packed forms of values are good for, by themselves and in a table. -/
structure Exact (codec : Codec T) (pack : T → Bytes) (Fits : T → Prop) : Prop
    extends codec.PacksAs pack Fits where
  decides : ∀ value stored, stored.length < 2 ^ 64 →
    (codec.unmarshal stored = .ok value ↔ pack value <+: stored)
  restores : ∀ value stored behind, Fits value → codec.marshal value = .ok stored →
    codec.unmarshal (stored ++ behind) = .ok value
  apart : ∀ value other, Fits value → Fits other → pack value <+: pack other → value = other
  /-- Under an id where a packed form breaks off there is no row to be had. -/
  short : ∀ (t : Table T) (s : Store) (id : RowId) value stored, t.codec = codec → Fits value →
    s.find? (t.space :: id.bytes) = some stored → stored <+: pack value → stored ≠ pack value →
    ∃ e, (t.get id).on s = (.error e, s) ∧ e.kind = .serialization

theorem PacksAs.exact (h : codec.PacksAs pack Fits)
    (hfits : ∀ {value}, (pack value).length < 2 ^ 64 → Fits value) : codec.Exact pack Fits where
  toPacksAs := h
  decides value stored hlength := by
    rw [h.reads value stored]
    constructor
    · intro here
      exact here.2
    · intro front
      exact ⟨hfits (Nat.lt_of_le_of_lt front.length_le hlength), front⟩
  restores _ _ behind fits hmarshal := h.unmarshal_marshal fits hmarshal behind
  apart _ _ fits fits' front := h.eq_of_prefix fits fits' front
  short t s id value stored hcodec fits hstored front short := by
    obtain ⟨e, herror, hkind⟩ := h.refuses_of_short fits front short
    exact ⟨e, by rw [Table.on_get_of_stored hstored, hcodec, herror], hkind⟩

/-- A list that states more items than there are bytes. -/
example : Tagged.codec.unmarshal (List.replicate 8 0xff ++ List.replicate 8 0) =
    .error .unreadableRow := by cbv

end Codec

end IndexedTables
