import IndexedTables.Row
import IndexedTables.Row.Packed
set_option autoImplicit false

namespace IndexedTables

def Codec.ofPacked {T : Type} (pack : T → Bytes) (reader : Packed.Reader T) (toJson : T → Json)
    (ofJson? : Json → Option T) (rowSize : Nat) : Codec T where
  marshal value := .ok (pack value)
  unmarshal stored := match Packed.read? reader stored with
    | some value => .ok value
    | none => .error .unreadableRow
  toJson value := .ok (toJson value)
  ofJson?
  rowSize

structure Group where
  name : String
  admin : Bytes
  nickname : String
  deriving DecidableEq, Repr

namespace Group

def pack (g : Group) : Bytes :=
  Packed.ofText g.name ++ Packed.ofBytes g.admin ++ Packed.ofText g.nickname

def reader : Packed.Reader Group := do
  return { name := ← Packed.text, admin := ← Packed.bytes, nickname := ← Packed.text }

def toJson (g : Group) : Json :=
  .ofFields [("name", .ofText g.name), ("admin", .ofBytes g.admin), ("alias", .ofText g.nickname)]

def ofJson? (j : Json) : Option Group := do
  match ← j.members? ["name", "admin", "alias"] with
  | [some name, some admin, some nickname] =>
    return ⟨← name.text?, ← admin.bytes?, ← nickname.text?⟩
  | _ => none

def codec : Codec Group := .ofPacked pack reader toJson ofJson? 96

end Group

structure Member where
  groupId : UInt64
  member : Bytes
  weight : UInt64
  deriving DecidableEq, Repr

namespace Member

def pack (m : Member) : Bytes :=
  Packed.ofUInt64 m.groupId ++ Packed.ofBytes m.member ++ Packed.ofUInt64 m.weight

def reader : Packed.Reader Member := do
  return { groupId := ← Packed.uint64, member := ← Packed.bytes, weight := ← Packed.uint64 }

def toJson (m : Member) : Json :=
  .ofFields [("group_id", .ofNat m.groupId.toNat), ("member", .ofBytes m.member),
    ("weight", .ofNat m.weight.toNat)]

def ofJson? (j : Json) : Option Member := do
  match ← j.members? ["group_id", "member", "weight"] with
  | [some groupId, some member, some weight] =>
    return ⟨← groupId.uint64?, ← member.bytes?, ← weight.uint64?⟩
  | _ => none

def codec : Codec Member := .ofPacked pack reader toJson ofJson? 64

end Member

/-- A note. One title is reserved: a note that bears it cannot be written. -/
structure Note where
  title : String
  body : String
  deriving DecidableEq, Repr

namespace Note

def pack (n : Note) : Bytes := Packed.ofText n.title ++ Packed.ofText n.body

def reader : Packed.Reader Note := do
  return { title := ← Packed.text, body := ← Packed.text }

def toJson (n : Note) : Json := .ofFields [("title", .ofText n.title), ("body", .ofText n.body)]

def ofJson? (j : Json) : Option Note := do
  match ← j.members? ["title", "body"] with
  | [some title, some body] => return ⟨← title.text?, ← body.text?⟩
  | _ => none

def reservedTitle : String := "!ser"

def refusal : String := "unserializable title"

/-- A note with the reserved title can be read from stored bytes all the same. -/
def codec : Codec Note :=
  let plain := Codec.ofPacked pack reader toJson ofJson? 72
  { plain with
    marshal := fun n =>
      if n.title = reservedTitle then .error (.unwritableRow refusal) else plain.marshal n
    toJson := fun n =>
      if n.title = reservedTitle then .error (.reported .serialization refusal)
      else plain.toJson n }

end Note

structure Tagged where
  tags : List String
  nums : List UInt64
  slug : String
  deriving DecidableEq, Repr

namespace Tagged

def pack (t : Tagged) : Bytes :=
  Packed.ofList Packed.ofText t.tags ++ Packed.ofList Packed.ofUInt64 t.nums ++
    Packed.ofText t.slug

def reader : Packed.Reader Tagged := do
  return {
    tags := ← Packed.list Packed.text
    nums := ← Packed.list Packed.uint64
    slug := ← Packed.text }

def toJson (t : Tagged) : Json :=
  .ofFields [("tags", .array (t.tags.map .ofText)),
    ("nums", .array (t.nums.map fun n => .ofNat n.toNat)), ("slug", .ofText t.slug)]

def ofJson? (j : Json) : Option Tagged := do
  match ← j.members? ["tags", "nums", "slug"] with
  | [some tags, some nums, some slug] =>
    return ⟨← tags.list? Json.text?, ← nums.list? Json.uint64?, ← slug.text?⟩
  | _ => none

def codec : Codec Tagged := .ofPacked pack reader toJson ofJson? 96

end Tagged

end IndexedTables
