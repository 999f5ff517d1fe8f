import IndexedTables.Keeper.Rows
import IndexedTables.Query.Router
import IndexedTables.Table.Natural
import IndexedTables.Table.Numbered
set_option autoImplicit false

namespace IndexedTables

structure KeeperSpaces where
  groups : Space := 0x10
  groupNumbers : Space := 0x11
  byAdmin : Space := 0x12
  byAlias : Space := 0x13
  members : Space := 0x20
  byGroup : Space := 0x21
  byMember : Space := 0x22
  notes : Space := 0x30
  tagged : Space := 0x40
  byTag : Space := 0x41
  bySlug : Space := 0x42
  byNum : Space := 0x43
  spare : Space := 0x50
  deriving Inhabited

/-- The structures of a keeper, and the schema they were built on. -/
structure Keeper where
  schema : Schema
  groups : NumberedTable Group
  byAdmin : MultiKeyIndex Group
  byAlias : UniqueIndex Group
  members : NaturalTable Member
  byGroup : NumberIndex Member
  byMember : MultiKeyIndex Member
  notes : Table Note
  tagged : Table Tagged
  byTag : MultiKeyIndex Tagged
  bySlug : UniqueIndex Tagged
  byNum : NumberIndex Tagged
  spare : Sequence

namespace Keeper

def memberKey (m : Member) : RowId := ⟨numericKey m.groupId ++ m.member⟩

def failingText : String := "!fail"

def failingNumber : UInt64 := 666

def tagKeys (t : Tagged) : Except Error (List Bytes) :=
  if failingText ∈ t.tags then .error (.reported .invalidArgument "unindexable tag")
  else .ok (t.tags.map Bytes.ofText)

def slugKey (t : Tagged) : Except Error Bytes :=
  if t.slug = failingText then .error (.reported .storage "unindexable slug")
  else .ok (Bytes.ofText t.slug)

def numKeys (t : Tagged) : Except Error (List UInt64) :=
  if failingNumber ∈ t.nums then .error (.reported .invalidArgument "unindexable number")
  else .ok t.nums

def logger (tag : String) : Observer Note where
  saved id new old :=
    let before := match old with
      | some old => old.body
      | none => "-"
    Op.tell (tag ++ " save " ++ id.describe ++ " " ++ new.body ++ " <- " ++ before)
  removed id old := Op.tell (tag ++ " delete " ++ id.describe ++ " " ++ old.body)

/-- Refuses some changes of notes, once they are made. -/
def gate : Observer Note where
  saved _ new _ := do
    if new.title = "bad" then throw (.reported .invalidArgument "rejected")
  removed _ old := do
    if old.title = "pinned" then throw (.reported .invalidArgument "pinned")

def build (spaces : KeeperSpaces) : Building Keeper := do
  let groups ← NumberedTable.build spaces.groups spaces.groupNumbers Group.codec
  let (groupRows, byAdmin) ←
    MultiKeyIndex.attach groups.table spaces.byAdmin fun g => .ok [g.admin]
  let (groupRows, byAlias) ←
    UniqueIndex.attach groupRows spaces.byAlias fun g => .ok (Bytes.ofText g.nickname)
  let members ← NaturalTable.build spaces.members Member.codec memberKey
  let (memberRows, byGroup) ←
    NumberIndex.attach members.table spaces.byGroup fun m => .ok [m.groupId]
  let (memberRows, byMember) ←
    MultiKeyIndex.attach memberRows spaces.byMember fun m => .ok [m.member]
  let notes ← Table.build spaces.notes Note.codec
  let tagged ← Table.build spaces.tagged Tagged.codec
  let (tagged, byTag) ← MultiKeyIndex.attach tagged spaces.byTag tagKeys
  let (tagged, bySlug) ← UniqueIndex.attach tagged spaces.bySlug slugKey
  let (tagged, byNum) ← NumberIndex.attach tagged spaces.byNum numKeys
  let spare ← Sequence.build spaces.spare
  return {
    schema := (← get).close
    groups := { groups with table := groupRows }
    byAdmin, byAlias
    members := { members with table := memberRows }
    byGroup, byMember
    notes := ((notes.observe (logger "first")).observe gate).observe (logger "second")
    tagged, byTag, bySlug, byNum, spare }

def ofSpaces (spaces : KeeperSpaces) : Except Error Keeper :=
  ((build spaces).run.run Schema.empty).1

def targets (k : Keeper) : List (String × Target) := [
    ("groups", k.groups.table.target), ("by_admin", k.byAdmin.target),
    ("by_alias", k.byAlias.target), ("members", k.members.table.target),
    ("by_group", k.byGroup.index.target), ("by_member", k.byMember.target),
    ("notes", k.notes.target), ("tagged", k.tagged.target), ("by_tag", k.byTag.target),
    ("by_slug", k.bySlug.target), ("by_num", k.byNum.index.target)]

def registerAll (k : Keeper) (r : Router) : Except Error Router :=
  k.targets.foldlM (fun r (name, target) => r.register ("/" ++ name) target) r

end Keeper

end IndexedTables
