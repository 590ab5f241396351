import EseReader.Row.Slots
import EseReader.Text.Codepage
import EseReader.Value

/-!
# `EseReader/Catalog/Entry.lean` — the rows of the catalog

The catalog is itself a table, whose columns are known beforehand. Older files store fewer of its
fixed columns; whatever a row does not store counts as zero. A row that stores fewer than five or
more than twelve is not a catalog row as it is known here.
-/

set_option autoImplicit false

namespace EseReader

namespace Catalog

/-- The columns of the catalog table. -/
def schema : RecordSchema where
  template := []
  own :=
    [ .plainColumn 1 .int32 "ObjidTable",
      .plainColumn 2 .int16 "Type",
      .plainColumn 3 .int32 "Id",
      .plainColumn 4 .int32 "ColtypOrPgnoFDP",
      .plainColumn 5 .int32 "SpaceUsage",
      .plainColumn 6 .int32 "Flags",
      .plainColumn 7 .int32 "PagesOrLocale",
      .plainColumn 8 .boolean "RootFlag",
      .plainColumn 9 .int16 "RecordOffset",
      .plainColumn 10 .int32 "LCMapFlags",
      .plainColumn 11 .uint16 "KeyMost",
      .plainColumn 12 .int32 "LVChunkMax",
      .plainColumn 128 .text "Name",
      .plainColumn 129 .binary "Stats",
      .plainColumn 130 .text "TemplateTable",
      .plainColumn 131 .binary "DefaultValue" ]

/-- The data in a slot of a catalog row. -/
def dataAt (slots : List (Option StoredValue)) (index : Nat) : Option Bytes :=
  slots[index]?.join.map (·.data)

/-- The number in a slot of a catalog row; zero if the row does not store it. -/
def numberAt (slots : List (Option StoredValue)) (index : Nat) : Except Error UInt32 :=
  match dataAt slots index with
  | some data => data.toUInt32
  | none => .ok 0

/-- The type code in a catalog row. -/
def typeCode (slots : List (Option StoredValue)) : Except Error UInt16 :=
  match dataAt slots 1 with
  | some data => data.toUInt16
  | none => .ok 0

/-- The text in a slot of a catalog row. Names are always in Windows-1252. -/
def textAt (slots : List (Option StoredValue)) (index : Nat) : Option String :=
  (dataAt slots index).map fun data =>
    String.ofList (trimNuls (NarrowPage.windows1252.decode data))

/-- The entry that the slots of a catalog row describe. An empty name of a template is none. -/
def entryOfSlots (slots : List (Option StoredValue)) : Except Error SchemaEntry := do
  let kind ← EntryKind.ofCatalog (← typeCode slots) (← numberAt slots 3) (← numberAt slots 6)
  return {
    identifier := ← numberAt slots 2
    owner := ← numberAt slots 0
    kind := kind
    size := ← numberAt slots 4
    flags := ← numberAt slots 5
    name := (textAt slots 12).getD ""
    template := (textAt slots 14).filter (!·.isEmpty)
    default := dataAt slots 15 }

/-- The entry that a row of the catalog describes. -/
def entryOfRow (row : Bytes) (format : Format) : Except Error SchemaEntry := do
  let header ← RowHeader.ofRow row
  if header.lastFixed < 5 ∨ 12 < header.lastFixed then
    throw (.unsupported (.catalogFixedColumns header.lastFixed))
  entryOfSlots (← Row.slots row schema format)

end Catalog

end EseReader
