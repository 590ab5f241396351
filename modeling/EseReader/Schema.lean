import EseReader.Bytes
import EseReader.Column

/-!
# `EseReader/Schema.lean` — what the catalog says about tables and columns

The catalog describes tables, their columns, indexes and so on, all in entries of one shape, a
`SchemaEntry`. The type code of a column is kept as it is stored and looked at only when a row is
read, so that one strange column does not hide a whole table.

The identifier of a column decides where its values stand in a row: up to 127 at a **fixed** place,
up to 255 in the **variable** part, and above that among the **tagged** values.

A `RecordSchema` is the list of columns that a row is read against. The columns of a template come
before the columns of the table that uses it.
-/

set_option autoImplicit false

namespace EseReader

/-- What a catalog entry describes. -/
inductive EntryKind where
  | table (page : PageNumber)
  | column (type codepage : UInt32)
  | index (page : PageNumber) (locale : UInt32)
  | longValue (page : PageNumber)
  | callback
  deriving DecidableEq, Repr

namespace EntryKind

/-- The kind with code `code`. The two numbers mean different things for different kinds. -/
def ofCatalog (code : UInt16) (pageOrType codepageOrLocale : UInt32) : Except Error EntryKind :=
  if code = 1 then .ok (table pageOrType)
  else if code = 2 then .ok (column pageOrType codepageOrLocale)
  else if code = 3 then .ok (index pageOrType codepageOrLocale)
  else if code = 4 then .ok (longValue pageOrType)
  else if code = 5 then .ok callback
  else .error (.unsupported (.catalogType code))

def code : EntryKind → UInt16
  | table _ => 1
  | column .. => 2
  | index .. => 3
  | longValue _ => 4
  | callback => 5

/-- The first of the two numbers that the catalog stores for a kind. -/
def pageOrType : EntryKind → UInt32
  | table page | index page _ | longValue page => page
  | column type _ => type
  | callback => 0

/-- The page at which the pages of this kind of object start. -/
def page? : EntryKind → Option PageNumber
  | table page | index page _ | longValue page => some page
  | column .. | callback => none

end EntryKind

structure SchemaEntry where
  identifier : UInt32
  /-- The identifier of the table the entry belongs to. -/
  owner : UInt32
  kind : EntryKind
  size : UInt32
  flags : UInt32
  name : String
  template : Option String
  default : Option Bytes
  deriving DecidableEq, Repr

namespace SchemaEntry

/-- A plain column, as a program writes it down that knows its tables. -/
def plainColumn (identifier : UInt32) (type : ColumnType) (name : String) : SchemaEntry where
  identifier := identifier
  owner := 0
  kind := .column type.code 0
  size := 0
  flags := 0
  name := name
  template := none
  default := none

def isColumn (entry : SchemaEntry) : Bool :=
  match entry.kind with
  | .column .. => true
  | _ => false

def columnType (entry : SchemaEntry) : Except Error ColumnType :=
  match entry.kind with
  | .column type _ => ColumnType.ofCode type
  | _ => .error (.request (.notAColumn entry.name))

/-- The codepage of a column; 0 for the default one, and for everything else. -/
def codepage (entry : SchemaEntry) : UInt32 :=
  match entry.kind with
  | .column _ codepage => codepage
  | _ => 0

def isFixed (entry : SchemaEntry) : Bool := decide (entry.identifier ≤ 127)

def isTagged (entry : SchemaEntry) : Bool := decide (256 ≤ entry.identifier)

def isMultiValued (entry : SchemaEntry) : Bool := entry.flags &&& 0x400 != 0

def isTemplated (entry : SchemaEntry) : Bool := entry.flags &&& 0x10000 != 0

/-- The number of bytes a fixed column takes in a row: its size, or the width of its type if the
catalog gives no size. -/
def fixedWidth (entry : SchemaEntry) : Nat :=
  if entry.size ≠ 0 then entry.size.toNat
  else match entry.columnType with
    | .ok type => type.fixedSize?.getD 0
    | .error _ => 0

end SchemaEntry

/-- The columns a row is read against. -/
structure RecordSchema where
  template : List SchemaEntry
  own : List SchemaEntry
  deriving DecidableEq, Repr

namespace RecordSchema

def columns (schema : RecordSchema) : List SchemaEntry := schema.template ++ schema.own

def size (schema : RecordSchema) : Nat := schema.columns.length

/-- Each column with the place in the row at which the next fixed column stands, counted from
`offset` on. -/
def placesFrom (offset : Nat) : List SchemaEntry → List (SchemaEntry × Nat)
  | [] => []
  | column :: columns =>
    (column, offset) ::
      placesFrom (if column.isFixed then offset + column.fixedWidth else offset) columns

/-- The columns with their places. The fixed columns follow the row header without gaps, in the
order of the schema. -/
def places (schema : RecordSchema) : List (SchemaEntry × Nat) := placesFrom 4 schema.columns

/-- The place of the column at `index` in a row, if it is a fixed one. -/
def fixedOffset? (schema : RecordSchema) (index : Nat) : Option Nat :=
  match schema.places[index]? with
  | some (column, offset) => if column.isFixed then some offset else none
  | none => none

def hasTagged (schema : RecordSchema) : Bool := schema.columns.any (·.isTagged)

def column? (schema : RecordSchema) (index : Nat) : Option SchemaEntry := schema.columns[index]?

/-- The position of the first column of that name. -/
def position? (schema : RecordSchema) (name : String) : Option Nat :=
  schema.columns.findIdx? (·.name == name)

end RecordSchema

end EseReader
