import EseReader.Catalog.Tables
import EseReader.LongValue
import EseReader.MultiValue
import EseReader.Record
import EseReader.Source.File
import EseReader.Source.Memory

/-!
# `EseReader/Database.lean` — a database and its tables

A database is opened from a file or from a set of pages, never from both. Opening reads the
catalog; everything else is read when somebody asks for it.

The records of a table come in key order. **A row that cannot be read is an item like any other**:
it does not end the reading, while a page that cannot be read does.
-/

set_option autoImplicit false

namespace EseReader

/-- How a database is to be opened. -/
structure OpenRequest where
  path : Option String := none
  pages : Option PageSource := none
  /-- The dialect, if the one that the file names is not to be believed. -/
  format : Option Format := none
  codepages : Codepages := {}
  verifyChecksums : Bool := false

structure Database where
  forest : Forest
  /-- The file header, if the database was opened from a file. -/
  header : Option FileHeader
  codepages : Codepages
  tables : List TableDefinition

namespace Database

/-- Where the pages of a database come from, with what its file says about them. -/
structure Origin where
  source : PageSource
  header : Option FileHeader
  format : Format

/-- Opens the file that `read` finds at `path`. -/
def originOfFile (read : String → Option Bytes) (path : String) (verifyChecksums : Bool) :
    Except Error Origin := do
  let file ← DatabaseFile.ofContent path (read path)
  if verifyChecksums then file.header.verifyChecksum file.headerBlock
  return ⟨file.source, some file.header, file.header.format⟩

/-- Pages without a file are taken to be of the current dialect. -/
def originOfPages (source : PageSource) : Origin :=
  ⟨source, none, .ofVersions Format.currentVersion 0x14 (UInt32.ofNat source.pageSize)⟩

def origin (read : String → Option Bytes) (request : OpenRequest) : Except Error Origin :=
  match request.path, request.pages with
  | some path, none => originOfFile read path request.verifyChecksums
  | none, some source => .ok (originOfPages source)
  | some _, some _ => .error (.request .twoSources)
  | none, none => .error (.request .noSource)

/-- Opens a database; `read` gives the content of a file by its path. -/
def ofRequest (read : String → Option Bytes) (request : OpenRequest) : Except Error Database := do
  let origin ← origin read request
  let format := request.format.getD origin.format
  let source :=
    if request.verifyChecksums then origin.source.verified format else origin.source
  let forest : Forest := ⟨source, format⟩
  return ⟨forest, origin.header, request.codepages, ← Catalog.load forest⟩

/-- The first table of that name. -/
def table? (database : Database) (name : String) : Option TableDefinition :=
  database.tables.find? (·.name == name)

/-- A record and where it was found. -/
structure Found where
  key : Key
  location : Location
  record : Record

/-- The record that a value of a table's tree holds. -/
def recordOf (database : Database) (table : TableDefinition) (value : LeafValue) :
    Except Error Found :=
  (Record.ofRow value.data table.schema database.forest.format database.codepages).map fun record =>
    ⟨value.key, value.location, record⟩

/-- The records of a table in key order, at most `limit` of them. -/
def records (database : Database) (table : TableDefinition) (limit : Nat) :
    Except Error (List (Except Error Found)) := do
  let cursor ← (database.forest.leaves table.root).value
  let items := (database.forest.items limit cursor).value
  return items.map (· >>= database.recordOf table)

/-- The record under `key`. -/
def find (database : Database) (table : TableDefinition) (key : Key) :
    Except Error (Option Found) := do
  match ← (database.forest.find table.root key .forward).value with
  | none => return none
  | some value => (database.recordOf table value).map some

/-- The long value that a column of a record refers to; `none` if the column is absent or the long
value is. -/
def longValue (database : Database) (table : TableDefinition) (record : Record) (index : Nat) :
    Except Error (Option LongValue) := do
  match ← record.slot index with
  | none => return none
  | some value =>
    if !value.isLongValue then throw (.request (.notALongValue index))
    match table.longValueRoot? with
    | none => throw (.request (.noLongValueTree table.name))
    | some root =>
      let key ← LongValueKey.ofStored value.data
      (database.forest.longValue root key).value

end Database

namespace Record

/-- The values of a multi-valued column; `none` if it is absent. -/
def multiValue (record : Record) (index : Nat) : Except Error (Option MultiValue) := do
  match ← record.slot index with
  | none => return none
  | some value =>
    match value.flags with
    | none => throw (.request (.noValueFlags index))
    | some flags => (MultiValue.parse value.data flags).map some

end Record

end EseReader
