import EseReader.Catalog.Entry
import EseReader.Tree.Leaves

/-!
# `EseReader/Catalog/Tables.lean` — the tables of a database

The entries of the catalog come in key order, and each but a table names the object it belongs to.
They are grouped under their tables in one pass: an entry goes to **the latest table so far** with
the identifier it names, and nowhere if there is none. Only after that are templates looked up, by
name, among all tables.
-/

set_option autoImplicit false

namespace EseReader

/-- A table with everything the catalog says about it. -/
structure TableDefinition where
  entry : SchemaEntry
  columns : List SchemaEntry
  indexes : List SchemaEntry
  longValue : Option SchemaEntry
  callback : Option SchemaEntry
  templateColumns : List SchemaEntry
  deriving DecidableEq, Repr

namespace TableDefinition

/-- A table of which only its own entry is known. -/
def ofEntry (entry : SchemaEntry) : TableDefinition := ⟨entry, [], [], none, none, []⟩

def name (table : TableDefinition) : String := table.entry.name

def identifier (table : TableDefinition) : UInt32 := table.entry.identifier

/-- The root page of the table's records. -/
def root (table : TableDefinition) : PageNumber := table.entry.kind.pageOrType

/-- The root page of the table's long values, if it has any. -/
def longValueRoot? (table : TableDefinition) : Option PageNumber :=
  table.longValue.bind (·.kind.page?)

def template (table : TableDefinition) : Option String := table.entry.template

/-- What the rows of the table are read against. -/
def schema (table : TableDefinition) : RecordSchema := ⟨table.templateColumns, table.columns⟩

/-- The first column of that name, those of the template before the others. -/
def column? (table : TableDefinition) (name : String) : Option SchemaEntry :=
  table.schema.columns.find? (·.name == name)

/-- Adds an entry that belongs to the table. Of long-value trees and callbacks the last one
counts. -/
def add (table : TableDefinition) (entry : SchemaEntry) : TableDefinition :=
  match entry.kind with
  | .table _ => table
  | .column .. => { table with columns := table.columns ++ [entry] }
  | .index .. => { table with indexes := table.indexes ++ [entry] }
  | .longValue _ => { table with longValue := some entry }
  | .callback => { table with callback := some entry }

end TableDefinition

namespace Catalog

/-- Adds an entry to the first of `tables` that it belongs to. -/
def addTo (entry : SchemaEntry) : List TableDefinition → List TableDefinition
  | [] => []
  | table :: tables =>
    if table.identifier = entry.owner then table.add entry :: tables
    else table :: addTo entry tables

/-- Takes the next entry of the catalog into the tables found so far, the latest first. -/
def take (tables : List TableDefinition) (entry : SchemaEntry) : List TableDefinition :=
  match entry.kind with
  | .table _ => .ofEntry entry :: tables
  | _ => addTo entry tables

/-- The tables that the entries of a catalog describe, without the columns of their templates. -/
def group (entries : List SchemaEntry) : List TableDefinition := (entries.foldl take []).reverse

/-- Gives a table the columns of its template: the own columns of the first table of that name. -/
def resolveTemplate (tables : List TableDefinition) (table : TableDefinition) : TableDefinition :=
  match table.template with
  | none => table
  | some name =>
    match tables.find? (·.name == name) with
    | none => table
    | some other => { table with templateColumns := other.columns }

/-- The tables that the entries of a catalog describe. -/
def tablesOf (entries : List SchemaEntry) : List TableDefinition :=
  let tables := group entries
  tables.map (resolveTemplate tables)

/-- The root page of the catalog, in every database. -/
def rootPage : PageNumber := 4

/-- Reads the catalog of a database. Rows that do not describe an entry are left out; a page that
cannot be read makes the whole catalog unreadable. -/
def load (forest : Forest) : Except Error (List TableDefinition) := do
  let cursor ← (forest.leaves rootPage).value
  let values ← (forest.values cursor).value
  return tablesOf (values.filterMap fun value => (entryOfRow value.data forest.format).toOption)

end Catalog

end EseReader
