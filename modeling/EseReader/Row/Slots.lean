import EseReader.Format
import EseReader.Row.Tagged
import EseReader.Row.Variable
import EseReader.Schema

/-!
# `EseReader/Row/Slots.lean` — a row read against a schema

Reading a row answers one question for each column of the schema: is there a value, and where. The
identifier of the column says which part of the row to ask. A row that is older than a column does
not store it, so **an absent column is the normal case** and not an error.

The tagged part is looked at only if the schema has a tagged column at all.
-/

set_option autoImplicit false

namespace EseReader

namespace RecordSchema

/-- The columns of a table that uses a template are numbered from the first tagged identifier on. -/
def checkTemplate (schema : RecordSchema) : Except Error Unit :=
  match schema.template, schema.own with
  | _ :: _, first :: _ =>
    if first.identifier = 256 then .ok ()
    else .error (.unsupported (.ownColumnStart first.identifier))
  | _, _ => .ok ()

/-- Whether rows can be read against a schema: every column must be one, and of a known type. -/
def check (schema : RecordSchema) : Except Error Unit := do
  schema.columns.forM fun column => (column.columnType).map fun _ => ()
  schema.checkTemplate

end RecordSchema

namespace Row

/-- The tagged values in `region`, the part of a row from `offset` on. -/
def readTagged (region : Bytes) (offset rowLength : Nat) (format : Format) :
    Except Error (List TaggedValue) :=
  if format.linearTagged then TaggedValue.readLinear offset rowLength region
  else TaggedValue.readIndexed region offset rowLength format.extendedHeader

/-- The value of a fixed column that stands at `offset`. -/
def fixedSlot (row : Bytes) (column : SchemaEntry) (offset : Nat) : Except Error StoredValue :=
  let width := column.fixedWidth
  let available := row.length
  if offset + width ≤ available then .ok ⟨row.field offset width, none⟩
  else .error (.truncatedRow column.identifier.toNat offset width available)

/-- The value of one column; `offset` is its place if it is a fixed one. -/
def slot (row : Bytes) (header : RowHeader) (region : VariableRegion) (tagged : List TaggedValue)
    (column : SchemaEntry) (offset : Nat) : Except Error (Option StoredValue) :=
  let identifier := column.identifier.toNat
  if identifier ≤ 127 then
    if header.lastFixed.toNat < identifier then .ok none
    else (fixedSlot row column offset).map some
  else if identifier ≤ 255 then
    .ok ((region.spans[identifier - 128]?.join).map fun span => ⟨span.cut row, none⟩)
  else
    .ok ((tagged.find? fun value => value.column.toNat == identifier).map (·.value))

/-- One slot for each column of the schema, in its order. -/
def slots (row : Bytes) (schema : RecordSchema) (format : Format) :
    Except Error (List (Option StoredValue)) := do
  let header ← RowHeader.ofRow row
  schema.check
  let region ← VariableRegion.ofRow row header
  let tagged ←
    if schema.hasTagged then readTagged (row.drop region.stop) region.stop row.length format
    else pure []
  schema.places.mapM fun (column, offset) => slot row header region tagged column offset

end Row

end EseReader
