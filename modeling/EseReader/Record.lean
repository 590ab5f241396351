import EseReader.Compression
import EseReader.Row.Slots
import EseReader.Value

/-!
# `EseReader/Record.lean` — a row as a record with typed columns

A record is a row with the slots that its schema found in it. Columns are asked for by position.
Three things can stand between a slot and a value: the column may be absent; its bytes may be the
identifier of a long value, which this level does not follow; and they may be compressed, which
only text and bytes can be.

A `Reading` is a way to read a column: a conversion together with the name that errors give it. The
accessors `get?` and `get` work for any reading; `text?` and `binary?` stand apart because they
decompress.
-/

set_option autoImplicit false

namespace EseReader

structure Record where
  row : Bytes
  schema : RecordSchema
  codepages : Codepages
  slots : List (Option StoredValue)
  deriving DecidableEq, Repr

/-- A kind of value of fixed width that a column can be read as. -/
structure Reading (α : Type) where
  name : String
  convert : Bytes → Except Error α

namespace Reading

def bool : Reading Bool := ⟨"bool", Bytes.toBool⟩
def uint8 : Reading UInt8 := ⟨"uint8", Bytes.toUInt8⟩
def int16 : Reading Int16 := ⟨"int16", Bytes.toInt16⟩
def uint16 : Reading UInt16 := ⟨"uint16", Bytes.toUInt16⟩
def int32 : Reading Int32 := ⟨"int32", Bytes.toInt32⟩
def uint32 : Reading UInt32 := ⟨"uint32", Bytes.toUInt32⟩
def int64 : Reading Int64 := ⟨"int64", Bytes.toInt64⟩
def currency : Reading Int64 := ⟨"currency", Bytes.toInt64⟩
def float32 : Reading UInt32 := ⟨"float32", Bytes.toUInt32⟩
def float64 : Reading UInt64 := ⟨"float64", Bytes.toUInt64⟩
def dateTime : Reading FileTime := ⟨"datetime", Bytes.toFileTime⟩
def guid : Reading Guid := ⟨"guid", Bytes.toGuid⟩

end Reading

namespace Record

/-- Reads `row` against `schema`. -/
def ofRow (row : Bytes) (schema : RecordSchema) (format : Format) (codepages : Codepages) :
    Except Error Record :=
  (Row.slots row schema format).map fun slots => ⟨row, schema, codepages, slots⟩

def size (record : Record) : Nat := record.slots.length

def presentCount (record : Record) : Nat := record.slots.countP (·.isSome)

/-- What the row stores for a column; `none` also behind the last column. -/
def stored? (record : Record) (index : Nat) : Option StoredValue := record.slots[index]?.join

def isPresent (record : Record) (index : Nat) : Bool := (record.stored? index).isSome

def isLongValue (record : Record) (index : Nat) : Bool :=
  (record.stored? index).any (·.isLongValue)

def isMultiValue (record : Record) (index : Nat) : Bool :=
  (record.stored? index).any (·.isMultiValue)

def columnIndex? (record : Record) (name : String) : Option Nat := record.schema.position? name

def column (record : Record) (index : Nat) : Except Error SchemaEntry :=
  match record.schema.column? index with
  | some column => .ok column
  | none => .error (.request (.noSuchColumn index record.schema.size))

/-- What the row stores for a column of the schema. -/
def slot (record : Record) (index : Nat) : Except Error (Option StoredValue) :=
  (record.column index).map fun _ => record.stored? index

/-- What the row stores for a column, unless it only stores where to find it. -/
def localSlot (record : Record) (index : Nat) : Except Error (Option StoredValue) := do
  let slot ← record.slot index
  if slot.any (·.isLongValue) then throw (.unsupported (.longValueColumn index))
  return slot

/-- The bytes of a column whose value is neither text nor bytes. -/
def inline (record : Record) (index : Nat) : Except Error (Option Bytes) := do
  let slot ← record.localSlot index
  if slot.any (·.isCompressed) then throw (.unsupported (.compressedColumn index))
  return slot.map (·.data)

/-- The column at `index` in the way of `reading`; `none` if the row does not store it. -/
def get? {α : Type} (record : Record) (reading : Reading α) (index : Nat) :
    Except Error (Option α) := do
  match ← record.inline index with
  | none => return none
  | some data =>
    match reading.convert data with
    | .ok value => return some value
    | .error cause => throw (.inColumn index reading.name cause)

/-- The text of a column. -/
def text? (record : Record) (index : Nat) : Except Error (Option String) := do
  let column ← record.column index
  match ← record.localSlot index with
  | none => return none
  | some value =>
    if value.isCompressed then (Compression.decompressText value.data).map some
    else (toText value.data column.codepage record.codepages).map some

/-- The bytes of a column. -/
def binary? (record : Record) (index : Nat) : Except Error (Option Bytes) := do
  match ← record.localSlot index with
  | none => return none
  | some value =>
    if value.isCompressed then (Compression.decompress value.data).map some
    else return some value.data

/-- The name of a column, as far as there is such a column. -/
def columnName (record : Record) (index : Nat) : String :=
  match record.schema.column? index with
  | some column => column.name
  | none => "?"

/-- Makes an absent column an error. -/
def present {α : Type} (record : Record) (index : Nat) (value? : Except Error (Option α)) :
    Except Error α := do
  match ← value? with
  | some value => return value
  | none => throw (.request (.absentColumn index (record.columnName index)))

def get {α : Type} (record : Record) (reading : Reading α) (index : Nat) : Except Error α :=
  record.present index (record.get? reading index)

def text (record : Record) (index : Nat) : Except Error String :=
  record.present index (record.text? index)

def binary (record : Record) (index : Nat) : Except Error Bytes :=
  record.present index (record.binary? index)

/-- The value of a column, as the type of the column has it. -/
def value (record : Record) (index : Nat) : Except Error ColumnValue := do
  let column ← record.column index
  let type ← column.columnType
  if type.isText then
    return ((← record.text? index).map .text).getD .null
  else if type.isBinary then
    return ((← record.binary? index).map .binary).getD .null
  else
    match ← record.inline index with
    | none => return .null
    | some data => ColumnValue.decode type data column.codepage record.codepages

end Record

end EseReader
