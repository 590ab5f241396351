import EseReader.Proofs.Bytes
import EseReader.Row.Slots

/-!
# `EseReader/Proofs/Row/Image.lean` — rows as they are written

The other direction of `EseReader/Row/Slots.lean`: a `RowImage` says what is stored for which
column, and `RowImage.bytes` lays it out for a schema and a format. What should then be read for a
column is `RowImage.slot`, which looks at the image only and knows of no offset.

Not every image fits a row. Ends and offsets are numbers of 14 to 16 bits, some sizes may not have
bit 13 set, and on pages with the extended header a tagged value without flags can only be an empty
one. `RowImage.Fits` collects these limits next to what is asked of the schema.
-/

set_option autoImplicit false

namespace EseReader

namespace StoredValue

/-- The bytes that a tagged value takes: its flags, if it has any, and the data. -/
def span (value : StoredValue) : Bytes :=
  match value.flags with
  | some flags => flags.bits :: value.data
  | none => value.data

/-- No byte of a span is lost, whether its first byte is taken as flags or not. -/
theorem span_ofSpan (flagged : Bool) (bytes : Bytes) : (ofSpan flagged bytes).span = bytes := by
  cases flagged with
  | false => rfl
  | true => cases bytes <;> rfl

theorem isSome_flags_ofSpan_iff {flagged : Bool} {bytes : Bytes} :
    (ofSpan flagged bytes).flags.isSome = true ↔ bytes ≠ [] ∧ flagged = true := by
  cases flagged with
  | false => exact iff_of_false Bool.false_ne_true fun h => Bool.false_ne_true h.2
  | true =>
    cases bytes with
    | nil => exact iff_of_false Bool.false_ne_true fun h => h.1 rfl
    | cons flags data => exact iff_of_true rfl ⟨List.cons_ne_nil flags data, rfl⟩

end StoredValue

namespace TaggedValue

/-! ## The indexed layout -/

def IndexLine.bytes (line : IndexLine) : Bytes := wordBytes line.column ++ wordBytes line.word

/-- The line of a value that starts at `offset`. With the extended header all values that are not
empty have flags, so no bit of the word says so. -/
def indexLine (extended : Bool) (offset : Nat) (value : TaggedValue) : IndexLine where
  column := value.column
  word := UInt16.ofNat
    (if value.value.flags.isSome && !extended then offset + 0x4000 else offset)

/-- The lines of values that stand one after the other from `offset` on. -/
def indexLines (extended : Bool) : (offset : Nat) → List TaggedValue → List IndexLine
  | _, [] => []
  | offset, value :: values =>
    value.indexLine extended offset ::
      indexLines extended (offset + value.value.span.length) values

def indexedBytes (extended : Bool) (values : List TaggedValue) : Bytes :=
  (indexLines extended (4 * values.length) values).flatMap IndexLine.bytes ++
    values.flatMap (·.value.span)

/-- Whether values that stand one after the other from `offset` on fit the lines of an index. -/
def FitIndex (extended : Bool) : (offset : Nat) → List TaggedValue → Prop
  | _, [] => True
  | offset, value :: values =>
    offset < offsetLimit extended ∧
      (extended = true → value.value.flags = none → value.value.data = []) ∧
      FitIndex extended (offset + value.value.span.length) values

instance decidableFitIndex (extended : Bool) :
    (offset : Nat) → (values : List TaggedValue) → Decidable (FitIndex extended offset values)
  | _, [] => isTrue trivial
  | offset, value :: values =>
    have : Decidable (FitIndex extended (offset + value.value.span.length) values) :=
      decidableFitIndex extended _ values
    inferInstanceAs (Decidable (_ ∧ _ ∧ _))

/-! ## The linear layout -/

def linearWord (value : StoredValue) : UInt16 :=
  UInt16.ofNat (if value.flags.isSome then value.span.length + 0x8000 else value.span.length)

def linearBytes (values : List TaggedValue) : Bytes :=
  values.flatMap fun value =>
    wordBytes value.column ++ wordBytes (linearWord value.value) ++ value.value.span

/-- Whether the size of a value fits the linear layout. With flags it may not have bit 13. -/
def FitsLinear (value : StoredValue) : Prop :=
  value.span.length < 0x8000 ∧
    (value.flags.isSome → value.span.length &&& 0x5fff = value.span.length)

instance (value : StoredValue) : Decidable (FitsLinear value) :=
  inferInstanceAs (Decidable (_ ∧ _))

/-! ## Either layout -/

def bytes (format : Format) (values : List TaggedValue) : Bytes :=
  if format.linearTagged then linearBytes values else indexedBytes format.extendedHeader values

/-- Whether values can be written in the layout of a format. -/
def Fit (format : Format) (values : List TaggedValue) : Prop :=
  if format.linearTagged then ∀ value ∈ values, FitsLinear value.value
  else FitIndex format.extendedHeader (4 * values.length) values

instance (format : Format) (values : List TaggedValue) : Decidable (Fit format values) :=
  inferInstanceAs (Decidable
    (if format.linearTagged then ∀ value ∈ values, FitsLinear value.value
      else FitIndex format.extendedHeader (4 * values.length) values))

end TaggedValue

namespace VariableRegion

/-- The words of columns with the given values: where each value ends, if the one before the first
ends at `previous`. -/
def endWords : (previous : Nat) → List (Option Bytes) → List UInt16
  | _, [] => []
  | previous, some data :: values =>
    UInt16.ofNat (previous + data.length) :: endWords (previous + data.length) values
  | previous, none :: values => UInt16.ofNat (previous + 0x8000) :: endWords previous values

/-- The values without gaps. -/
def payload (values : List (Option Bytes)) : Bytes := values.flatMap (·.getD [])

end VariableRegion

/-- What is stored in a row. -/
structure RowImage where
  /-- The highest fixed column that the row stores. -/
  lastFixed : UInt8
  /-- The values of the fixed columns by identifier. -/
  fixed : UInt32 → Bytes
  /-- The values of the columns from 128 on. -/
  variableValues : List (Option Bytes)
  tagged : List TaggedValue

namespace RowImage

/-- Whether a column is a fixed one and old enough to be stored. -/
def stores (image : RowImage) (column : SchemaEntry) : Bool :=
  column.isFixed && decide (column.identifier.toNat ≤ image.lastFixed.toNat)

/-- The fixed columns among `columns`, one after the other. -/
def fixedBytes (image : RowImage) (columns : List SchemaEntry) : Bytes :=
  (columns.filter image.stores).flatMap fun column => image.fixed column.identifier

/-- The header of a row whose fixed columns take `fixedLength` bytes. -/
def header (image : RowImage) (fixedLength : Nat) : Bytes :=
  image.lastFixed :: UInt8.ofNat (127 + image.variableValues.length) :: leBytes 2 (4 + fixedLength)

/-- The table and the values of the variable columns. -/
def variableBytes (image : RowImage) : Bytes :=
  (VariableRegion.endWords 0 image.variableValues).flatMap wordBytes ++
    VariableRegion.payload image.variableValues

def bytes (image : RowImage) (schema : RecordSchema) (format : Format) : Bytes :=
  let fixed := image.fixedBytes schema.columns
  image.header fixed.length ++ fixed ++ image.variableBytes ++
    TaggedValue.bytes format image.tagged

/-- What is stored for a column. -/
def slot (image : RowImage) (column : SchemaEntry) : Option StoredValue :=
  let identifier := column.identifier.toNat
  if identifier ≤ 127 then
    if identifier ≤ image.lastFixed.toNat then some ⟨image.fixed column.identifier, none⟩ else none
  else if identifier ≤ 255 then
    (image.variableValues[identifier - 128]?.join).map fun data => ⟨data, none⟩
  else
    (image.tagged.find? fun value => value.column.toNat == identifier).map (·.value)

/-- **An image that a row can hold**, for a schema whose fixed columns come in the order of their
identifiers. -/
structure Fits (image : RowImage) (schema : RecordSchema) (format : Format) : Prop where
  types : ∀ column ∈ schema.columns, column.columnType.isOk = true
  ownStart : schema.template ≠ [] → ∀ first ∈ schema.own.head?, first.identifier = 256
  inOrder : (schema.columns.filter (·.isFixed)).Pairwise fun column later =>
    column.identifier < later.identifier
  widths : ∀ column ∈ schema.columns, image.stores column →
    (image.fixed column.identifier).length = column.fixedWidth
  fixedLength : 4 + (image.fixedBytes schema.columns).length < 0x10000
  variableCount : image.variableValues.length ≤ 128
  variableLength : (VariableRegion.payload image.variableValues).length < 0x8000
  tagged : TaggedValue.Fit format image.tagged

end RowImage

end EseReader
