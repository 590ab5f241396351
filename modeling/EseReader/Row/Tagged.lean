import EseReader.MultiValue

/-!
# `EseReader/Row/Tagged.lean` — the tagged columns of a row

Tagged values come with the identifier of their column, in one of two layouts.

* **Indexed:** a table of identifiers and offsets stands in front of the values. The first offset
  is where the first value starts and so gives the size of the table. An offset has 14 bits, and the
  next bit says whether the value starts with a byte of flags; on pages with the extended header it
  has 15 bits, and every value that is not empty starts with flags.
* **Linear:** each value stands behind its identifier and its size. The top bit of the size says
  whether the value starts with a byte of flags.

Positions in errors are positions in the row, of which these values are the last part.
-/

set_option autoImplicit false

namespace EseReader

/-- A value in a row: its bytes, and the flags that a tagged value may carry. -/
structure StoredValue where
  data : Bytes
  flags : Option ValueFlags
  deriving DecidableEq, Repr

namespace StoredValue

/-- A value whose bytes start with its flags if `flagged`. Without a byte there are no flags. -/
def ofSpan (flagged : Bool) (span : Bytes) : StoredValue :=
  match flagged, span with
  | true, flags :: data => ⟨data, some ⟨flags⟩⟩
  | _, span => ⟨span, none⟩

def isCompressed (value : StoredValue) : Bool := value.flags.any (·.isCompressed)

def isLongValue (value : StoredValue) : Bool := value.flags.any (·.isLongValue)

def isMultiValue (value : StoredValue) : Bool := value.flags.any (·.isMultiValue)

end StoredValue

structure TaggedValue where
  column : UInt16
  value : StoredValue
  deriving DecidableEq, Repr

namespace TaggedValue

/-! ## The indexed layout -/

/-- A line of the table: a column, and an offset with a bit or two above it. -/
structure IndexLine where
  column : UInt16
  word : UInt16
  deriving DecidableEq, Repr

/-- The first `count` lines of a table. -/
def readIndex : (count : Nat) → Bytes → List IndexLine
  | count + 1, a :: b :: c :: d :: rest =>
    ⟨UInt16.ofNat (littleEndian [a, b]), UInt16.ofNat (littleEndian [c, d])⟩ :: readIndex count rest
  | _, _ => []

/-- The bits above an offset count in steps of this. -/
def offsetLimit (extended : Bool) : Nat := if extended then 0x8000 else 0x4000

namespace IndexLine

def offset (line : IndexLine) (extended : Bool) : Nat := line.word.toNat % offsetLimit extended

/-- Whether the value of a line starts with flags, if it is not empty. -/
def isFlagged (line : IndexLine) (extended : Bool) : Bool := extended || line.word &&& 0x4000 != 0

end IndexLine

/-- Offsets must not go back. -/
def checkOrder (extended : Bool) : List IndexLine → Except Error Unit
  | first :: second :: lines =>
    if second.offset extended < first.offset extended then
      .error (.taggedOffsets first.word.toNat second.word.toNat)
    else checkOrder extended (second :: lines)
  | _ => .ok ()

/-- The values that the lines locate. The last one runs to the end of the region, so it is the one
whose start may lie behind its end. -/
def ofLines (region : Bytes) (offset rowLength : Nat) (extended : Bool) :
    List IndexLine → Except Error (List TaggedValue)
  | [] => .ok []
  | line :: lines =>
    let available := region.length
    let start := line.offset extended
    let stop := match lines with
      | next :: _ => next.offset extended
      | [] => available
    if available < stop ∨ stop < start then
      .error (.truncatedRow line.column.toNat (offset + start) (stop - start) rowLength)
    else do
      let value := StoredValue.ofSpan (line.isFlagged extended) (region.field start (stop - start))
      return ⟨line.column, value⟩ :: (← ofLines region offset rowLength extended lines)

/-- The values of a region in the indexed layout. The region starts at `offset` of a row of
`rowLength` bytes. -/
def readIndexed (region : Bytes) (offset rowLength : Nat) (extended : Bool) :
    Except Error (List TaggedValue) :=
  let available := region.length
  if available = 0 then .ok []
  else if available < 4 then .error (.truncatedRow 256 offset 4 rowLength)
  else
    let first : IndexLine := ⟨region.u16At 0, region.u16At 2⟩
    let count := first.offset extended / 4
    if count = 0 then .error (.taggedOffsets 0 first.word.toNat)
    else if available < 4 * count then
      .error (.truncatedRow first.column.toNat offset (4 * count) rowLength)
    else do
      let lines := readIndex count region
      checkOrder extended lines
      ofLines region offset rowLength extended lines

/-! ## The linear layout -/

/-- The size that the second word of a linear value gives. With flags, one bit of the word besides
the top one is not part of the size. -/
def linearSize (word : UInt16) : Nat :=
  if 0x8000 ≤ word.toNat then (word &&& 0x5fff).toNat else word.toNat

/-- The values of a region in the linear layout. -/
def readLinear (offset rowLength : Nat) (region : Bytes) : Except Error (List TaggedValue) :=
  match region with
  | [] => .ok []
  | a :: b :: c :: d :: rest =>
    let column := UInt16.ofNat (littleEndian [a, b])
    let word := UInt16.ofNat (littleEndian [c, d])
    let flagged := decide (0x8000 ≤ word.toNat)
    let size := linearSize word
    if rest.length < size ∨ (flagged ∧ size = 0) then
      .error (.truncatedRow column.toNat (offset + 4) size rowLength)
    else do
      let value := StoredValue.ofSpan flagged (rest.take size)
      return ⟨column, value⟩ :: (← readLinear (offset + 4 + size) rowLength (rest.drop size))
  | _ => .error (.truncatedRow 256 offset 4 rowLength)
termination_by region.length
decreasing_by simp only [List.length_cons, List.length_drop]; omega

end TaggedValue

end EseReader
