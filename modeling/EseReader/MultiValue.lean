import EseReader.Bytes

/-!
# `EseReader/MultiValue.lean` — several values in one column

A multi-valued column holds a table of 16-bit offsets and behind it the values, one after the
other. The first offset is where the first value starts, which is where the table ends, so **half
of it is the number of values**. A value ends where the next one starts, the last one with the
data. The top bit of an offset means nothing here.
-/

set_option autoImplicit false

namespace EseReader

/-- The bits of the flags that a tagged value carries. -/
structure ValueFlags where
  bits : UInt8
  deriving DecidableEq, Repr

namespace ValueFlags

def has (flags : ValueFlags) (bit : UInt8) : Bool := flags.bits &&& bit != 0

def isCompressed (flags : ValueFlags) : Bool := flags.has 0x02

/-- The data is the identifier of a long value. -/
def isLongValue (flags : ValueFlags) : Bool := flags.has 0x04

def isMultiValue (flags : ValueFlags) : Bool := flags.has 0x08

/-- The values of a multi-value are themselves stored by offset. -/
def isIndirect (flags : ValueFlags) : Bool := flags.has 0x10

end ValueFlags

structure MultiValue where
  data : Bytes
  /-- Where each value starts, in order. -/
  starts : List Nat
  deriving DecidableEq, Repr

namespace MultiValue

/-- Reads `count` offsets from `table`, which starts at `position` of data of `available` bytes.
Each is checked against the one before. -/
def readStarts (available : Nat) : (count position : Nat) → (previous : Option Nat) →
    (table : Bytes) → Except Error (List Nat)
  | 0, _, _, _ => .ok []
  | count + 1, position, previous, low :: high :: table => do
    let start := littleEndian [low, high] % 0x8000
    match previous with
    | some earlier => if start < earlier then throw (.taggedOffsets earlier start)
    | none => pure ()
    if available < start then throw (.outOfBounds "multi-value entry" start 0 available)
    return start :: (← readStarts available count (position + 2) (some start) table)
  | _ + 1, position, _, _ => .error (.outOfBounds "multi-value offset table" position 2 available)

/-- Splits the data of a column with the given flags. -/
def parse (data : Bytes) (flags : ValueFlags) : Except Error MultiValue := do
  if !flags.isMultiValue then throw (.request (.notAMultiValue flags.bits))
  if flags.isLongValue || flags.isIndirect then
    throw (.unsupported (.multiValueFlags flags.bits))
  let first ← data.readU16 0 "multi-value offset table"
  let count := first.toNat % 0x8000 / 2
  if count = 0 then throw .emptyMultiValue
  return ⟨data, ← readStarts data.length count 0 none data⟩

def size (values : MultiValue) : Nat := values.starts.length

/-- The value at `index`. -/
def get? (values : MultiValue) (index : Nat) : Option Bytes :=
  values.starts[index]?.map fun start =>
    let stop := values.starts[index + 1]?.getD values.data.length
    values.data.field start (stop - start)

/-- The values between the given starts and the end of the data. -/
def cut (data : Bytes) : List Nat → List Bytes
  | [] => []
  | [start] => [data.drop start]
  | start :: stop :: starts => data.field start (stop - start) :: cut data (stop :: starts)

/-- All values in order. -/
def toList (values : MultiValue) : List Bytes := cut values.data values.starts

end MultiValue

end EseReader
