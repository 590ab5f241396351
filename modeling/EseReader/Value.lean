import EseReader.Column
import EseReader.Text.Codepage

/-!
# `EseReader/Value.lean` — the values of columns

How the bytes of a column become a value. A type with a fixed width wants exactly that many bytes;
text depends on the codepage of the column; everything else is handed on as it is.

Floating-point numbers are carried by their bits, since nothing here calculates with them.
-/

set_option autoImplicit false

namespace EseReader

/-! ## Times and identifiers -/

/-- A point in time, as the number of 100-nanosecond ticks since the beginning of 1601. -/
structure FileTime where
  ticks : UInt64
  deriving DecidableEq, Repr

namespace FileTime

/-- The beginning of 1970. -/
def unixEpoch : Nat := 116444736000000000

def ticksPerSecond : Nat := 10000000

/-- Whole seconds since 1970, rounded down; negative for earlier times. -/
def unixSeconds (time : FileTime) : Int :=
  Int.fdiv ((time.ticks.toNat : Int) - unixEpoch) ticksPerSecond

/-- Seconds and nanoseconds since 1970; earlier times have none. -/
def sinceUnixEpoch? (time : FileTime) : Option (Nat × Nat) :=
  if unixEpoch ≤ time.ticks.toNat then
    let ticks := time.ticks.toNat - unixEpoch
    some (ticks / ticksPerSecond, ticks % ticksPerSecond * 100)
  else none

end FileTime

/-- A globally unique identifier. -/
structure Guid where
  bytes : Bytes
  deriving DecidableEq, Repr

namespace Guid

/-- The usual text form. The first three groups are numbers stored with the low byte first, the
rest stands as it is stored. -/
def render (guid : Guid) : String :=
  let number (offset width : Nat) : List Char :=
    Hex.padded (2 * width) (littleEndian (guid.bytes.field offset width))
  let plain (offset width : Nat) : List Char := (guid.bytes.field offset width).flatMap Hex.ofByte
  let groups := [number 0 4, number 4 2, number 6 2, plain 8 2, plain 10 6]
  String.ofList (List.intercalate ['-'] groups)

end Guid

/-! ## Values of fixed width -/

namespace Bytes

def toBool (data : Bytes) : Except Error Bool :=
  (data.exactly 1).map fun bytes => littleEndian bytes != 0

def toUInt8 (data : Bytes) : Except Error UInt8 :=
  (data.exactly 1).map fun bytes => UInt8.ofNat (littleEndian bytes)

def toUInt16 (data : Bytes) : Except Error UInt16 :=
  (data.exactly 2).map fun bytes => UInt16.ofNat (littleEndian bytes)

def toUInt32 (data : Bytes) : Except Error UInt32 :=
  (data.exactly 4).map fun bytes => UInt32.ofNat (littleEndian bytes)

def toUInt64 (data : Bytes) : Except Error UInt64 :=
  (data.exactly 8).map fun bytes => UInt64.ofNat (littleEndian bytes)

def toInt16 (data : Bytes) : Except Error Int16 := data.toUInt16.map (·.toInt16)

def toInt32 (data : Bytes) : Except Error Int32 := data.toUInt32.map (·.toInt32)

def toInt64 (data : Bytes) : Except Error Int64 := data.toUInt64.map (·.toInt64)

def toFileTime (data : Bytes) : Except Error FileTime := data.toUInt64.map FileTime.mk

def toGuid (data : Bytes) : Except Error Guid := (data.exactly 16).map Guid.mk

end Bytes

/-! ## Values of any type -/

inductive ColumnValue where
  | null
  | boolean (value : Bool)
  | uint8 (value : UInt8)
  | int16 (value : Int16)
  | uint16 (value : UInt16)
  | int32 (value : Int32)
  | uint32 (value : UInt32)
  | int64 (value : Int64)
  /-- In units of a ten-thousandth. -/
  | currency (value : Int64)
  | float32 (bits : UInt32)
  | float64 (bits : UInt64)
  | dateTime (value : FileTime)
  | guid (value : Guid)
  | binary (value : Bytes)
  | text (value : String)
  deriving DecidableEq

namespace ColumnValue

/-- The value of type `type` that `data` holds. -/
def decode (type : ColumnType) (data : Bytes) (codepage : UInt32) (pages : Codepages) :
    Except Error ColumnValue :=
  match type with
  | .null => .ok null
  | .boolean => data.toBool.map boolean
  | .uint8 => data.toUInt8.map uint8
  | .int16 => data.toInt16.map int16
  | .uint16 => data.toUInt16.map uint16
  | .int32 => data.toInt32.map int32
  | .uint32 => data.toUInt32.map uint32
  | .int64 => data.toInt64.map int64
  | .currency => data.toInt64.map currency
  | .float32 => data.toUInt32.map float32
  | .float64 => data.toUInt64.map float64
  | .dateTime => data.toFileTime.map dateTime
  | .guid => data.toGuid.map guid
  | .text | .largeText => (toText data codepage pages).map text
  | .binary | .largeBinary | .superLarge => .ok (binary data)

end ColumnValue

end EseReader
