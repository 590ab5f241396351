import EseReader.Error

/-!
# `EseReader/Column.lean` — the types of columns

Eighteen types, known in files by a code. A type has either one width for all its values or, for
text and bytes of any length, none.
-/

set_option autoImplicit false

namespace EseReader

inductive ColumnType where
  | null
  | boolean
  | uint8
  | int16
  | int32
  | currency
  | float32
  | float64
  | dateTime
  | binary
  | text
  | largeBinary
  | largeText
  | superLarge
  | uint32
  | int64
  | guid
  | uint16
  deriving DecidableEq, Repr

namespace ColumnType

/-- All types in the order of their codes. -/
def all : List ColumnType :=
  [null, boolean, uint8, int16, int32, currency, float32, float64, dateTime, binary, text,
   largeBinary, largeText, superLarge, uint32, int64, guid, uint16]

def ofCode (code : UInt32) : Except Error ColumnType :=
  match all[code.toNat]? with
  | some type => .ok type
  | none => .error (.columnType code)

/-- The place of a type in `all`. -/
def code (type : ColumnType) : UInt32 := UInt32.ofNat (all.idxOf type)

/-- The number of bytes of every value of this type; `none` if they differ in length. -/
def fixedSize? : ColumnType → Option Nat
  | null => some 0
  | boolean | uint8 => some 1
  | int16 | uint16 => some 2
  | int32 | uint32 | float32 => some 4
  | currency | float64 | dateTime | int64 => some 8
  | guid => some 16
  | binary | text | largeBinary | largeText | superLarge => none

def isText : ColumnType → Bool
  | text | largeText => true
  | _ => false

def isBinary : ColumnType → Bool
  | binary | largeBinary | superLarge => true
  | _ => false

def name : ColumnType → String
  | null => "null"
  | boolean => "boolean"
  | uint8 => "uint8"
  | int16 => "int16"
  | int32 => "int32"
  | currency => "currency"
  | float32 => "float32"
  | float64 => "float64"
  | dateTime => "datetime"
  | binary => "binary"
  | text => "text"
  | largeBinary => "large binary"
  | largeText => "large text"
  | superLarge => "super large"
  | uint32 => "uint32"
  | int64 => "int64"
  | guid => "guid"
  | uint16 => "uint16"

end ColumnType

end EseReader
