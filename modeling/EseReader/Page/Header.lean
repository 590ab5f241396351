import EseReader.Bytes

/-!
# `EseReader/Page/Header.lean` — the header of a page

Every page begins with forty bytes that link it to its neighbours and say what it holds. Pages with
the extended header have a second block of forty bytes behind it. Both are read field by field from
bytes that are known to be long enough.

| offset | bytes | field |
|---|---|---|
| 0 | 4 | checksum |
| 4 | 4 | page number |
| 8 | 8 | time of modification |
| 16, 20 | 4, 4 | previous and next page |
| 24 | 4 | object the page belongs to |
| 28, 30, 32 | 2, 2, 2 | free space: bytes, uncommitted bytes, offset |
| 34 | 2 | number of tags |
| 36 | 4 | flags |
-/

set_option autoImplicit false

namespace EseReader

/-- What a page is for, one bit each. -/
structure PageFlags where
  bits : UInt32
  deriving DecidableEq, Repr

namespace PageFlags

def has (flags : PageFlags) (bit : UInt32) : Bool := flags.bits &&& bit != 0

def isRoot (flags : PageFlags) : Bool := flags.has 0x1
def isLeaf (flags : PageFlags) : Bool := flags.has 0x2
def isParent (flags : PageFlags) : Bool := flags.has 0x4
def isEmpty (flags : PageFlags) : Bool := flags.has 0x8
def isSpaceTree (flags : PageFlags) : Bool := flags.has 0x20
def isIndex (flags : PageFlags) : Bool := flags.has 0x40
def isLongValue (flags : PageFlags) : Bool := flags.has 0x80
def isNewRecordFormat (flags : PageFlags) : Bool := flags.has 0x2000
def isScrubbed (flags : PageFlags) : Bool := flags.has 0x4000

end PageFlags

structure PageHeader where
  checksum : UInt32
  number : UInt32
  modified : Bytes
  previous : PageNumber
  next : PageNumber
  father : UInt32
  freeSize : UInt16
  uncommittedSize : UInt16
  freeOffset : UInt16
  tagCount : UInt16
  flags : PageFlags
  deriving DecidableEq, Repr

namespace PageHeader

def ofBytes (data : Bytes) : PageHeader where
  checksum := data.u32At 0
  number := data.u32At 4
  modified := data.field 8 8
  previous := data.u32At 16
  next := data.u32At 20
  father := data.u32At 24
  freeSize := data.u16At 28
  uncommittedSize := data.u16At 30
  freeOffset := data.u16At 32
  tagCount := data.u16At 34
  flags := ⟨data.u32At 36⟩

end PageHeader

/-- The second block of a long page header. -/
structure ExtendedHeader where
  checksum1 : UInt64
  checksum2 : UInt64
  checksum3 : UInt64
  number : UInt64
  deriving DecidableEq, Repr

namespace ExtendedHeader

/-- Reads the block behind the first forty bytes of a page. -/
def ofPage (data : Bytes) : Except Error ExtendedHeader :=
  (data.slice 40 40 "extended page header").map fun block =>
    { checksum1 := block.u64At 0
      checksum2 := block.u64At 8
      checksum3 := block.u64At 16
      number := block.u64At 24 }

end ExtendedHeader

end EseReader
