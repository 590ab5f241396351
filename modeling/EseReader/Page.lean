import EseReader.Checksum
import EseReader.Key
import EseReader.Page.Header

/-!
# `EseReader/Page.lean` — tags and the values they locate

Behind its header a page has a data area, and at its very end an array of **tags** that grows
towards the front: tag `i` is the four bytes that end `4 * i` bytes before the end of the page. A
tag is the size and the offset of one value in the data area.

There are two layouts. With the short header, sizes and offsets have 13 bits, and the three bits
above the offset are the flags of the value. With the extended header they have 15 bits, and the
flags are the top three bits of the first word **of the value itself**, which whoever reads that
word has to take off (`PageValue.readU16`).

Tag 0 holds no entry. On a root page it is of no interest here; on every other page it is the
common key.
-/

set_option autoImplicit false

namespace EseReader

/-- Where a value lies in the data area. -/
structure PageTag where
  offset : Nat
  size : Nat
  flags : UInt8
  deriving DecidableEq, Repr

namespace PageTag

/-- The bit of a value that was deleted and not yet removed. -/
def defunctBit : UInt8 := 2

/-- The bit of an entry whose key starts with bytes of the common key. -/
def commonKeyBit : UInt8 := 4

def isDefunct (tag : PageTag) : Bool := tag.flags &&& defunctBit != 0

def hasCommonKey (tag : PageTag) : Bool := tag.flags &&& commonKeyBit != 0

/-- The tag that two words spell, in either layout. -/
def ofWords (extended : Bool) (size offset : UInt16) : PageTag :=
  if extended then ⟨offset.toNat % 0x8000, size.toNat % 0x8000, 0⟩
  else ⟨offset.toNat % 0x2000, size.toNat % 0x2000, UInt8.ofNat (offset.toNat / 0x2000)⟩

end PageTag

/-- The value that a tag locates. -/
structure PageValue where
  data : Bytes
  flags : UInt8
  /-- Counted from the start of the page. -/
  offset : Nat
  /-- The top three bits of the first word are the flags and not part of it. -/
  flagsInside : Bool
  deriving DecidableEq, Repr

namespace PageValue

def isDefunct (value : PageValue) : Bool := value.flags &&& PageTag.defunctBit != 0

def hasCommonKey (value : PageValue) : Bool := value.flags &&& PageTag.commonKeyBit != 0

/-- The word at `offset` of the value, without the flags if they are in it. -/
def readU16 (value : PageValue) (offset : Nat) (what : String) : Except Error Nat :=
  (value.data.readU16 offset what).map fun word =>
    if offset = 0 ∧ value.flagsInside then word.toNat % 0x2000 else word.toNat

end PageValue

/-- A page that is long enough for its header and one tag. -/
structure Page where
  number : PageNumber
  extended : Bool
  data : Bytes
  deriving DecidableEq, Repr

namespace Page

/-- The bytes in front of the data area. -/
def headerSize (page : Page) : Nat := if page.extended then 80 else 40

/-- Takes `data` as page `number`. -/
def ofBytes (number : PageNumber) (data : Bytes) (format : Format) : Except Error Page :=
  let page : Page := ⟨number, format.extendedHeader, data⟩
  let length := data.length
  if length < page.headerSize + 4 then .error (.page number (.tooShort length)) else .ok page

def header (page : Page) : PageHeader := PageHeader.ofBytes page.data

def flags (page : Page) : PageFlags := page.header.flags

def tagCount (page : Page) : Nat := page.header.tagCount.toNat

/-- Everything behind the header, the tags included. -/
def area (page : Page) : Bytes := page.data.drop page.headerSize

/-- The tag at `index`. Where the flags are inside the value they are not known here and read as
zero. -/
def tag (page : Page) (index : Nat) : Except Error PageTag :=
  let length := page.data.length
  if page.tagCount ≤ index then .error (.page page.number (.noSuchTag index page.tagCount))
  else if length < page.headerSize + 4 * (index + 1) then
    .error (.page page.number (.tagInHeader index))
  else
    let position := length - 4 * (index + 1)
    .ok (PageTag.ofWords page.extended (page.data.u16At position) (page.data.u16At (position + 2)))

/-- The flags of a value whose tag says `tagFlags`. -/
def valueFlags (page : Page) (tagFlags : UInt8) (data : Bytes) : UInt8 :=
  if page.extended ∧ 2 ≤ data.length then UInt8.ofNat ((data.u16At 0).toNat / 0x2000) else tagFlags

/-- The value at `index`, if it lies inside the data area. -/
def value (page : Page) (index : Nat) : Except Error PageValue := do
  let tag ← page.tag index
  let available := page.area.length
  if tag.offset + tag.size ≤ available then
    let data := page.area.field tag.offset tag.size
    return { data := data
             flags := page.valueFlags tag.flags data
             offset := page.headerSize + tag.offset
             flagsInside := page.extended }
  else throw (.page page.number (.valueOutside index tag.size tag.offset available))

/-- The beginning that keys of this page share. The flags inside the second byte are no part of
it. -/
def commonKey (page : Page) : Except Error (Option Key) := do
  if page.tagCount = 0 ∨ page.flags.isRoot then return none
  let value ← page.value 0
  let key : Key := ⟨value.data⟩
  return some (if page.extended then key.maskByte 1 0x1f else key)

/-- The checksum of the bytes it covers. -/
def checksum (page : Page) (format : Format) : UInt32 :=
  if format.seedsWithPageNumber then xor32 (page.data.drop 8) page.number
  else xor32 (page.data.drop 4) checksumSeed

/-- Compares the stored checksum with the bytes. A page that was never written has the checksum
zero, and an extended page has checksums of another kind: neither is tested. -/
def verifyChecksum (page : Page) (format : Format) : Except Error Unit :=
  let stored := page.header.checksum
  if stored = 0 ∨ page.extended then .ok ()
  else
    let calculated := page.checksum format
    if stored = calculated then .ok () else .error (.checksum page.number stored calculated)

end Page

end EseReader
