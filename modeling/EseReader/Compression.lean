import EseReader.Compression.SevenBit
import EseReader.Compression.Xpress
import EseReader.Text.Codepage

/-!
# `EseReader/Compression.lean` — compressed column values

The first byte of a compressed value is its marker. One marker stands for a match-compressed
stream, which announces its size; every other marker stands for packed 7-bit bytes. A bit of the
packed markers tells narrow text from wide text, and `decompressText` follows it.
-/

set_option autoImplicit false

namespace EseReader.Compression

/-- The marker of a match-compressed stream. -/
def matchMarker : UInt8 := 0x18

/-- The bit of a marker that says that packed text is narrow. -/
def narrowBit : UInt8 := 0x10

def marker (data : Bytes) : Except Error UInt8 := data.readU8 0 "compressed value marker"

/-- The size of a value, as far as its stored form tells it: exactly for a stream that announces
it, and for packed bytes the number of whole 7-bit digits. -/
def decompressedSize (data : Bytes) : Except Error Nat := do
  if (← marker data) = matchMarker then
    return (← data.readU16 1 "xpress uncompressed size").toNat
  else return (data.length - 1) * 8 / 7

/-- Unpacks a value of 7-bit bytes. -/
def unpackSevenBit (data : Bytes) : Except Error Bytes := do
  if (← data.readU8 0 "7-bit value marker") = matchMarker then
    throw (.unsupported .packedMarker)
  return SevenBit.unpack data.tail

/-- Expands a match-compressed stream to the size it announces. -/
def expandXpress (data : Bytes) : Except Error Bytes := do
  let found ← data.readU8 0 "xpress marker"
  if found ≠ matchMarker then throw (.unsupported (.matchMarker found))
  let size ← data.readU16 1 "xpress uncompressed size"
  let out ← Xpress.produce size.toNat ⟨data.drop 3, 3, none⟩ [] #[]
  return out.toList

/-- The value behind either kind of marker. -/
def decompress (data : Bytes) : Except Error Bytes := do
  if (← marker data) = matchMarker then expandXpress data else unpackSevenBit data

/-- Whether a marker allows the text behind it to be UTF-16. -/
def allowsWide (found : UInt8) : Bool := found == matchMarker || found &&& narrowBit == 0

/-- The text of a compressed value: UTF-16 where the marker allows it and the bytes are well-formed
UTF-16, UTF-8 otherwise. -/
def decompressText (data : Bytes) : Except Error String := do
  let found ← marker data
  let bytes ← decompress data
  let wide := if allowsWide found && bytes.length % 2 == 0 then Utf16.decode? bytes else none
  return String.ofList (trimNuls (wide.getD (Utf8.decode bytes)))

end EseReader.Compression
