import EseReader.Page

/-!
# `EseReader/Proofs/Page/Image.lean` — pages as they are written

The other direction of `EseReader/Page.lean`: a `PageImage` says what stands on a page, and
`PageImage.bytes` lays it out. The values stand behind the header one after the other, the tags at
the end of the page from the last to the first, and zeros in between. The two layouts differ in
where the three flag bits of a value go: above the offset in its tag, or into the top of its first
word.
-/

set_option autoImplicit false

namespace EseReader

def zeros (count : Nat) : Bytes := List.replicate count 0

/-- A value with its three flag bits. -/
structure ValueImage where
  flags : Nat
  data : Bytes
  deriving DecidableEq, Repr

namespace ValueImage

/-- A value of a node: how much of the common key it uses, if the flags say that it does, the local
key and the payload. -/
def entryBytes (common : Option Nat) (key payload : Bytes) : Bytes :=
  (common.map (leBytes 2)).getD [] ++ leBytes 2 key.length ++ key ++ payload

/-- A value without flags, of a node whose entries do not use the common key. -/
def plain (key payload : Bytes) : ValueImage := ⟨0, entryBytes none key payload⟩

/-- The bytes that are stored for a value. In the long layout the flags are in them. -/
def stored (extended : Bool) (value : ValueImage) : Bytes :=
  if extended then value.data.modify 1 (· ||| UInt8.ofNat (32 * value.flags)) else value.data

/-- The tag of a value that stands at `offset` of the data area. -/
def tag (extended : Bool) (offset : Nat) (value : ValueImage) : Bytes :=
  leBytes 2 value.data.length ++
    leBytes 2 (if extended then offset else offset + 0x2000 * value.flags)

/-- The tags of values that stand one after the other from `offset` on, the last tag first. -/
def tags (extended : Bool) : (offset : Nat) → List ValueImage → Bytes
  | _, [] => []
  | offset, value :: values =>
    tags extended (offset + value.data.length) values ++ value.tag extended offset

end ValueImage

/-- What stands on a page. The value at position 0 is that of tag 0. -/
structure PageImage where
  size : Nat
  extended : Bool
  flags : UInt32
  previous : PageNumber
  next : PageNumber
  values : List ValueImage
  deriving DecidableEq, Repr

namespace PageImage

/-- The header. Fields that no reader of values looks at are zero. -/
def header (image : PageImage) : Bytes :=
  zeros 16 ++ leBytes 4 image.previous.toNat ++ leBytes 4 image.next.toNat ++ zeros 10 ++
    leBytes 2 image.values.length ++ leBytes 4 image.flags.toNat ++
    (if image.extended then zeros 40 else [])

/-- The values, one after the other. -/
def area (image : PageImage) : Bytes := image.values.flatMap (ValueImage.stored image.extended)

/-- The length of everything but the unused space. -/
def used (image : PageImage) : Nat :=
  image.header.length + image.area.length + 4 * image.values.length

def bytes (image : PageImage) : Bytes :=
  image.header ++ image.area ++ zeros (image.size - image.used) ++
    ValueImage.tags image.extended 0 image.values

/-- A leaf in the short layout, whose values repeat their keys as payload. -/
def leaf (size : Nat) (next : PageNumber) (keys : List Bytes) : PageImage where
  size := size
  extended := false
  flags := 0x2
  previous := 0
  next := next
  values := ⟨0, []⟩ :: keys.map fun key => ValueImage.plain key key

/-- A branch in the short layout. -/
def branch (size : Nat) (entries : List (Bytes × PageNumber)) : PageImage where
  size := size
  extended := false
  flags := 0x4
  previous := 0
  next := 0
  values := ⟨0, []⟩ :: entries.map fun entry => ValueImage.plain entry.1 (leBytes 4 entry.2.toNat)

end PageImage

end EseReader
