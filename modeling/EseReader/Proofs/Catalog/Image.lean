import EseReader.Catalog.Entry
import EseReader.Proofs.Row.Image

/-!
# `EseReader/Proofs/Catalog/Image.lean` — catalog rows as they are written

The other direction of `EseReader/Catalog/Entry.lean`. An `EntryImage` is what a catalog row stores,
field by field, and `EntryImage.bytes` lays it out. **The writer does not look at the schema of the
catalog**: it puts the fixed fields one after the other in their own widths and numbers nothing, so
that a slot or a width that is off by one in the schema cannot cancel out.

A row may be cut in two places. It stores the first `lastFixed` of the twelve fixed fields, and of
the variable columns as many as it likes, as long as none is left out that has a value.
-/

set_option autoImplicit false

namespace EseReader

namespace Catalog

/-- A text in Windows-1252 as names are stored: zero bytes may follow it. -/
structure PaddedText where
  text : Bytes
  padding : Nat
  /-- What follows the text is all of the padding. -/
  getLast?_ne : text.getLast? ≠ some 0

namespace PaddedText

def bytes (name : PaddedText) : Bytes := name.text ++ List.replicate name.padding 0

/-- The text of a name. A name that is missing has no text, like an empty one. -/
def textOf (name : Option PaddedText) : Bytes := (name.map (·.text)).getD []

end PaddedText

/-- What is stored in a row of the catalog. -/
structure EntryImage where
  owner : UInt32
  code : UInt16
  identifier : UInt32
  pageOrType : UInt32
  size : UInt32
  flags : UInt32
  pagesOrLocale : UInt32
  /-- This field and the four behind it are stored in later files only; no entry tells of them. -/
  rootFlag : UInt8
  recordOffset : UInt16
  mapFlags : UInt32
  keyMost : UInt16
  chunkMax : UInt32
  /-- How many of the fixed fields are stored. -/
  lastFixed : Nat
  name : Option PaddedText
  statistics : Option Bytes
  template : Option PaddedText
  default : Option Bytes
  /-- The variable columns behind the known ones. -/
  later : List (Option Bytes)
  /-- How many of the variable columns are stored, if there are so many. -/
  variableCount : Nat
  /-- What follows the last variable value. -/
  tail : Bytes

namespace EntryImage

/-- The fixed fields in the order in which a row stores them. -/
def fixedFields (image : EntryImage) : List Bytes :=
  [ leBytes 4 image.owner.toNat, leBytes 2 image.code.toNat, leBytes 4 image.identifier.toNat,
    leBytes 4 image.pageOrType.toNat, leBytes 4 image.size.toNat, leBytes 4 image.flags.toNat,
    leBytes 4 image.pagesOrLocale.toNat, [image.rootFlag], leBytes 2 image.recordOffset.toNat,
    leBytes 4 image.mapFlags.toNat, leBytes 2 image.keyMost.toNat,
    leBytes 4 image.chunkMax.toNat ]

def fixed (image : EntryImage) : Bytes := (image.fixedFields.take image.lastFixed).flatten

/-- The variable columns from 128 on. -/
def variableValues (image : EntryImage) : List (Option Bytes) :=
  image.name.map (·.bytes) :: image.statistics :: image.template.map (·.bytes) :: image.default ::
    image.later

def storedValues (image : EntryImage) : List (Option Bytes) :=
  image.variableValues.take image.variableCount

def bytes (image : EntryImage) : Bytes :=
  [UInt8.ofNat image.lastFixed, UInt8.ofNat (127 + image.storedValues.length)] ++
    leBytes 2 (4 + image.fixed.length) ++ image.fixed ++
    (VariableRegion.endWords 0 image.storedValues).flatMap wordBytes ++
    VariableRegion.payload image.storedValues ++ image.tail

/-- **An image that a catalog row can hold.** -/
structure Fits (image : EntryImage) : Prop where
  le_lastFixed : 5 ≤ image.lastFixed
  lastFixed_le : image.lastFixed ≤ 12
  /-- Only columns without a value are left out. -/
  unstored : ∀ value ∈ image.variableValues.drop image.variableCount, value = none
  /-- The last variable column is 255 at most. -/
  variableCount : image.storedValues.length ≤ 128
  variableLength : (VariableRegion.payload image.storedValues).length < 0x8000

end EntryImage

end Catalog

end EseReader
