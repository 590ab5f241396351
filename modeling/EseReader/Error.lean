import EseReader.Format
import EseReader.Text.Hex

/-!
# `EseReader/Error.lean` — what can be wrong with a file, and how it is said

An `Error` is a **cause**: which structure was violated, where, and by which numbers. The wording
is a function of the cause (`Error.message`) and of nothing else, so a reader of a theorem about
failures sees the condition and not a text.

Causes that concern one structure are grouped by it (`KeyFault`, `PageFault`, `TreeFault`), those
that concern the caller's request are `RequestFault`, and those that say "this file is of a kind
that is not read here" are `Unsupported`.
-/

set_option autoImplicit false

namespace EseReader

/-- A request that makes no sense for the value it was made of. -/
inductive RequestFault where
  | noSuchEntry (page : PageNumber) (index count : Nat)
  | noSuchColumn (index count : Nat)
  | absentColumn (index : Nat) (getter : String)
  | notAColumn (entry : String)
  | notAMultiValue (flags : UInt8)
  | noValueFlags (index : Nat)
  | notALongValue (index : Nat)
  | noLongValueTree (table : String)
  | noSource
  | twoSources
  deriving DecidableEq, Repr

namespace RequestFault

def message : RequestFault → String
  | noSuchEntry page index count =>
      s!"value {index} requested from page {page} holding {count} values"
  | noSuchColumn index count => s!"column index {index} out of range for {count} columns"
  | absentColumn index getter => s!"column {index} ({getter}) is absent"
  | notAColumn entry => s!"{entry} is not a column"
  | notAMultiValue flags => s!"value flags {Hex.literal 2 flags.toNat} do not mark a multi-value"
  | noValueFlags index => s!"column {index} carries no value flags"
  | notALongValue index => s!"column {index} is not stored in the long-value tree"
  | noLongValueTree table => s!"table '{table}' has no long-value tree"
  | noSource => "no path or page source was given"
  | twoSources => "both a path and a page source were given"

end RequestFault

/-- A file, or a part of one, of a kind that is not read here. -/
inductive Unsupported where
  /-- Match-compressed data was handed to the 7-bit unpacker. -/
  | packedMarker
  /-- The marker of match compression was expected. -/
  | matchMarker (found : UInt8)
  | matchLength (length : Nat)
  | signature (found : UInt32)
  | fileType (found : UInt32)
  | pageSize (found : UInt32)
  | filePages (count : Nat)
  | codepage (number : UInt32)
  | multiValueFlags (flags : UInt8)
  | catalogType (code : UInt16)
  | catalogFixedColumns (last : UInt8)
  /-- The own columns of a table with a template start at another identifier. -/
  | ownColumnStart (identifier : UInt32)
  | longValueColumn (index : Nat)
  | compressedColumn (index : Nat)
  deriving DecidableEq, Repr

namespace Unsupported

def message : Unsupported → String
  | packedMarker => "xpress data passed to 7-bit decoder"
  | matchMarker found => s!"xpress marker 0x18 expected, found {Hex.literal 2 found.toNat}"
  | matchLength length => s!"xpress match of {length} bytes"
  | signature found => s!"file signature {Hex.literal 8 found.toNat} is not 0x89abcdef"
  | fileType found => s!"file type {found} is not a database"
  | pageSize found => s!"page size {found}"
  | filePages count => s!"file of {count} pages is too large"
  | codepage number => s!"codepage {number}"
  | multiValueFlags flags => s!"multi-value with flags {Hex.literal 2 flags.toNat}"
  | catalogType code => s!"catalog entry type {code}"
  | catalogFixedColumns last => s!"catalog row with last fixed column {last}"
  | ownColumnStart identifier => s!"first column {identifier} of a templated table is not 256"
  | longValueColumn index => s!"column {index} is stored in the long-value tree"
  | compressedColumn index => s!"column {index} is compressed and not text or binary"

end Unsupported

/-- A key that cannot be put together from its stored parts. -/
inductive KeyFault where
  | noCommonKey (needed : Nat)
  | shortCommonKey (needed available : Nat)
  deriving DecidableEq, Repr

namespace KeyFault

def message : KeyFault → String
  | noCommonKey needed =>
      s!"entry requires {needed} common key bytes but the page has no common key"
  | shortCommonKey needed available =>
      s!"common key size {needed} exceeds page common key of {available} bytes"

end KeyFault

/-- A page whose own layout is broken, or that is not there. -/
inductive PageFault where
  | tooShort (length : Nat)
  | noSuchTag (index count : Nat)
  | tagInHeader (index : Nat)
  | valueOutside (index size offset available : Nat)
  | notPresent
  deriving DecidableEq, Repr

namespace PageFault

def message : PageFault → String
  | tooShort length => s!"{length} bytes cannot hold a page header"
  | noSuchTag index count => s!"tag {index} requested but page has {count} tags"
  | tagInHeader index => s!"tag {index} overlaps the page header"
  | valueOutside index size offset available =>
      s!"tag {index} value of {size} bytes at offset {offset} exceeds data area of {available}"
  | notPresent => "page is not present"

end PageFault

/-- Pages that do not form a tree. -/
inductive TreeFault where
  | tooDeep (levels : Nat)
  | endlessChain
  | notALeaf (previous : PageNumber)
  deriving DecidableEq, Repr

namespace TreeFault

def message : TreeFault → String
  | tooDeep levels => s!"tree deeper than {levels} levels"
  | endlessChain => "leaf chain is longer than the file"
  | notALeaf previous => s!"next page of leaf {previous} is not a leaf"

end TreeFault

/-- Why something could not be read. -/
inductive Error where
  | request (fault : RequestFault)
  | unsupported (kind : Unsupported)
  | columnType (code : UInt32)
  /-- A field named `what` would reach past the end of its bytes. -/
  | outOfBounds (what : String) (offset size available : Nat)
  | spanSize (expected found : Nat)
  | truncatedRow (column offset size rowLength : Nat)
  | taggedOffsets (previous current : Nat)
  | variableOffsets (column previous current : Nat)
  /-- `entry` is the page and the tag the key belongs to, where these are known. -/
  | key (entry : Option (PageNumber × Nat)) (fault : KeyFault)
  | tree (page : PageNumber) (fault : TreeFault)
  | page (page : PageNumber) (fault : PageFault)
  | checksum (page stored calculated : UInt32)
  /-- The next segment of a long value does not start where the one before it ends. -/
  | segmentGap (expected found : UInt32)
  | emptyMultiValue
  | unreadableFile (path : String)
  | shortFile (path : String) (size : Nat)
  | pageOutsideFile (page count : UInt32)
  | pageLength (page : PageNumber) (length expected : Nat)
  /-- What went wrong while the value of a column was read as the kind `getter` names. -/
  | inColumn (index : Nat) (getter : String) (cause : Error)
  deriving DecidableEq, Repr

/-- The families of errors a caller may want to tell apart. -/
inductive ErrorKind where
  | invalidArgument
  | outOfBounds
  | unsupportedFormat
  | ioFailure
  deriving DecidableEq, Repr

namespace Error

/-- The error itself, without the columns around it. -/
def root : Error → Error
  | inColumn _ _ cause => cause.root
  | e => e

/-- The family of an error. Errors about a set of pages as a whole belong to none. -/
def kind? : Error → Option ErrorKind
  | request _ | spanSize .. => some .invalidArgument
  | outOfBounds .. | truncatedRow .. | taggedOffsets .. | variableOffsets .. | key .. | tree ..
  | page .. | segmentGap .. | checksum .. => some .outOfBounds
  | unsupported _ | columnType _ => some .unsupportedFormat
  | unreadableFile _ => some .ioFailure
  | emptyMultiValue | shortFile .. | pageOutsideFile .. | pageLength .. => none
  | inColumn _ _ cause => cause.kind?

/-- The text of an error: its context, if any, and the cause, joined by colons. -/
def message : Error → String
  | request fault => s!"invalid argument: {fault.message}"
  | unsupported kind => s!"unsupported format: {kind.message}"
  | columnType code => s!"unsupported column type: {code}"
  | outOfBounds what offset size available =>
      s!"{what} out of bounds: {size} bytes at offset {offset} exceed {available} available"
  | spanSize expected found => s!"wrong span size: expected {expected} bytes, found {found}"
  | truncatedRow column offset size rowLength =>
      s!"truncated row: column {column} needs {size} bytes at offset {offset} but row has {rowLength}"
  | taggedOffsets previous current =>
      s!"inconsistent tagged offsets: {Hex.literal 4 current} follows {Hex.literal 4 previous}"
  | variableOffsets column previous current =>
      s!"inconsistent variable offsets: column {column} ends at {current} before previous end {previous}"
  | key none fault => s!"malformed key: {fault.message}"
  | key (some (number, tag)) fault => s!"malformed key: page {number} tag {tag}: {fault.message}"
  | tree number fault => s!"malformed tree at page {number}: {fault.message}"
  | page number fault => s!"malformed page {number}: {fault.message}"
  | checksum number stored calculated =>
      s!"checksum mismatch on page {number}: stored {Hex.literal 8 stored.toNat}, calculated {Hex.literal 8 calculated.toNat}"
  | segmentGap expected found =>
      s!"non-contiguous long value segment: expected offset {expected} but found {found}"
  | emptyMultiValue => "multi-value offset table is empty"
  | unreadableFile path => s!"i/o failure: failed to open '{path}'"
  | shortFile path size => s!"file '{path}' of {size} bytes is too small to hold an ESE header"
  | pageOutsideFile number count => s!"page {number} out of bounds (page_count={count})"
  | pageLength number length expected => s!"page {number} has {length} bytes, expected {expected}"
  | inColumn index getter cause => s!"column {index} as {getter}: {cause.message}"

end Error

/-! ## Readings in several steps -/

/-- A reading in two steps succeeds exactly if both steps do. -/
theorem bind_eq_ok_iff {ε α β : Type} {first : Except ε α} {next : α → Except ε β} {b : β} :
    (first >>= next) = .ok b ↔ ∃ a, first = .ok a ∧ next a = .ok b := by
  cases first <;> simp [bind, Except.bind]

/-- A result that is only converted succeeds exactly if it did before. -/
theorem map_eq_ok_iff {ε α β : Type} {result : Except ε α} {f : α → β} {b : β} :
    result.map f = .ok b ↔ ∃ a, result = .ok a ∧ f a = b := by
  cases result <;> simp [Except.map]

end EseReader
