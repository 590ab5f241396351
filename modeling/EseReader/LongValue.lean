import EseReader.Tree.Find
import EseReader.Tree.Leaves

/-!
# `EseReader/LongValue.lean` — values that are too long for a row

A long value lives in a tree of its own. A row stores only its identifier, four bytes with the low
one first; the tree sorts identifiers with the high byte first, so the key of a long value is that
identifier **turned round**.

Under that key stands an anchor, which declares a size. Under keys that go on with four more bytes,
an offset with the high byte first, stand the segments. They come in the order of their offsets,
and they have to follow each other without a gap; the declared size is not compared with them.
-/

set_option autoImplicit false

namespace EseReader

/-- The identifier of a long value, in the order in which the tree sorts it. -/
structure LongValueKey where
  bytes : Bytes
  deriving DecidableEq, Repr

namespace LongValueKey

/-- The key for the identifier that a row stores. -/
def ofStored (data : Bytes) : Except Error LongValueKey :=
  (data.exactly 4).map fun bytes => ⟨bytes.reverse⟩

def identifier (key : LongValueKey) : UInt32 := UInt32.ofNat (bigEndian key.bytes)

/-- The key of the anchor. -/
def anchor (key : LongValueKey) : Key := ⟨key.bytes⟩

/-- The key of the segment at `offset`. -/
def segment (key : LongValueKey) (offset : UInt32) : Key :=
  ⟨key.bytes ++ beBytes 4 offset.toNat⟩

def render (key : LongValueKey) : String :=
  let digits := Hex.literal 8 key.identifier.toNat
  s!"LongValueKey({digits})"

end LongValueKey

/-- A stretch of a long value. -/
structure Segment where
  offset : UInt32
  data : Bytes
  location : Location
  deriving DecidableEq, Repr

namespace Segment

/-- Where the next segment starts. -/
def stop (segment : Segment) : Nat := segment.offset.toNat + segment.data.length

end Segment

structure LongValue where
  key : LongValueKey
  /-- The size that the anchor declares. -/
  declared : UInt32
  segments : List Segment
  deriving DecidableEq, Repr

namespace LongValue

/-- The number of bytes that the segments hold. -/
def size (value : LongValue) : Nat :=
  match value.segments.getLast? with
  | some segment => segment.stop
  | none => 0

/-- All bytes in order. -/
def toBytes (value : LongValue) : Bytes := value.segments.flatMap (·.data)

/-- At most `count` bytes of some segments, from `position` of the value on. -/
def gather : List Segment → (position count : Nat) → Bytes
  | [], _, _ => []
  | segment :: segments, position, count =>
    if count = 0 then []
    else
      let taken := (segment.data.drop (position - segment.offset.toNat)).take count
      taken ++ gather segments (position + taken.length) (count - taken.length)

/-- At most `count` bytes from `offset` on; none at or behind the end. -/
def bytesAt (value : LongValue) (offset count : Nat) : Bytes :=
  if value.size ≤ offset ∨ count = 0 then []
  else gather (value.segments.dropWhile (·.stop ≤ offset)) offset count

/-- Reads into the front of a buffer, and says how many bytes of it were written. -/
def readInto (value : LongValue) (offset : Nat) (buffer : Bytes) : Nat × Bytes :=
  let copied := value.bytesAt offset buffer.length
  (copied.length, copied ++ buffer.drop copied.length)

/-- The segments found so far, the latest first, and where the next one has to start. -/
structure Assembly where
  segments : List Segment
  expected : Nat

/-- Takes one value of the tree. A key of another long value ends the assembly; a key that starts
like a segment of this one but has another length is passed over. -/
def assemble (key : LongValueKey) (found : Except Error Assembly) (item : Except Error LeafValue) :
    Flow (Except Error Assembly) :=
  match found, item with
  | .error e, _ => .enough (.error e)
  | _, .error e => .enough (.error e)
  | .ok assembly, .ok value =>
    if !value.key.startsWith key.bytes then .enough (.ok assembly)
    else if value.key.bytes.length ≠ 8 then .more (.ok assembly)
    else
      let offset := UInt32.ofNat (bigEndian (value.key.bytes.drop 4))
      if offset.toNat ≠ assembly.expected then
        .enough (.error (.segmentGap (UInt32.ofNat assembly.expected) offset))
      else
        .more (.ok
          { segments := ⟨offset, value.data, value.location⟩ :: assembly.segments
            expected := assembly.expected + value.data.length })

end LongValue

namespace Forest

/-- The segments of a long value, from the beginning on. -/
def longValueSegments (forest : Forest) (root : PageNumber) (key : LongValueKey) :
    Walk (Except Error (List Segment)) := do
  match ← forest.seek root (key.segment 0) with
  | .error e => return .error e
  | .ok cursor =>
    let assembly ← forest.fold (LongValue.assemble key) (.ok ⟨[], 0⟩) cursor
    return assembly.map (·.segments.reverse)

/-- The long value with the given key in the tree at `root`; `none` if it has no anchor. -/
def longValue (forest : Forest) (root : PageNumber) (key : LongValueKey) :
    Walk (Except Error (Option LongValue)) := do
  match ← forest.find root key.anchor .forward with
  | .error e => return .error e
  | .ok none => return .ok none
  | .ok (some anchor) =>
    match anchor.data.exactly 8 with
    | .error e => return .error e
    | .ok data =>
      let segments ← forest.longValueSegments root key
      return segments.map fun segments => some ⟨key, data.u32At 4, segments⟩

end Forest

end EseReader
