import EseReader.Compression
import Mathlib.Algebra.Ring.Nat

/-!
# `EseReader/Proofs/Compression/Image.lean` — match-compressed values as they are written

The other direction of `EseReader/Compression/Xpress.lean`. A value is given as a list of items;
`Item.expand` says what value that is, and `Xpress.encode` writes the items down. A compressor is
free to choose among the lists of items for a value, so whatever is shown of the written form is
shown for all of them.

The writer goes back at one place: a long match takes half a byte, and **the other half of the byte
is for the next long match**, however many bytes and groups later it comes. `Writer.waiting` is the
byte with the free half and everything behind it.
-/

set_option autoImplicit false

namespace EseReader.Xpress

/-- A part of a value: a byte, or a repetition of bytes produced before. -/
inductive Item where
  | literal (byte : UInt8)
  | copy (distance length : Nat)
  deriving DecidableEq, Repr

namespace Item

def isCopy : Item → Bool
  | literal _ => false
  | copy .. => true

/-- The number of bytes that an item produces. -/
def size : Item → Nat
  | literal _ => 1
  | copy _ length => length

/-- The number of bytes that items produce. -/
def total (items : List Item) : Nat := (items.map size).sum

/-- Repeats `length` bytes from `distance` back, one by one. -/
def repeatBack (out : Bytes) (distance : Nat) : (length : Nat) → Bytes
  | 0 => out
  | length + 1 => repeatBack (out ++ [out.getD (out.length - distance) 0]) distance length

/-- What is there when an item has been produced behind `out`. -/
def extend (out : Bytes) : Item → Bytes
  | literal byte => out ++ [byte]
  | copy distance length => repeatBack out distance length

/-- The value that items stand for. -/
def expand (items : List Item) : Bytes := items.foldl extend []

/-- Whether an item can be written when `produced` bytes stand in front of it: a match reaches back
into these bytes, and its distance and length are among those that have a written form. -/
def Fits (produced : Nat) : Item → Prop
  | literal _ => True
  | copy distance length =>
    (1 ≤ distance ∧ distance ≤ 8192) ∧ distance ≤ produced ∧ 3 ≤ length ∧ length ≤ 32771

instance (produced : Nat) : (item : Item) → Decidable (item.Fits produced)
  | literal _ => isTrue trivial
  | copy .. => inferInstanceAs (Decidable (_ ∧ _))

/-- Whether items can be written one after the other, behind `produced` bytes. -/
def Fit : (produced : Nat) → List Item → Prop
  | _, [] => True
  | produced, item :: items => item.Fits produced ∧ Fit (produced + item.size) items

instance decidableFit : (produced : Nat) → (items : List Item) → Decidable (Fit produced items)
  | _, [] => isTrue trivial
  | produced, item :: items =>
    have : Decidable (Fit (produced + item.size) items) := decidableFit _ items
    inferInstanceAs (Decidable (_ ∧ _))

/-- **Items that make up a stream**: each can be written, and so can the size of the whole. -/
structure Streamable (items : List Item) : Prop where
  fit : Fit 0 items
  total_le : total items ≤ 0xffff

end Item

/-! ## Writing -/

/-- A stream being written. -/
structure Writer where
  /-- The bytes that will not change any more. -/
  done : Bytes
  /-- The number in a byte whose high half is free, and the bytes behind that byte. -/
  waiting : Option (Nat × Bytes)

namespace Writer

def bytes (w : Writer) : Bytes :=
  match w.waiting with
  | none => w.done
  | some (low, behind) => w.done ++ UInt8.ofNat low :: behind

def put (w : Writer) (part : Bytes) : Writer :=
  match w.waiting with
  | none => ⟨w.done ++ part, none⟩
  | some (low, behind) => ⟨w.done, some (low, behind ++ part)⟩

/-- Writes half a byte: into the free half if there is one, else into the low half of a new byte. -/
def half (w : Writer) (n : Nat) : Writer :=
  match w.waiting with
  | none => ⟨w.done, some (n, [])⟩
  | some (low, behind) => ⟨w.done ++ UInt8.ofNat (low + 16 * n) :: behind, none⟩

/-- Writes a match. A length spills over into half a byte, a byte and a word, in this order. -/
def copy (w : Writer) (distance length : Nat) : Writer :=
  let w := w.put (leBytes 2 ((distance - 1) * 8 + min (length - 3) 7))
  let w := if 7 ≤ length - 3 then w.half (min (length - 10) 15) else w
  let w := if 22 ≤ length - 3 then w.put [UInt8.ofNat (min (length - 25) 255)] else w
  if 277 ≤ length - 3 then w.put (leBytes 2 (length - 3)) else w

def item (w : Writer) : Item → Writer
  | .literal byte => w.put [byte]
  | .copy distance length => w.copy distance length

end Writer

/-- The number with the given bits, the highest first. -/
def ofBits : List Bool → Nat
  | [] => 0
  | bit :: bits => bit.toNat * 2 ^ bits.length + ofBits bits

/-- The word in front of a group: a bit for each item, the highest for the first. -/
def indicator (group : List Item) : Nat :=
  ofBits (group.map Item.isCopy ++ List.replicate (32 - group.length) false)

/-- Writes a group of up to 32 items. -/
def Writer.group (w : Writer) (group : List Item) : Writer :=
  group.foldl item (w.put (leBytes 4 (indicator group)))

/-- Writes items in groups of 32, the last of which may be shorter. -/
def Writer.groups (w : Writer) (items : List Item) : Writer :=
  match items with
  | [] => w
  | item :: items =>
    ((w.group ((item :: items).take 32)).groups ((item :: items).drop 32))
termination_by items.length
decreasing_by simp only [List.length_drop, List.length_cons]; omega

/-- The compressed form of the value that `items` stand for. -/
def encode (items : List Item) : Bytes :=
  Compression.matchMarker :: leBytes 2 (Item.total items) ++
    ((⟨[], none⟩ : Writer).groups items).bytes

end EseReader.Xpress
