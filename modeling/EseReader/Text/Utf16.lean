import EseReader.Text.Utf8

/-!
# `EseReader/Text/Utf16.lean` — reading little-endian UTF-16

A byte string is a sequence of 16-bit units, and the units are characters or halves of one. The
result of decoding keeps the unpaired halves apart as `none`, because the two readings differ only
in what becomes of them: `decode` puts a replacement character in their place, `decode?` refuses
the whole text.
-/

set_option autoImplicit false

namespace EseReader.Utf16

/-- The units of a byte string, behind those in `done`, which stand in reverse order. A byte that
is left over at the end belongs to no unit. -/
def unitsAfter (done : List UInt16) : Bytes → List UInt16
  | a :: b :: rest => unitsAfter (UInt16.ofNat (littleEndian [a, b]) :: done) rest
  | _ => done.reverse

def units (data : Bytes) : List UInt16 := unitsAfter [] data

def isHighHalf (u : UInt16) : Bool := decide (0xd800 ≤ u) && decide (u < 0xdc00)

def isLowHalf (u : UInt16) : Bool := decide (0xdc00 ≤ u) && decide (u < 0xe000)

/-- The character that two halves make. -/
def joinHalves (high low : UInt16) : Char :=
  Char.ofNat (0x10000 + (high.toNat - 0xd800) * 0x400 + (low.toNat - 0xdc00))

/-- The characters of a sequence of units, behind those in `done`, which stand in reverse order. -/
def charsAfter (done : List (Option Char)) : List UInt16 → List (Option Char)
  | [] => done.reverse
  | u :: rest =>
    if isHighHalf u then
      match rest with
      | v :: rest' =>
        if isLowHalf v then charsAfter (some (joinHalves u v) :: done) rest'
        else charsAfter (none :: done) (v :: rest')
      | [] => (none :: done).reverse
    else if isLowHalf u then charsAfter (none :: done) rest
    else charsAfter (some (Char.ofNat u.toNat) :: done) rest

/-- The characters of a sequence of units; `none` for a half without its other half. -/
def chars (units : List UInt16) : List (Option Char) := charsAfter [] units

/-- The text of any byte string, with a replacement character for each unpaired half. -/
def decode (data : Bytes) : List Char := (chars (units data)).map (·.getD replacement)

/-- The text of a byte string in which every half is paired. -/
def decode? (data : Bytes) : Option (List Char) := (chars (units data)).mapM id

end EseReader.Utf16
