/-!
# `EseReader/Text/Hex.lean` — numbers and bytes in hexadecimal

Lower-case digits, most significant first, as error texts, keys and identifiers print them.
-/

set_option autoImplicit false

namespace EseReader.Hex

/-- The digits of `n`, with zeros in front up to `width`. A longer number is not cut. -/
def padded (width n : Nat) : List Char :=
  let digits := Nat.toDigits 16 n
  List.replicate (width - digits.length) '0' ++ digits

/-- A number after `0x`, padded to `width` digits. -/
def literal (width n : Nat) : String := String.ofList ('0' :: 'x' :: padded width n)

/-- Two digits for one byte. -/
def ofByte (b : UInt8) : List Char := padded 2 b.toNat

/-- Two digits for each byte, in order. -/
def ofBytes (bytes : List UInt8) : String := String.ofList (bytes.flatMap ofByte)

end EseReader.Hex
