import EseReader.Bytes

/-!
# `EseReader/Checksum.lean` — the exclusive-or checksum

The checksum of pages and of the file header: the exclusive or of a seed and of every
little-endian 32-bit word. Bytes after the last whole word do not count.
-/

set_option autoImplicit false

namespace EseReader

/-- The exclusive or of `seed` and all the words of `data`. -/
def xor32 : (data : Bytes) → (seed : UInt32) → UInt32
  | a :: b :: c :: d :: rest, seed =>
      xor32 rest (seed ^^^ UInt32.ofNat (littleEndian [a, b, c, d]))
  | _, seed => seed

/-- The seed where the page number is not used as one. -/
def checksumSeed : UInt32 := 0x89abcdef

end EseReader
