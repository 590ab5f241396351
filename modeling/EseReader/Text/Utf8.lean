import EseReader.Bytes

/-!
# `EseReader/Text/Utf8.lean` — reading UTF-8 that may be damaged

Every byte string has a reading. A sequence that is not well formed is read as one replacement
character, and it ends where the longest start of a well-formed sequence ends: the byte that broke
it is looked at again as the beginning of the next one. So one stray byte costs one character and
never swallows the text behind it.

What makes a sequence well formed depends on its first byte alone: how many bytes follow, and in
which range the second one lies (that range excludes overlong forms and surrogates). `Lead` is that
table, and `finish` the rule for the bytes that follow.
-/

set_option autoImplicit false

namespace EseReader

/-- What stands in decoded text for bytes that cannot be read. -/
def replacement : Char := '\ufffd'

namespace Utf8

/-- What the first byte of a sequence says about the rest of it. -/
structure Lead where
  /-- The number of bytes that follow. -/
  more : Nat
  /-- The range of the second byte. -/
  low : UInt8
  high : UInt8
  /-- The bits of the character that the first byte holds. -/
  bits : Nat

/-- `none` for bytes that start no sequence. -/
def lead? (b : UInt8) : Option Lead :=
  if b < 0x80 then some ⟨0, 0x80, 0xbf, b.toNat⟩
  else if b < 0xc2 then none
  else if b < 0xe0 then some ⟨1, 0x80, 0xbf, b.toNat - 0xc0⟩
  else if b < 0xf0 then
    some ⟨2, if b = 0xe0 then 0xa0 else 0x80, if b = 0xed then 0x9f else 0xbf, b.toNat - 0xe0⟩
  else if b < 0xf5 then
    some ⟨3, if b = 0xf0 then 0x90 else 0x80, if b = 0xf4 then 0x8f else 0xbf, b.toNat - 0xf0⟩
  else none

/-- Reads the `more` bytes that complete a character, the next of them between `low` and `high`.
Stops in front of the first byte that does not fit. -/
def finish : (more : Nat) → (low high : UInt8) → (bits : Nat) → Bytes → Char × Bytes
  | 0, _, _, bits, rest => (Char.ofNat bits, rest)
  | _ + 1, _, _, _, [] => (replacement, [])
  | more + 1, low, high, bits, b :: rest =>
      if low ≤ b ∧ b ≤ high then finish more 0x80 0xbf (bits * 64 + b.toNat % 64) rest
      else (replacement, b :: rest)

/-- The character at the front of `b :: rest`, and the bytes after it. -/
def next (b : UInt8) (rest : Bytes) : Char × Bytes :=
  match lead? b with
  | none => (replacement, rest)
  | some lead => finish lead.more lead.low lead.high lead.bits rest

theorem length_finish_le (more : Nat) (low high : UInt8) (bits : Nat) (data : Bytes) :
    (finish more low high bits data).2.length ≤ data.length := by
  induction more generalizing low high bits data with
  | zero => exact Nat.le_refl _
  | succ more ih =>
    cases data with
    | nil => exact Nat.le_refl _
    | cons b rest =>
      simp only [finish]
      split
      · exact Nat.le_succ_of_le (ih _ _ _ _)
      · exact Nat.le_refl _

theorem length_next_le (b : UInt8) (rest : Bytes) : (next b rest).2.length ≤ rest.length := by
  unfold next
  split
  · exact Nat.le_refl _
  · exact length_finish_le _ _ _ _ _

/-- Decodes `data` behind the characters in `done`, which stand in reverse order. -/
def decodeAfter (done : List Char) : Bytes → List Char
  | [] => done.reverse
  | b :: rest => decodeAfter ((next b rest).1 :: done) (next b rest).2
termination_by data => data.length
decreasing_by exact Nat.lt_succ_of_le (length_next_le b rest)

/-- The text of any byte string, with replacement characters where it is damaged. -/
def decode (data : Bytes) : List Char := decodeAfter [] data

end Utf8

end EseReader
