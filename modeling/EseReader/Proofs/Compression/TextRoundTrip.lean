import EseReader.Proofs.Compression.Text
import EseReader.Proofs.Text.Unicode

/-!
# `EseReader/Proofs/Compression/TextRoundTrip.lean` — compressed text is read back

A writer of compressed text has three ways: ASCII characters packed one by one, the bytes of UTF-16
packed as long as all of them are below 0x80, and any text as UTF-16 in a stream. The reader is told
by the marker which of them it may have been, and looks at what comes out. It gets the text back
from each (`decompressText_recovers`).

The danger is in the packed form, where a zero byte can come out behind the value. Behind single
characters it is one more character NUL, which is not kept. Behind UTF-16 it would make the number
of bytes odd, and **odd bytes are not read as UTF-16**; but there it never comes out, since the room
for it is left behind 7, 15, 23, … bytes only, and UTF-16 has an even number.
-/

set_option autoImplicit false

namespace EseReader.Compression

open Xpress

variable {text : List Char} {found : UInt8} {value : Bytes}

/-! ## What comes out -/

theorem decompress_pack (hfound : found ≠ matchMarker) (hvalue : ∀ b ∈ value, b < 0x80) :
    decompress (found :: SevenBit.pack value) = .ok (value ++ SevenBit.spare value) := by
  rw [decompress_cons, if_neg hfound, unpackSevenBit_cons hfound, SevenBit.unpack_pack hvalue]

/-- What is left behind a value is padding. -/
theorem spare_eq_replicate (value : Bytes) :
    SevenBit.spare value = List.replicate (SevenBit.spare value).length 0 := by
  unfold SevenBit.spare
  split <;> rfl

theorem spare_of_even (h : value.length % 2 = 0) : SevenBit.spare value = [] := by
  have hnot : ¬ value.length % 8 = 7 := by omega
  rw [SevenBit.spare, if_neg hnot]

theorem lt_of_mem_padded (h : ∀ b ∈ value, b < 0x80) (count : Nat) :
    ∀ b ∈ value ++ List.replicate count 0, b < 0x80 := by
  intro b hb
  rcases List.mem_append.mp hb with hb | hb
  · exact h b hb
  · rw [List.eq_of_mem_replicate hb]
    decide

/-! ## What it is read as -/

theorem allowsWide_of_narrow (hbit : found &&& narrowBit ≠ 0) (hfound : found ≠ matchMarker) :
    allowsWide found = false := by
  rw [allowsWide, Bool.or_eq_false_iff]
  exact ⟨beq_eq_false_iff_ne.mpr hfound, beq_eq_false_iff_ne.mpr hbit⟩

theorem allowsWide_of_wide (hbit : found &&& narrowBit = 0) : allowsWide found = true := by
  rw [allowsWide, hbit, beq_self_eq_true, Bool.or_true]

/-- The marker of a stream has the bit of narrow text. -/
theorem ne_matchMarker_of_wide (hbit : found &&& narrowBit = 0) : found ≠ matchMarker := by
  rintro rfl
  revert hbit
  decide

theorem streamWide_encode (text : List Char) (count : Nat) :
    streamWide (Utf16.encode text ++ List.replicate (2 * count) 0) = true := by
  rw [Utf16.encode_padded, streamWide, Utf16.even_length_encode, Utf16.decode?_encode]
  rfl

/-- Whatever form it is stored in: UTF-16 is read as UTF-16 if the marker allows it. -/
theorem decompressText_of_utf16 {data : Bytes} (hend : text.getLast? ≠ some '\x00') {count : Nat}
    (hmarker : marker data = .ok found) (hwide : allowsWide found = true)
    (hvalue : decompress data = .ok (Utf16.encode text ++ List.replicate (2 * count) 0)) :
    decompressText data = .ok (String.ofList text) := by
  rw [decompressText_of_decompress hmarker hvalue, hwide, streamWide_encode, Bool.and_true,
    readWide_utf16 hend]

theorem decompressText_pack_utf8 (hend : text.getLast? ≠ some '\x00')
    (hascii : ∀ c ∈ text, c.toNat < 0x80) (hbit : found &&& narrowBit ≠ 0)
    (hfound : found ≠ matchMarker) (count : Nat) :
    decompressText (found :: SevenBit.pack (Utf8.encode text ++ List.replicate count 0)) =
      .ok (String.ofList text) := by
  have hvalue := decompress_pack hfound (lt_of_mem_padded (Utf8.encode_of_ascii hascii) count)
  -- The byte that may come out behind the value is one zero more.
  rw [spare_eq_replicate, List.append_assoc, List.replicate_append_replicate] at hvalue
  rw [decompressText_of_decompress (marker_cons _ _) hvalue, allowsWide_of_narrow hbit hfound,
    Bool.false_and, readWide_utf8 hend]

theorem decompressText_pack_utf16 (hend : text.getLast? ≠ some '\x00')
    (hseven : ∀ b ∈ Utf16.encode text, b < 0x80) (hbit : found &&& narrowBit = 0) (count : Nat) :
    decompressText (found :: SevenBit.pack (Utf16.encode text ++ List.replicate (2 * count) 0)) =
      .ok (String.ofList text) := by
  have heven : (Utf16.encode text ++ List.replicate (2 * count) 0).length % 2 = 0 := by
    rw [Utf16.encode_padded]
    exact Utf16.even_length_encode _
  have hvalue := decompress_pack (ne_matchMarker_of_wide hbit) (lt_of_mem_padded hseven (2 * count))
  rw [spare_of_even heven, List.append_nil] at hvalue
  exact decompressText_of_utf16 hend (marker_cons _ _) (allowsWide_of_wide hbit) hvalue

/-- **Compressed text is read back**, with any number of characters NUL behind it: ASCII packed as
single bytes; UTF-16 packed, if all its bytes have seven bits; and UTF-16 in a stream, which there
is for every text that is short enough, whichever items it is made of and whoever has written it. -/
theorem decompressText_recovers (text : String) (hend : text.toList.getLast? ≠ some '\x00')
    (count : Nat) :
    (∀ found : UInt8, (∀ c ∈ text.toList, c.toNat < 0x80) → found &&& narrowBit ≠ 0 →
      found ≠ matchMarker →
      decompressText (found :: SevenBit.pack
        (Utf8.encode text.toList ++ List.replicate count 0)) = .ok text) ∧
    (∀ found : UInt8, (∀ b ∈ Utf16.encode text.toList, b < 0x80) → found &&& narrowBit = 0 →
      decompressText (found :: SevenBit.pack
        (Utf16.encode text.toList ++ List.replicate (2 * count) 0)) = .ok text) ∧
    let wide := Utf16.encode text.toList ++ List.replicate (2 * count) 0
    (wide.length ≤ 0xffff → ∃ items, Item.Streamable items ∧ Item.expand items = wide) ∧
      (∀ items, Item.Streamable items → Item.expand items = wide →
        decompressText (encode items) = .ok text) ∧
      ∀ data, marker data = .ok matchMarker → decompress data = .ok wide →
        decompressText data = .ok text := by
  have htext : String.ofList text.toList = text := String.ofList_toList
  have hstream : ∀ data, marker data = .ok matchMarker →
      decompress data = .ok (Utf16.encode text.toList ++ List.replicate (2 * count) 0) →
      decompressText data = .ok text := by
    intro data hmarker hvalue
    rw [decompressText_of_utf16 hend hmarker rfl hvalue, htext]
  refine ⟨?_, ?_, ?_, ?_, hstream⟩
  · intro found hascii hbit hfound
    rw [decompressText_pack_utf8 hend hascii hbit hfound, htext]
  · intro found hseven hbit
    rw [decompressText_pack_utf16 hend hseven hbit, htext]
  · intro hlength
    exact ⟨_, streamable_literals hlength, expand_literals _⟩
  · intro items hitems hvalue
    refine hstream _ (marker_encode items) ?_
    rw [decompress_encode hitems, hvalue]

/-- Seven letters leave room for a zero byte. The face takes two halves, and stands in a stream
where it is repeated. -/
theorem decompressText_recovers_sample :
    decompressText (0x10 :: SevenBit.pack [0x61, 0x62, 0x63, 0x64, 0x65, 0x66, 0x67]) =
        .ok "abcdefg" ∧
      decompressText (0x00 :: SevenBit.pack [0x61, 0, 0x62, 0, 0, 0]) = .ok "ab" ∧
      decompressText (encode [.literal 0x3d, .literal 0xd8, .literal 0x00, .literal 0xde,
        .copy 4 4]) = .ok "😀😀" := by
  have hchars : "abcdefg".toList = ['a', 'b', 'c', 'd', 'e', 'f', 'g'] := by decide
  have hascii : ∀ c ∈ "abcdefg".toList, c.toNat < 0x80 := by
    simp only [hchars, List.forall_mem_cons, List.not_mem_nil, false_implies, implies_true]
    decide
  have hbytes : Utf16.encode "ab".toList = [0x61, 0, 0x62, 0] := by decide
  have hseven : ∀ b ∈ Utf16.encode "ab".toList, b < 0x80 := by
    simp only [hbytes, List.forall_mem_cons, List.not_mem_nil, false_implies, implies_true]
    decide
  have hnarrow := (decompressText_recovers "abcdefg" (by decide) 0).1 0x10 hascii (by decide)
    (by decide)
  have hwide := (decompressText_recovers "ab" (by decide) 1).2.1 0x00 hseven (by decide)
  have hstream := (decompressText_recovers "😀😀" (by decide) 0).2.2.2.1
    [.literal 0x3d, .literal 0xd8, .literal 0x00, .literal 0xde, .copy 4 4]
    ⟨by decide, by decide⟩ (by decide)
  exact ⟨hnarrow, hwide, hstream⟩

end EseReader.Compression
