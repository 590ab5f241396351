import EseReader.Proofs.Text.Ascii

/-!
# `EseReader/Proofs/Text/Codepage.lean` — the text of bytes in a codepage

Whatever the codepage of a column says, in the end its bytes are read in one of three ways: as
UTF-16, as UTF-8, or one byte a character. The first two are `readWide`, with one bit that tells
which; under the Unicode codepage, and for seven-bit bytes in any codepage, the text is one of these
two (`toText_eq_readWide`). Where two of the three ways give the same text, the bytes are special:
seven-bit bytes, or all zero but the first.
-/

set_option autoImplicit false

namespace EseReader

/-- The text that bytes are read as, in UTF-16 or in UTF-8. -/
def readWide (wide : Bool) (value : Bytes) : String :=
  String.ofList (trimNuls (if wide then Utf16.decode value else Utf8.decode value))

/-- Whether the bytes of a column in a codepage are read as UTF-16, if they are not compressed. -/
def plainWide (codepage : UInt32) (value : Bytes) : Bool :=
  Codepages.isUnicode codepage && looksWide value

/-- The codepages that text is read in. -/
def supportedCodepages : List UInt32 := [1200, 1252, 20127, 28591, 65001]

variable {value : Bytes} {codepage : UInt32} {pages : Codepages}

theorem toText_of_unicode (h : pages.resolve codepage = 1200) :
    toText value codepage pages = .ok (readWide (plainWide 1200 value) value) := by
  rw [toText, h]
  rfl

theorem isUnicode_of_page {page : NarrowPage} (hpage : NarrowPage.ofNumber? codepage = some page) :
    Codepages.isUnicode codepage = false := by
  rw [Codepages.isUnicode, beq_eq_false_iff_ne]
  rintro rfl
  cases hpage

theorem plainWide_of_page {page : NarrowPage} (hpage : NarrowPage.ofNumber? codepage = some page) :
    plainWide codepage value = false := by
  rw [plainWide, isUnicode_of_page hpage, Bool.false_and]

theorem toText_of_page {page : NarrowPage}
    (hpage : NarrowPage.ofNumber? (pages.resolve codepage) = some page) :
    toText value codepage pages = .ok (String.ofList (trimNuls (page.decode value))) := by
  rw [toText]
  simp only [isUnicode_of_page hpage, Bool.false_eq_true, if_false, decodeNarrow, hpage]
  rfl

theorem unicode_or_page (h : codepage ∈ supportedCodepages) :
    codepage = 1200 ∨ ∃ page, NarrowPage.ofNumber? codepage = some page := by
  simp only [supportedCodepages, List.mem_cons, List.not_mem_nil, or_false] at h
  rcases h with rfl | rfl | rfl | rfl | rfl
  · exact .inl rfl
  · exact .inr ⟨.windows1252, rfl⟩
  · exact .inr ⟨.ascii, rfl⟩
  · exact .inr ⟨.latin1, rfl⟩
  · exact .inr ⟨.utf8, rfl⟩

/-- Text in one of the two Unicode encodings, and text of seven-bit bytes in any codepage, is either
UTF-16 or UTF-8. -/
theorem toText_eq_readWide
    (h : pages.resolve codepage = 1200 ∨ pages.resolve codepage = 65001 ∨
      pages.resolve codepage ∈ supportedCodepages ∧ ∀ b ∈ value, b < 0x80) :
    toText value codepage pages =
      .ok (readWide (plainWide (pages.resolve codepage) value) value) := by
  have hnarrow {page : NarrowPage}
      (hpage : NarrowPage.ofNumber? (pages.resolve codepage) = some page)
      (hdecode : page.decode value = Utf8.decode value) :
      toText value codepage pages =
        .ok (readWide (plainWide (pages.resolve codepage) value) value) := by
    rw [toText_of_page hpage, plainWide_of_page hpage, hdecode]
    rfl
  rcases h with hwide | hutf8 | ⟨hsupported, hascii⟩
  · rw [toText_of_unicode hwide, hwide]
  · exact hnarrow (show NarrowPage.ofNumber? _ = some .utf8 by rw [hutf8]; rfl) rfl
  · rcases unicode_or_page hsupported with hwide | ⟨page, hpage⟩
    · rw [toText_of_unicode hwide, hwide]
    · exact hnarrow hpage (by rw [page.decode_of_ascii hascii, Utf8.decode_of_ascii hascii])

theorem readWide_eq_ofList_iff {wide : Bool} {text : List Char} :
    readWide wide value = String.ofList (trimNuls text) ↔
      trimNuls (if wide then Utf16.decode value else Utf8.decode value) = trimNuls text :=
  String.ofList_inj

/-- Text read in pairs of bytes is half as long as text read in bytes, so they are the same only if
there is one character at most. -/
theorem tail_eq_zero_of_trimNuls_eq {char : UInt8 → Char} (hchar : IsByteMap char)
    (h : trimNuls (Utf16.decode value) = trimNuls (value.map char)) : ∀ b ∈ value.tail, b = 0 := by
  have hlength := congrArg List.length h
  have hle := Utf16.reach_decode_le value
  rw [length_trimNuls, length_trimNuls, hchar.reach_map] at hlength
  cases value with
  | nil => exact List.forall_mem_nil _
  | cons b rest =>
    have hcons : reachBytes (b :: rest) =
        if reachBytes rest = 0 ∧ (b == 0) = true then 0 else reachBytes rest + 1 := reach_cons
    have hrest : reachBytes rest = 0 := by
      split at hcons <;> omega
    exact fun x hx => eq_of_beq (reach_eq_zero_iff.mp hrest x hx)

/-- Seven-bit bytes of even number are the same text in pairs and one by one exactly if all but the
first are zero. -/
theorem readWide_true_eq_false_iff (hascii : ∀ b ∈ value, b < 0x80)
    (heven : value.length % 2 = 0) :
    readWide true value = readWide false value ↔ ∀ b ∈ value.tail, b = 0 := by
  have hnarrow := Utf8.decode_of_ascii hascii
  rw [show readWide false value = String.ofList (trimNuls (Utf8.decode value)) from rfl,
    readWide_eq_ofList_iff, if_pos rfl, hnarrow]
  refine ⟨tail_eq_zero_of_trimNuls_eq isByteMap_byteChar, fun htail => ?_⟩
  rw [Utf16.decode_of_ascii hascii]
  match value, heven, htail with
  | [], _, _ => rfl
  | a :: b :: rest, _, htail =>
    obtain ⟨rfl, hzeros⟩ := List.forall_mem_cons.mp htail
    have hpairs : trimNuls (Utf16.pairs rest) = [] := by
      have hle := Utf16.reach_decode_le rest
      have hreach : reachBytes rest = 0 :=
        reach_eq_zero_iff.mpr fun x hx => beq_iff_eq.mpr (hzeros x hx)
      rw [hreach, Utf16.decode_of_ascii fun x hx => hzeros x hx ▸ by decide] at hle
      exact List.eq_nil_of_length_eq_zero (Nat.le_zero.mp hle)
    have hbytes : trimNuls ((0 :: rest).map byteChar) = [] := by
      rw [trimNuls_eq_nil_iff, List.forall_mem_map]
      exact fun x hx => byteChar_eq_nul_iff.mpr (htail x hx)
    rw [Utf16.pairs, trimNuls_cons, List.map_cons, trimNuls_cons (byteChar a), hpairs, hbytes]
    rfl

/-- In a codepage with one byte a character, text is the same as in UTF-16 only if there is one
character at most, and as in UTF-8 only if that holds of each byte for itself. -/
theorem bytes_of_readWide_eq {page : NarrowPage} (hpage : page ≠ .utf8) {wide : Bool}
    (h : readWide wide value = String.ofList (trimNuls (page.decode value))) :
    (∀ b ∈ value.tail, b = 0) ∨
      wide = false ∧ ∀ b ∈ value, page.decode [b] = Utf8.decode [b] := by
  rw [readWide_eq_ofList_iff, NarrowPage.decode_eq_map hpage] at h
  cases wide with
  | true => exact .inl (tail_eq_zero_of_trimNuls_eq page.isByteMap_char h)
  | false =>
    refine .inr ⟨rfl, fun b hb => ?_⟩
    rw [NarrowPage.decode_eq_map hpage, List.map_singleton,
      Utf8.decode_singleton_of_trimNuls_eq page.isByteMap_char h b hb]

end EseReader
