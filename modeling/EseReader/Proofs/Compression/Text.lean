import EseReader.Proofs.Compression.Size
import EseReader.Proofs.Text.Codepage
import EseReader.Record

/-!
# `EseReader/Proofs/Compression/Text.lean` — the text of a column, compressed and not

The bytes of a text column can stand in a row as they are or as a stream, and one would expect the
same text from both. It is not always the same. Text that stands as it is, is read in the codepage
of the column. For text in a stream **the codepage is not asked**: bytes that can be UTF-16 are read
as UTF-16, all others as UTF-8 (`decompressText_encode`). Every string of seven-bit bytes of even
length can be UTF-16.
-/

set_option autoImplicit false

namespace EseReader

/-- Whether the bytes in a stream are read as UTF-16. -/
def streamWide (value : Bytes) : Bool :=
  value.length % 2 == 0 && (Utf16.decode? value).isSome

namespace Compression

open Xpress

/-- **The text of a compressed value** depends on the bytes that come out and on one bit of the
marker. -/
theorem decompressText_of_decompress {data value : Bytes} {found : UInt8}
    (hmarker : marker data = .ok found) (hvalue : decompress data = .ok value) :
    decompressText data = .ok (readWide (allowsWide found && streamWide value) value) := by
  rw [decompressText, hmarker]
  show (decompress data >>= _) = _
  rw [hvalue]
  show Except.ok (String.ofList (trimNuls
    ((if allowsWide found && value.length % 2 == 0 then Utf16.decode? value
      else none).getD (Utf8.decode value)))) = _
  rw [readWide, streamWide, ← Bool.and_assoc]
  cases heven : allowsWide found && value.length % 2 == 0 with
  | false => rfl
  | true =>
    cases hwide : Utf16.decode? value with
    | none => rfl
    | some text =>
      rw [← Utf16.decode_of_decode? hwide]
      rfl

theorem marker_encode (items : List Item) : marker (encode items) = .ok matchMarker :=
  marker_cons _ _

theorem decompress_encode {items : List Item} (h : Item.Streamable items) :
    decompress (encode items) = .ok (Item.expand items) := by
  rw [← expandXpress_groupBytes h, encode_eq, List.cons_append, decompress_cons, if_pos rfl]

/-- **The text of a stream** depends on the bytes alone that it holds. -/
theorem decompressText_encode {items : List Item} (h : Item.Streamable items) :
    decompressText (encode items) =
      .ok (readWide (streamWide (Item.expand items)) (Item.expand items)) := by
  have hallowed : allowsWide matchMarker = true := rfl
  rw [decompressText_of_decompress (marker_encode items) (decompress_encode h), hallowed,
    Bool.true_and]

end Compression

namespace Record

/-- The text of a column whose value stands in the row. -/
theorem text_of_stored {record : Record} {index : Nat} {column : SchemaEntry}
    {stored : StoredValue} (hcolumn : record.column index = .ok column)
    (hstored : record.stored? index = some stored) (hlocal : stored.isLongValue = false) :
    record.text index =
      if stored.isCompressed then Compression.decompressText stored.data
      else toText stored.data column.codepage record.codepages := by
  have hslot : record.localSlot index = .ok (some stored) := by
    rw [localSlot, slot, hcolumn, Except.map, hstored]
    show (do if stored.isLongValue then throw (.unsupported (.longValueColumn index))
             return some stored : Except Error (Option StoredValue)) = _
    rw [hlocal]
    rfl
  rw [text, present, text?, hcolumn]
  show ((record.localSlot index >>= _) >>= _) = _
  rw [hslot]
  show ((if stored.isCompressed then (Compression.decompressText stored.data).map some
    else (toText stored.data column.codepage record.codepages).map some) >>= _) = _
  split
  · cases Compression.decompressText stored.data <;> rfl
  · cases toText stored.data column.codepage record.codepages <;> rfl

/-- Two records that hold the same bytes in a column: the one as a stream of `items`, the other as
they are. -/
structure HoldBoth (record plain : Record) (index : Nat) (column : SchemaEntry)
    (items : List Xpress.Item) : Prop where
  streamable : Xpress.Item.Streamable items
  column : record.column index = .ok column ∧ plain.column index = .ok column
  codepages : plain.codepages = record.codepages
  compressed : ∃ stored, record.stored? index = some stored ∧ stored.data = Xpress.encode items ∧
    stored.isCompressed = true ∧ stored.isLongValue = false
  direct : ∃ stored, plain.stored? index = some stored ∧ stored.data = Xpress.Item.expand items ∧
    stored.isCompressed = false ∧ stored.isLongValue = false

variable {record plain : Record} {index : Nat} {column : SchemaEntry} {items : List Xpress.Item}

theorem HoldBoth.text_eq (h : HoldBoth record plain index column items) :
    record.text index =
        .ok (readWide (streamWide (Xpress.Item.expand items)) (Xpress.Item.expand items)) ∧
      plain.text index = toText (Xpress.Item.expand items) column.codepage record.codepages := by
  constructor
  · obtain ⟨stored, hstored, hdata, hcompressed, hlocal⟩ := h.compressed
    rw [text_of_stored h.column.1 hstored hlocal, if_pos hcompressed, hdata,
      Compression.decompressText_encode h.streamable]
  · obtain ⟨stored, hstored, hdata, hcompressed, hlocal⟩ := h.direct
    rw [text_of_stored h.column.2 hstored hlocal, hcompressed, hdata, h.codepages]
    rfl

/-- Where both texts are read in the same way, they are the same. -/
theorem HoldBoth.text_eq_of_wide (h : HoldBoth record plain index column items)
    (hcodepage : record.codepages.resolve column.codepage = 1200 ∨
      record.codepages.resolve column.codepage = 65001 ∨
      record.codepages.resolve column.codepage ∈ supportedCodepages ∧
        ∀ b ∈ Xpress.Item.expand items, b < 0x80)
    (hwide : streamWide (Xpress.Item.expand items) =
      plainWide (record.codepages.resolve column.codepage) (Xpress.Item.expand items)) :
    record.text index = plain.text index := by
  rw [h.text_eq.1, h.text_eq.2, toText_eq_readWide hcodepage, hwide]

theorem HoldBoth.text_eq_iff_of_ascii (h : HoldBoth record plain index column items)
    (hsupported : record.codepages.resolve column.codepage ∈ supportedCodepages)
    (hascii : ∀ b ∈ Xpress.Item.expand items, b < 0x80)
    (hnarrow : plainWide (record.codepages.resolve column.codepage) (Xpress.Item.expand items) =
      false) :
    record.text index = plain.text index ↔
      (Xpress.Item.expand items).length % 2 = 1 ∨
        ∀ b ∈ (Xpress.Item.expand items).tail, b = 0 := by
  obtain ⟨hrecord, hplain⟩ := h.text_eq
  rw [hrecord, hplain, toText_eq_readWide (.inr (.inr ⟨hsupported, hascii⟩)), hnarrow,
    Except.ok.injEq]
  generalize Xpress.Item.expand items = value at hascii ⊢
  have hpaired : (Utf16.decode? value).isSome = true := by
    rw [Utf16.decode?_of_ascii hascii]
    rfl
  rcases Nat.mod_two_eq_zero_or_one value.length with heven | hodd
  · have hwide : streamWide value = true := by
      rw [streamWide, heven, hpaired]
      rfl
    have hnot : ¬ value.length % 2 = 1 := by omega
    rw [hwide, readWide_true_eq_false_iff hascii heven, or_iff_right hnot]
  · have hnot : streamWide value = false := by
      rw [streamWide, hodd]
      rfl
    rw [hnot]
    exact iff_of_true rfl (.inl hodd)

theorem HoldBoth.bytes_of_text_eq (h : HoldBoth record plain index column items)
    {page : NarrowPage}
    (hpage : NarrowPage.ofNumber? (record.codepages.resolve column.codepage) = some page)
    (hbyte : page ≠ .utf8) (heq : record.text index = plain.text index) :
    (∀ b ∈ (Xpress.Item.expand items).tail, b = 0) ∨
      streamWide (Xpress.Item.expand items) = false ∧
        ∀ b ∈ Xpress.Item.expand items, page.decode [b] = Utf8.decode [b] := by
  obtain ⟨hrecord, hplain⟩ := h.text_eq
  rw [hrecord, hplain, toText_of_page hpage, Except.ok.injEq] at heq
  exact bytes_of_readWide_eq hbyte heq

/-- **What compression does to the text of a column.** Every string of bytes that a stream can
announce can be held as one. The text of the stream does not depend on the codepage, nor on the
items that were chosen. It is the text of the same bytes without compression wherever both are read
as UTF-16, or neither; of seven-bit bytes that are not read as UTF-16 without compression it is the
same text exactly if their number is odd or all but the first are zero. Other bytes in a codepage
with one byte a character are the same text only if all but the first are zero, or if they cannot be
UTF-16 and each for itself is the same character in UTF-8. -/
theorem text_compressed :
    (∀ value : Bytes, value.length ≤ 0xffff →
      ∃ items, Xpress.Item.Streamable items ∧ Xpress.Item.expand items = value) ∧
    ∀ (record plain : Record) (index : Nat) (column : SchemaEntry) (items : List Xpress.Item),
      HoldBoth record plain index column items →
      let value := Xpress.Item.expand items
      let codepage := record.codepages.resolve column.codepage
      record.text index = .ok (readWide (streamWide value) value) ∧
        (codepage = 1200 ∨ codepage = 65001 ∨
            codepage ∈ supportedCodepages ∧ (∀ b ∈ value, b < 0x80) →
          streamWide value = plainWide codepage value → record.text index = plain.text index) ∧
        (codepage ∈ supportedCodepages → (∀ b ∈ value, b < 0x80) →
          plainWide codepage value = false →
          (record.text index = plain.text index ↔
            value.length % 2 = 1 ∨ ∀ b ∈ value.tail, b = 0)) ∧
        ∀ page, NarrowPage.ofNumber? codepage = some page → page ≠ .utf8 →
          record.text index = plain.text index →
          (∀ b ∈ value.tail, b = 0) ∨
            streamWide value = false ∧ ∀ b ∈ value, page.decode [b] = Utf8.decode [b] := by
  constructor
  · intro value hvalue
    exact ⟨_, Xpress.streamable_literals hvalue, Xpress.expand_literals value⟩
  · intro record plain index column items h value codepage
    refine ⟨h.text_eq.1, h.text_eq_of_wide, h.text_eq_iff_of_ascii, ?_⟩
    intro page hpage hbyte heq
    exact h.bytes_of_text_eq hpage hbyte heq

/-- A text column of the given codepage. -/
def textColumn (codepage : UInt32) : SchemaEntry :=
  { SchemaEntry.plainColumn 256 .largeText "body" with
    kind := .column ColumnType.largeText.code codepage }

/-- A record with one text column. -/
def ofStored (codepage : UInt32) (stored : StoredValue) : Record where
  row := []
  schema := ⟨[], [textColumn codepage]⟩
  codepages := {}
  slots := [some stored]

theorem holdBoth_ofStored (codepage : UInt32) (items : List Xpress.Item)
    (h : Xpress.Item.Streamable items) :
    HoldBoth (ofStored codepage ⟨Xpress.encode items, some ⟨0x02⟩⟩)
      (ofStored codepage ⟨Xpress.Item.expand items, none⟩) 0 (textColumn codepage) items where
  streamable := h
  column := ⟨rfl, rfl⟩
  codepages := rfl
  compressed := ⟨_, rfl, rfl, rfl, rfl⟩
  direct := ⟨_, rfl, rfl, rfl, rfl⟩

/-- Five letters in Windows-1252, of which three are a repetition. -/
theorem text_compressed_sample :
    let items : List Xpress.Item := [.literal 0x61, .copy 1 3, .literal 0x62]
    let record := ofStored 1252 ⟨Xpress.encode items, some ⟨0x02⟩⟩
    let plain := ofStored 1252 ⟨Xpress.Item.expand items, none⟩
    HoldBoth record plain 0 (textColumn 1252) items ∧
      Xpress.Item.expand items = [0x61, 0x61, 0x61, 0x61, 0x62] ∧ record.text 0 = plain.text 0 := by
  have hboth := holdBoth_ofStored 1252 [.literal 0x61, .copy 1 3, .literal 0x62]
    ⟨by decide, by decide⟩
  have hvalue : Xpress.Item.expand [.literal 0x61, .copy 1 3, .literal 0x62] =
      [0x61, 0x61, 0x61, 0x61, 0x62] := by decide
  have hascii : ∀ b ∈ Xpress.Item.expand [.literal 0x61, .copy 1 3, .literal 0x62], b < 0x80 := by
    simp only [hvalue, List.forall_mem_cons, List.not_mem_nil, false_implies, implies_true]
    decide
  have hsame := (text_compressed.2 _ _ _ _ _ hboth).2.2.1 (by decide) hascii (by decide)
  exact ⟨hboth, hvalue, hsame.mpr (.inl rfl)⟩

/-- The letters `ab` in a stream are read as one character, whatever the codepage of the column; and
a letter that is not ASCII is lost, unless the codepage is that of UTF-8. -/
theorem text_of_two_letters :
    (∀ codepage ∈ supportedCodepages,
      (ofStored codepage ⟨[0x18, 2, 0, 0, 0, 0, 0, 0x61, 0x62], some ⟨0x02⟩⟩).text 0 =
          .ok "\u6261" ∧
        (ofStored codepage ⟨[0x61, 0x62], none⟩).text 0 = .ok "ab") ∧
      (ofStored 1252 ⟨[0x18, 1, 0, 0, 0, 0, 0, 0xe9], some ⟨0x02⟩⟩).text 0 = .ok "\ufffd" ∧
      (ofStored 1252 ⟨[0xe9], none⟩).text 0 = .ok "\u00e9" ∧
      ¬ ∀ (record plain : Record) (index : Nat) (column : SchemaEntry) (type : ColumnType)
        (items : List Xpress.Item), column.columnType = .ok type → type.isText = true →
        HoldBoth record plain index column items →
        record.codepages.resolve column.codepage ∈ supportedCodepages →
        record.text index = plain.text index := by
  have hletters : ∀ codepage ∈ supportedCodepages,
      (ofStored codepage ⟨[0x18, 2, 0, 0, 0, 0, 0, 0x61, 0x62], some ⟨0x02⟩⟩).text 0 =
          .ok "\u6261" ∧
        (ofStored codepage ⟨[0x61, 0x62], none⟩).text 0 = .ok "ab" := by
    simp only [supportedCodepages, List.forall_mem_cons, List.not_mem_nil, false_implies, implies_true]
    decide +kernel
  refine ⟨hletters, by decide +kernel, by decide +kernel, fun h => ?_⟩
  have hstream : Xpress.encode [.literal 0x61, .literal 0x62] =
      [0x18, 2, 0, 0, 0, 0, 0, 0x61, 0x62] := by decide +kernel
  have hboth := holdBoth_ofStored 1252 [.literal 0x61, .literal 0x62]
    ⟨by decide, by decide⟩
  have hsame := h _ _ _ _ _ _ rfl rfl hboth (by decide)
  obtain ⟨hcompressed, hplain⟩ := hletters 1252 (by decide)
  rw [hstream, hcompressed] at hsame
  have hdiffer := hsame.trans hplain
  revert hdiffer
  decide

end Record

end EseReader
