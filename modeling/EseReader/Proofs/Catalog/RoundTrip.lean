import EseReader.Proofs.Catalog.Image
import EseReader.Proofs.Row.RoundTrip
import EseReader.Proofs.Text.Length
import EseReader.Proofs.Text.Windows1252

/-!
# `EseReader/Proofs/Catalog/RoundTrip.lean` — reading a catalog row undoes writing it

A catalog row is read as a row of the catalog schema, and what stands in its slots is then put
together to an entry. So there are two halves. A catalog row is a row that the schema fits
(`slots_bytes`), which comes down to the twelve fixed fields having the identifiers 1 to 12 and the
widths of their columns. And each slot holds the field that it is taken for (`dataAt_fixed`,
`dataAt_variable`), or nothing if the row is too short for it.

What the entry then has to say is `EntryImage.Describes`, which looks at the image only; for names it
asks what their bytes spell. One image is described by one entry.

The catalog has no tagged columns, so nothing that stands behind the variable values matters, and
neither does the format.
-/

set_option autoImplicit false

namespace EseReader

namespace EntryKind

variable {code : UInt16} {pageOrType codepageOrLocale : UInt32}

/-! ## Kinds -/

/-- What a type code selects. -/
def SelectedBy (code : UInt16) (pageOrType codepageOrLocale : UInt32) (kind : EntryKind) : Prop :=
  (code = 1 ∧ kind = .table pageOrType) ∨
    (code = 2 ∧ kind = .column pageOrType codepageOrLocale) ∨
    (code = 3 ∧ kind = .index pageOrType codepageOrLocale) ∨
    (code = 4 ∧ kind = .longValue pageOrType) ∨ (code = 5 ∧ kind = .callback)

theorem ofCatalog_eq_ok_iff {kind : EntryKind} :
    ofCatalog code pageOrType codepageOrLocale = .ok kind ↔
      kind.SelectedBy code pageOrType codepageOrLocale := by
  rw [ofCatalog, SelectedBy]
  repeat' split
  all_goals simp_all [eq_comm]

theorem SelectedBy.code_mem {kind : EntryKind}
    (h : kind.SelectedBy code pageOrType codepageOrLocale) : 1 ≤ code ∧ code ≤ 5 := by
  rcases h with ⟨rfl, -⟩ | ⟨rfl, -⟩ | ⟨rfl, -⟩ | ⟨rfl, -⟩ | ⟨rfl, -⟩ <;> decide

theorem SelectedBy.pageOrType_eq {kind : EntryKind}
    (h : kind.SelectedBy code pageOrType codepageOrLocale) :
    kind.pageOrType = if code = 5 then 0 else pageOrType := by
  rcases h with ⟨rfl, rfl⟩ | ⟨rfl, rfl⟩ | ⟨rfl, rfl⟩ | ⟨rfl, rfl⟩ | ⟨rfl, rfl⟩ <;> rfl

theorem SelectedBy.unique {kind other : EntryKind}
    (h : kind.SelectedBy code pageOrType codepageOrLocale)
    (hother : other.SelectedBy code pageOrType codepageOrLocale) : kind = other := by
  rw [← ofCatalog_eq_ok_iff] at h hother
  exact Except.ok.inj (h.symm.trans hother)

theorem ofCatalog_eq_error {e : Error} (h : ofCatalog code pageOrType codepageOrLocale = .error e) :
    ¬(1 ≤ code ∧ code ≤ 5) ∧ e = .unsupported (.catalogType code) := by
  have hrange : 1 ≤ code ∧ code ≤ 5 → code = 1 ∨ code = 2 ∨ code = 3 ∨ code = 4 ∨ code = 5 := by
    simp only [UInt16.le_iff_toNat_le, ← UInt16.toNat_inj]
    show 1 ≤ code.toNat ∧ code.toNat ≤ 5 → code.toNat = 1 ∨ code.toNat = 2 ∨ code.toNat = 3 ∨
      code.toNat = 4 ∨ code.toNat = 5
    omega
  rw [ofCatalog] at h
  repeat' split at h
  all_goals simp_all

end EntryKind

namespace Catalog

/-! ## What an image says -/

/-- **An entry that says what is stored.** What a row is too short for counts as zero. A name that is
missing reads as the empty one, and a name of a template that is empty as a missing one, but a default
that is empty is not a missing one. A callback keeps neither of its two numbers. -/
structure EntryImage.Describes (image : EntryImage) (entry : SchemaEntry) : Prop where
  identifier : entry.identifier = image.identifier
  owner : entry.owner = image.owner
  size : entry.size = image.size
  default : entry.default = image.default
  name : Windows1252.Spells (PaddedText.textOf image.name) entry.name
  template (text : String) : entry.template = some text ↔
    text ≠ "" ∧ Windows1252.Spells (PaddedText.textOf image.template) text
  flags : entry.flags = if 6 ≤ image.lastFixed then image.flags else 0
  kind : entry.kind.SelectedBy image.code image.pageOrType
    (if 7 ≤ image.lastFixed then image.pagesOrLocale else 0)
  pageOrType : entry.kind.pageOrType = if image.code = 5 then 0 else image.pageOrType

theorem EntryImage.Describes.unique {image : EntryImage} {entry other : SchemaEntry}
    (h : image.Describes entry) (hother : image.Describes other) : entry = other := by
  have htemplate : entry.template = other.template :=
    Option.ext fun text => (h.template text).trans (hother.template text).symm
  cases entry
  cases other
  simp only [SchemaEntry.mk.injEq]
  exact ⟨h.identifier.trans hother.identifier.symm, h.owner.trans hother.owner.symm,
    h.kind.unique hother.kind, h.size.trans hother.size.symm, h.flags.trans hother.flags.symm,
    h.name.unique hother.name, htemplate, h.default.trans hother.default.symm⟩

/-! ## Names -/

/-- How the text of a name is read. -/
def PaddedText.decoded (name : PaddedText) : String :=
  String.ofList (NarrowPage.windows1252.decode name.text)

theorem spells_textOf (name : Option PaddedText) :
    Windows1252.Spells (PaddedText.textOf name) ((name.map (·.decoded)).getD "") := by
  cases name with
  | none => exact Windows1252.spells_nil_iff.mpr rfl
  | some name => exact Windows1252.spells_iff.mpr rfl

theorem filter_decoded_eq_some_iff {name : Option PaddedText} {text : String} :
    (name.map (·.decoded)).filter (!·.isEmpty) = some text ↔
      text ≠ "" ∧ Windows1252.Spells (PaddedText.textOf name) text := by
  cases name with
  | none =>
    exact iff_of_false (Option.some_ne_none text).symm fun h =>
      h.1 (Windows1252.spells_nil_iff.mp h.2)
  | some name =>
    rw [Option.map_some, Option.filter_eq_some_iff, Option.some.injEq, and_comm, Bool.not_eq_true',
      ← Bool.not_eq_true, String.isEmpty_iff]
    exact and_congr_right fun _ => Windows1252.spells_iff.symm

/-- The padding of a name does not come into its text, and nothing else is lost. -/
theorem trimNuls_decode_bytes (name : PaddedText) :
    trimNuls (NarrowPage.windows1252.decode name.bytes) =
      NarrowPage.windows1252.decode name.text := by
  have hlast : (name.text.map NarrowPage.windows1252Char).getLast? ≠ some '\x00' := by
    rw [List.getLast?_map]
    intro h
    obtain ⟨byte, hbyte, hchar⟩ := Option.map_eq_some_iff.mp h
    refine name.getLast?_ne (hbyte.trans (congrArg some ?_))
    exact NarrowPage.windows1252Char_eq_nul_iff.mp hchar
  have hnul : NarrowPage.windows1252Char 0 = '\x00' := by decide
  rw [PaddedText.bytes, NarrowPage.decode, NarrowPage.decode, List.map_append, List.map_replicate,
    hnul, trimNuls_append_replicate hlast]

namespace EntryImage

variable {image : EntryImage} {format : Format} {index : Nat}

/-! ## A catalog row as a row -/

/-- The fields of an image by the identifiers that the schema gives them. -/
def row (image : EntryImage) : RowImage where
  lastFixed := UInt8.ofNat image.lastFixed
  fixed := fun identifier => image.fixedFields.getD (identifier.toNat - 1) []
  variableValues := image.storedValues
  tagged := []

/-- The widths of the twelve fixed fields. -/
def fieldWidths : List Nat := [4, 2, 4, 4, 4, 4, 4, 1, 2, 4, 2, 4]

theorem length_fixedFields (image : EntryImage) : image.fixedFields.length = 12 := rfl

theorem map_length_fixedFields (image : EntryImage) :
    image.fixedFields.map (·.length) = fieldWidths := by
  simp only [fixedFields, List.map_cons, List.map_nil, length_leBytes, List.length_cons,
    List.length_nil, Nat.zero_add, fieldWidths]

theorem length_field (image : EntryImage) (index : Nat) :
    (image.fixedFields.getD index []).length = fieldWidths.getD index 0 := by
  rw [← image.map_length_fixedFields, List.getD_eq_getElem?_getD, List.getD_eq_getElem?_getD,
    List.getElem?_map]
  cases image.fixedFields[index]? <;> rfl

theorem length_fixed_le (image : EntryImage) : image.fixed.length ≤ 39 := by
  have hsplit := congrArg (·.flatten.length)
    (List.take_append_drop image.lastFixed image.fixedFields)
  have hlength : image.fixedFields.flatten.length = 39 := by
    rw [List.length_flatten, map_length_fixedFields]
    rfl
  simp only [List.flatten_append, List.length_append, hlength] at hsplit
  exact hsplit ▸ Nat.le_add_right _ _

/-- The schema numbers the fixed columns from 1 on, so the first ones are those up to a number. -/
theorem identifiers_upTo : ∀ count ≤ 12,
    (schema.columns.filter fun column =>
      column.isFixed && decide (column.identifier.toNat ≤ count)).map (·.identifier.toNat) =
        List.range' 1 count := by
  decide

theorem Fits.toNat_lastFixed (h : image.Fits) :
    (UInt8.ofNat image.lastFixed).toNat = image.lastFixed := by
  have hle := h.lastFixed_le
  exact UInt8.toNat_ofNat_of_lt' (by simp only [UInt8.size]; omega)

theorem Fits.fixedBytes_row (h : image.Fits) :
    image.row.fixedBytes schema.columns = image.fixed := by
  have hstores : image.row.stores = fun column =>
      column.isFixed && decide (column.identifier.toNat ≤ image.lastFixed) := by
    funext column
    rw [RowImage.stores, row, h.toNat_lastFixed]
  have hfixed : (fun column : SchemaEntry => image.row.fixed column.identifier) =
      (fun number => image.fixedFields.getD (number - 1) []) ∘ (·.identifier.toNat) := rfl
  have hfields : image.fixedFields.take image.lastFixed =
      (List.range image.lastFixed).map fun index => image.fixedFields.getD index [] := by
    refine List.ext_getElem ?_ fun index _ _ => ?_
    · rw [List.length_take, List.length_map, List.length_range, length_fixedFields]
      exact Nat.min_eq_left h.lastFixed_le
    · rw [List.getElem_take, List.getElem_map, List.getElem_range, List.getD_eq_getElem]
  rw [RowImage.fixedBytes, hstores, List.flatMap_def, hfixed, ← List.map_map,
    identifiers_upTo image.lastFixed h.lastFixed_le, List.range'_eq_map_range, List.map_map, fixed,
    hfields]
  congr 2
  funext index
  rw [Function.comp_apply, Nat.add_sub_cancel_left]

theorem Fits.bytes_eq (h : image.Fits) : image.bytes = image.row.front schema ++ image.tail := by
  rw [RowImage.front, RowImage.header, RowImage.variableBytes, h.fixedBytes_row, bytes]
  simp only [row, List.cons_append, List.nil_append, List.append_assoc]

/-- **A catalog row is a row of the catalog schema**, in every format. -/
theorem Fits.row_fits (h : image.Fits) (format : Format) : image.row.Fits schema format where
  types := by decide
  ownStart := fun htemplate => absurd rfl htemplate
  inOrder := by decide
  widths := by
    intro column hcolumn hstores
    have hwidth : ∀ column ∈ schema.columns, column.isFixed = true →
        fieldWidths.getD (column.identifier.toNat - 1) 0 = column.fixedWidth := by decide
    rw [← hwidth column hcolumn (Bool.and_eq_true_iff.mp hstores).1]
    exact image.length_field _
  fixedLength := by
    have hlength := image.length_fixed_le
    rw [h.fixedBytes_row]
    omega
  variableCount := h.variableCount
  variableLength := h.variableLength
  tagged := by
    unfold TaggedValue.Fit
    split
    · exact fun value hvalue => absurd hvalue List.not_mem_nil
    · exact trivial

/-- What is read of an image, column by column. -/
def slots (image : EntryImage) : List (Option StoredValue) := schema.columns.map image.row.slot

theorem slots_bytes (h : image.Fits) (format : Format) :
    Row.slots image.bytes schema format = .ok image.slots := by
  rw [h.bytes_eq]
  exact RowImage.slots_front (h.row_fits format) fun htagged => absurd htagged (by decide)

/-! ## What stands in the slots -/

theorem identifier_fixed : ∀ index < 12,
    schema.columns[index]?.map (·.identifier.toNat) = some (index + 1) := by
  decide

theorem identifier_variable : ∀ index < 4,
    schema.columns[12 + index]?.map (·.identifier.toNat) = some (128 + index) := by
  decide

theorem dataAt_fixed (h : image.Fits) (hindex : index < 12) :
    dataAt image.slots index =
      if index < image.lastFixed then some (image.fixedFields.getD index []) else none := by
  obtain ⟨column, hcolumn, hidentifier⟩ := Option.map_eq_some_iff.mp (identifier_fixed index hindex)
  have hslot : image.row.slot column = if index < image.lastFixed then
      some ⟨image.fixedFields.getD index [], none⟩ else none := by
    rw [RowImage.slot]
    simp only [row, hidentifier, h.toNat_lastFixed, Nat.add_sub_cancel, Nat.succ_le_iff]
    rw [if_pos (by omega)]
  rw [dataAt, slots, List.getElem?_map, hcolumn, Option.map_some, hslot]
  split <;> rfl

theorem join_storedValues (h : image.Fits) (index : Nat) :
    image.storedValues[index]?.join = image.variableValues[index]?.join := by
  rw [storedValues, List.getElem?_take]
  split
  case isTrue => rfl
  case isFalse hbehind =>
    -- The column is not stored, so it has no value either.
    cases hvalue : image.variableValues[index]? with
    | none => rfl
    | some value =>
      have hdrop : (image.variableValues.drop image.variableCount)[index - image.variableCount]? =
          some value := by
        rw [List.getElem?_drop, Nat.add_sub_cancel' (by omega), hvalue]
      rw [h.unstored value (List.mem_of_getElem? hdrop)]
      rfl

theorem dataAt_variable (h : image.Fits) (index : Nat) (hindex : index < 4) :
    dataAt image.slots (12 + index) = image.variableValues[index]?.join := by
  obtain ⟨column, hcolumn, hidentifier⟩ :=
    Option.map_eq_some_iff.mp (identifier_variable index hindex)
  have hslot : image.row.slot column =
      (image.storedValues[index]?.join).map fun data => ⟨data, none⟩ := by
    rw [RowImage.slot]
    simp only [hidentifier]
    rw [if_neg (by omega), if_pos (by omega), Nat.add_sub_cancel_left]
    rfl
  rw [dataAt, slots, List.getElem?_map, hcolumn, Option.map_some, hslot, join_storedValues h]
  cases image.variableValues[index]?.join <;> rfl

theorem toUInt32_leBytes (n : UInt32) : (leBytes 4 n.toNat).toUInt32 = .ok n := by
  rw [Bytes.toUInt32, Bytes.exactly, if_pos (length_leBytes 4 _), Except.map,
    littleEndian_leBytes 4 n.toNat n.toNat_lt, UInt32.ofNat_toNat]

theorem toUInt16_leBytes (n : UInt16) : (leBytes 2 n.toNat).toUInt16 = .ok n := by
  rw [Bytes.toUInt16, Bytes.exactly, if_pos (length_leBytes 2 _), Except.map,
    littleEndian_leBytes 2 n.toNat n.toNat_lt, UInt16.ofNat_toNat]

/-- A number that the row is too short for reads as zero. -/
theorem numberAt_slots (h : image.Fits) (index : Nat) {n : UInt32} (hindex : index < 12)
    (hfield : image.fixedFields.getD index [] = leBytes 4 n.toNat) :
    numberAt image.slots index = .ok (if index < image.lastFixed then n else 0) := by
  rw [numberAt, dataAt_fixed h hindex, hfield]
  by_cases hstored : index < image.lastFixed
  · rw [if_pos hstored, if_pos hstored]
    exact toUInt32_leBytes n
  · rw [if_neg hstored, if_neg hstored]

theorem numberAt_slots_of_lt (h : image.Fits) (index : Nat) {n : UInt32} (hindex : index < 5)
    (hfield : image.fixedFields.getD index [] = leBytes 4 n.toNat) :
    numberAt image.slots index = .ok n := by
  have hle := h.le_lastFixed
  rw [numberAt_slots h index (by omega) hfield, if_pos (by omega)]

theorem typeCode_slots (h : image.Fits) : typeCode image.slots = .ok image.code := by
  have hle := h.le_lastFixed
  rw [typeCode, dataAt_fixed h (by decide), if_pos (by omega)]
  exact toUInt16_leBytes image.code

theorem textAt_slots (h : image.Fits) (index : Nat) {name : Option PaddedText} (hindex : index < 4)
    (hname : image.variableValues[index]?.join = name.map (·.bytes)) :
    textAt image.slots (12 + index) = name.map (·.decoded) := by
  rw [textAt, dataAt_variable h index hindex, hname, Option.map_map]
  congr 1
  funext name
  rw [Function.comp_apply, trimNuls_decode_bytes, PaddedText.decoded]

/-! ## The entry -/

/-- The second number of the kind, as far as it is stored. -/
def codepageOrLocale (image : EntryImage) : UInt32 :=
  if 7 ≤ image.lastFixed then image.pagesOrLocale else 0

/-- What an image says, as far as it is stored, about an object of the given kind. -/
def entry (image : EntryImage) (kind : EntryKind) : SchemaEntry where
  identifier := image.identifier
  owner := image.owner
  kind := kind
  size := image.size
  flags := if 6 ≤ image.lastFixed then image.flags else 0
  name := (image.name.map (·.decoded)).getD ""
  template := (image.template.map (·.decoded)).filter (!·.isEmpty)
  default := image.default

theorem entryOfSlots_slots (h : image.Fits) :
    entryOfSlots image.slots =
      (EntryKind.ofCatalog image.code image.pageOrType image.codepageOrLocale).map image.entry := by
  have hname : textAt image.slots 12 = image.name.map (·.decoded) :=
    textAt_slots h 0 (by decide) rfl
  have htemplate : textAt image.slots 14 = image.template.map (·.decoded) :=
    textAt_slots h 2 (by decide) rfl
  have hdefault : dataAt image.slots 15 = image.default := dataAt_variable h 3 (by decide)
  simp only [entryOfSlots, typeCode_slots h, numberAt_slots_of_lt h 0 (by decide) rfl,
    numberAt_slots_of_lt h 2 (by decide) rfl, numberAt_slots_of_lt h 3 (by decide) rfl,
    numberAt_slots_of_lt h 4 (by decide) rfl, numberAt_slots h 5 (by decide) rfl,
    numberAt_slots h 6 (by decide) rfl, hname, htemplate, hdefault]
  rfl

theorem entryOfRow_eq (h : image.Fits) (format : Format) :
    entryOfRow image.bytes format =
      (EntryKind.ofCatalog image.code image.pageOrType image.codepageOrLocale).map image.entry := by
  obtain ⟨header, hheader, hlast, -⟩ := RowImage.rowHeader_front (h.row_fits format) image.tail
  have hlow := h.le_lastFixed
  have hhigh := h.lastFixed_le
  have hknown : ¬(header.lastFixed < 5 ∨ 12 < header.lastFixed) := by
    rw [hlast, row, UInt8.lt_iff_toNat_lt, UInt8.lt_iff_toNat_lt, h.toNat_lastFixed]
    show ¬(image.lastFixed < 5 ∨ 12 < image.lastFixed)
    omega
  rw [← h.bytes_eq] at hheader
  rw [entryOfRow, hheader]
  show (if header.lastFixed < 5 ∨ 12 < header.lastFixed then _ else _) = _
  rw [if_neg hknown, slots_bytes h]
  exact entryOfSlots_slots h

theorem describes_entry {kind : EntryKind}
    (hkind : EntryKind.ofCatalog image.code image.pageOrType image.codepageOrLocale = .ok kind) :
    image.Describes (image.entry kind) :=
  have hselected := EntryKind.ofCatalog_eq_ok_iff.mp hkind
  { identifier := rfl
    owner := rfl
    size := rfl
    default := rfl
    name := spells_textOf image.name
    template := fun _ => filter_decoded_eq_some_iff
    flags := rfl
    kind := hselected
    pageOrType := hselected.pageOrType_eq }

theorem exists_describes (hcode : 1 ≤ image.code ∧ image.code ≤ 5) :
    ∃ entry, image.Describes entry := by
  cases hkind : EntryKind.ofCatalog image.code image.pageOrType image.codepageOrLocale with
  | error e => exact absurd hcode (EntryKind.ofCatalog_eq_error hkind).1
  | ok kind => exact ⟨image.entry kind, describes_entry hkind⟩

theorem entryOfRow_eq_error (h : image.Fits) (format : Format)
    (hcode : ¬(1 ≤ image.code ∧ image.code ≤ 5)) :
    entryOfRow image.bytes format = .error (.unsupported (.catalogType image.code)) := by
  rw [entryOfRow_eq h]
  cases hkind : EntryKind.ofCatalog image.code image.pageOrType image.codepageOrLocale with
  | error e =>
    obtain ⟨-, rfl⟩ := EntryKind.ofCatalog_eq_error hkind
    rfl
  | ok kind => exact absurd (EntryKind.ofCatalog_eq_ok_iff.mp hkind).code_mem hcode

theorem entryOfRow_eq_ok_iff (h : image.Fits) (format : Format) {entry : SchemaEntry} :
    entryOfRow image.bytes format = .ok entry ↔ image.Describes entry := by
  rw [entryOfRow_eq h, map_eq_ok_iff]
  constructor
  · rintro ⟨kind, hkind, rfl⟩
    exact describes_entry hkind
  · intro hentry
    have hkind := EntryKind.ofCatalog_eq_ok_iff.mpr hentry.kind
    exact ⟨entry.kind, hkind, (describes_entry hkind).unique hentry⟩

end EntryImage

/-- **Reading a catalog row undoes writing it**, in every format, whatever follows the variable
values. It fails exactly if the type code is none of the five, and then for that reason; otherwise the
entry is the one that says what is stored. -/
theorem entryOfRow_bytes {image : EntryImage} (h : image.Fits) (format : Format) :
    ((entryOfRow image.bytes format).isOk = true ↔ 1 ≤ image.code ∧ image.code ≤ 5) ∧
    (¬(1 ≤ image.code ∧ image.code ≤ 5) →
      entryOfRow image.bytes format = .error (.unsupported (.catalogType image.code))) ∧
    ∀ entry, entryOfRow image.bytes format = .ok entry ↔ image.Describes entry := by
  refine ⟨⟨fun hok => ?_, fun hcode => ?_⟩, EntryImage.entryOfRow_eq_error h format,
    fun entry => EntryImage.entryOfRow_eq_ok_iff h format⟩
  · by_contra hcode
    rw [EntryImage.entryOfRow_eq_error h format hcode] at hok
    cases hok
  · obtain ⟨entry, hentry⟩ := EntryImage.exists_describes hcode
    rw [(EntryImage.entryOfRow_eq_ok_iff h format).mpr hentry]
    rfl

/-! A column whose flags are stored and whose codepage is not. Its name is padded and has quotation
marks and a euro sign, which are not in Latin-1, and a byte that is free; it has no statistics, its
template has an empty name and its default is empty; two more variable columns are stored, and more
bytes follow. -/

def EntryImage.sample : EntryImage where
  owner := 10
  code := 2
  identifier := 256
  pageOrType := 12
  size := 80
  flags := 0x400
  pagesOrLocale := 1200
  rootFlag := 1
  recordOffset := 0
  mapFlags := 0
  keyMost := 0
  chunkMax := 0
  lastFixed := 6
  name := some ⟨[0x93, 0x42, 0x6f, 0x64, 0x79, 0x94, 0x80, 0x81], 2, by decide⟩
  statistics := none
  template := some ⟨[], 1, by decide⟩
  default := some []
  later := [some [7], none, none]
  variableCount := 6
  tail := [0xff, 0xff]

theorem entryOfRow_bytes_sample :
    EntryImage.sample.Fits ∧
      entryOfRow EntryImage.sample.bytes .standard =
        .ok ⟨256, 10, .column 12 0, 80, 0x400, "“Body”€\ufffd", none, some []⟩ := by
  have hfits : EntryImage.sample.Fits :=
    { le_lastFixed := by decide
      lastFixed_le := by decide
      unstored := by decide
      variableCount := by decide
      variableLength := by decide }
  obtain ⟨-, -, hentry⟩ := entryOfRow_bytes hfits .standard
  refine ⟨hfits, (hentry _).mpr ?_⟩
  exact
    { identifier := rfl
      owner := rfl
      size := rfl
      default := rfl
      name := by decide
      template := fun text => iff_of_false (Option.some_ne_none text).symm fun h =>
        h.1 (Windows1252.spells_nil_iff.mp h.2)
      flags := rfl
      kind := .inr (.inl ⟨rfl, rfl⟩)
      pageOrType := rfl }

end Catalog

end EseReader
