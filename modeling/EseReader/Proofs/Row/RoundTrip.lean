import EseReader.Proofs.Row.Slots
import EseReader.Proofs.Row.Tagged
import EseReader.Proofs.Row.Variable
import EseReader.Record

/-!
# `EseReader/Proofs/Row/RoundTrip.lean` — reading a row undoes writing it

The three parts of a row are read independently of each other, but not at independent places: the
variable part starts where the header says, the tagged part where the last variable value ends, and
a fixed column where the fixed columns before it end. So each part comes with a lemma that says what
is read **if** the part stands at its place, and with one that says that it does.

A fixed column that the row is too young for has a place too, but nothing stands there. From the
first such column on the places mean nothing, and no later column asks for its own, because
identifiers go up. That is the one use of their order (`mapM_slot`).
-/

set_option autoImplicit false

namespace EseReader

/-! ## The variable part -/

namespace VariableRegion

theorem length_endWords (previous : Nat) (values : List (Option Bytes)) :
    (endWords previous values).length = values.length := by
  induction values generalizing previous with
  | nil => rfl
  | cons value values ih => cases value <;> rw [endWords, List.length_cons, ih, List.length_cons]

/-- The words lead to the values, and past the last of them. -/
theorem ofWords_endWords {row rest : Bytes} {start previous : Nat} {values : List (Option Bytes)}
    (hrest : row.RestAt (start + previous) (payload values ++ rest))
    (hword : previous + (payload values).length < 0x8000) (column : Nat) :
    ∃ region, ofWords row.length start column previous (endWords previous values) = .ok region ∧
      region.spans.map (·.map (·.cut row)) = values ∧ row.RestAt region.stop rest := by
  induction values generalizing previous column with
  | nil => exact ⟨_, rfl, rfl, hrest⟩
  | cons value values ih =>
    cases value with
    | none =>
      -- An absent value leaves the end where it is.
      obtain ⟨region, hregion, hspans, hstop⟩ := ih hrest hword (column + 1)
      have htop : (UInt16.ofNat (previous + 0x8000)).toNat = previous + 0x8000 :=
        UInt16.toNat_ofNat_of_lt' (by simp only [UInt16.size]; omega)
      refine ⟨{ region with spans := none :: region.spans }, ?_, ?_, hstop⟩
      · rw [endWords, ofWords, htop, if_pos (by omega), hregion]
        rfl
      · rw [List.map_cons, hspans, Option.map_none]
    | some data =>
      have hpayload : payload (some data :: values) = data ++ payload values := rfl
      rw [hpayload, List.length_append] at hword
      rw [hpayload, List.append_assoc] at hrest
      have hbehind := hrest.append
      have hlength := hbehind.length_eq
      rw [Nat.add_assoc] at hbehind
      obtain ⟨region, hregion, hspans, hstop⟩ := ih hbehind (by omega) (column + 1)
      have hend : (UInt16.ofNat (previous + data.length)).toNat = previous + data.length :=
        UInt16.toNat_ofNat_of_lt' (by simp only [UInt16.size]; omega)
      refine ⟨{ region with
        spans := some ⟨start + previous, start + (previous + data.length)⟩ :: region.spans },
        ?_, ?_, hstop⟩
      · rw [endWords, ofWords, hend, if_neg (by omega)]
        simp only []
        rw [if_neg (by omega), if_neg (by omega), hregion]
        rfl
      · rw [List.map_cons, hspans, Option.map_some, Span.cut, ← Nat.add_assoc,
          Nat.add_sub_cancel_left, hrest.field]

end VariableRegion

namespace RowImage

variable {image : RowImage} {schema : RecordSchema} {format : Format}

/-! ## The places of the parts -/

/-- The header, the fixed and the variable part of a row. -/
def front (image : RowImage) (schema : RecordSchema) : Bytes :=
  image.header (image.fixedBytes schema.columns).length ++ image.fixedBytes schema.columns ++
    image.variableBytes

theorem restAt_fixed (image : RowImage) (schema : RecordSchema) (rest : Bytes) :
    (image.front schema ++ rest).RestAt 4
      (image.fixedBytes schema.columns ++ (image.variableBytes ++ rest)) := by
  rw [front, List.append_assoc, List.append_assoc]
  exact Bytes.restAt_append (image.header (image.fixedBytes schema.columns).length) _

theorem ofRow_header {image : RowImage} {fixedLength : Nat} (h : 4 + fixedLength < 0x10000)
    (rest : Bytes) :
    RowHeader.ofRow (image.header fixedLength ++ rest) =
      .ok ⟨image.lastFixed, UInt8.ofNat (127 + image.variableValues.length),
        UInt16.ofNat (4 + fixedLength)⟩ := by
  have hpair := littleEndian_leBytes 2 (4 + fixedLength) h
  simp only [leBytes] at hpair
  simp only [header, leBytes, List.cons_append, RowHeader.ofRow, hpair]

theorem rowHeader_front (h : image.Fits schema format) (rest : Bytes) :
    ∃ header, RowHeader.ofRow (image.front schema ++ rest) = .ok header ∧
      header.lastFixed = image.lastFixed ∧ header.variableCount = image.variableValues.length ∧
      header.variableOffset.toNat = 4 + (image.fixedBytes schema.columns).length := by
  have hcount := h.variableCount
  have hlast : (UInt8.ofNat (127 + image.variableValues.length)).toNat =
      127 + image.variableValues.length :=
    UInt8.toNat_ofNat_of_lt' (by simp only [UInt8.size]; omega)
  rw [front, List.append_assoc, List.append_assoc]
  refine ⟨_, ofRow_header h.fixedLength _, rfl, ?_, UInt16.toNat_ofNat_of_lt' h.fixedLength⟩
  unfold RowHeader.variableCount
  rw [hlast]
  omega

/-- The variable part is read, and what the row goes on with stands behind it. -/
theorem variableRegion_front (h : image.Fits schema format) (rest : Bytes) {header : RowHeader}
    (hcount : header.variableCount = image.variableValues.length)
    (hoffset : header.variableOffset.toNat = 4 + (image.fixedBytes schema.columns).length) :
    ∃ region, VariableRegion.ofRow (image.front schema ++ rest) header = .ok region ∧
      region.spans.map (·.map (·.cut (image.front schema ++ rest))) = image.variableValues ∧
      (image.front schema ++ rest).RestAt region.stop rest := by
  have htable := (image.restAt_fixed schema rest).append
  rw [variableBytes, List.append_assoc] at htable
  have hwords := VariableRegion.wordsAt_of_restAt htable
  have hpayload := htable.append
  rw [VariableRegion.length_endWords] at hwords
  rw [length_flatMap_of_length length_wordBytes, VariableRegion.length_endWords] at hpayload
  have hle := hpayload.1
  have hword : 0 + (VariableRegion.payload image.variableValues).length < 0x8000 := by
    rw [Nat.zero_add]
    exact h.variableLength
  rw [← Nat.add_zero (_ + 2 * _)] at hpayload
  obtain ⟨region, hregion, hspans, hstop⟩ := VariableRegion.ofWords_endWords hpayload hword 128
  refine ⟨region, ?_, hspans, hstop⟩
  rw [VariableRegion.ofRow]
  simp only [hcount, hoffset]
  rw [if_neg (by omega), hwords, hregion]

/-! ## The schema -/

theorem forM_eq_ok {α : Type} {f : α → Except Error Unit} {items : List α}
    (h : ∀ item ∈ items, f item = .ok ()) : items.forM f = .ok () := by
  induction items with
  | nil => rfl
  | cons item items ih =>
    rw [List.forM_eq_forM, List.forM_cons, h item List.mem_cons_self]
    exact ih fun other hother => h other (List.mem_cons_of_mem _ hother)

theorem check_eq_ok (h : image.Fits schema format) : schema.check = .ok () := by
  have hcolumns : (schema.columns.forM fun column => column.columnType.map fun _ => ()) =
      .ok () := by
    apply forM_eq_ok
    intro column hcolumn
    have htype := h.types column hcolumn
    cases hcase : column.columnType with
    | ok type => rfl
    | error error => rw [hcase] at htype; cases htype
  have htemplate : schema.checkTemplate = .ok () := by
    have hstart := h.ownStart
    rw [RecordSchema.checkTemplate]
    cases htemplate : schema.template with
    | nil => rfl
    | cons base template =>
      cases hown : schema.own with
      | nil => rfl
      | cons first own =>
        rw [htemplate, hown] at hstart
        exact if_pos (hstart (List.cons_ne_nil _ _) first rfl)
  rw [RecordSchema.check, hcolumns]
  exact htemplate

/-! ## The slots -/

theorem isFixed_iff {column : SchemaEntry} :
    column.isFixed = true ↔ column.identifier.toNat ≤ 127 := by
  rw [SchemaEntry.isFixed, decide_eq_true_iff, UInt32.le_iff_toNat_le]
  rfl

variable {row : Bytes} {header : RowHeader} {region : VariableRegion} {tagged : List TaggedValue}
  {column : SchemaEntry}

theorem slot_of_not_isFixed (hspans : region.spans.map (·.map (·.cut row)) = image.variableValues)
    (htagged : column.isTagged → tagged = image.tagged) (h : column.isFixed = false)
    (offset : Nat) :
    Row.slot row header region tagged column offset = .ok (image.slot column) := by
  have hlt : ¬column.identifier.toNat ≤ 127 := by rw [← isFixed_iff, h]; exact Bool.false_ne_true
  rw [Row.slot, slot]
  simp only [if_neg hlt]
  split
  case isTrue hle =>
    rw [← hspans, List.getElem?_map]
    cases region.spans[column.identifier.toNat - 128]? with
    | none => rfl
    | some span => cases span <;> rfl
  case isFalse hle =>
    rw [htagged (SchemaEntry.isTagged_iff.mpr (Nat.lt_of_not_le hle))]

theorem slot_of_not_stores (hlast : header.lastFixed = image.lastFixed)
    (hfixed : column.isFixed = true) (h : image.stores column = false) (offset : Nat) :
    Row.slot row header region tagged column offset = .ok (image.slot column) := by
  have hlt : ¬column.identifier.toNat ≤ image.lastFixed.toNat := by
    rw [stores, hfixed, Bool.true_and, decide_eq_false_iff_not] at h
    exact h
  rw [Row.slot, slot]
  simp only [if_pos (isFixed_iff.mp hfixed), hlast]
  rw [if_pos (Nat.lt_of_not_le hlt), if_neg hlt]

theorem slot_of_stores {offset : Nat} {rest : Bytes} (hlast : header.lastFixed = image.lastFixed)
    (h : image.stores column)
    (hwidth : (image.fixed column.identifier).length = column.fixedWidth)
    (hrest : row.RestAt offset (image.fixed column.identifier ++ rest)) :
    Row.slot row header region tagged column offset = .ok (image.slot column) := by
  have hlength := hrest.append.length_eq
  rw [stores, Bool.and_eq_true, decide_eq_true_iff] at h
  rw [Row.slot, slot, Row.fixedSlot]
  simp only [if_pos (isFixed_iff.mp h.1), hlast]
  rw [if_neg (Nat.not_lt.mpr h.2), if_pos h.2, if_pos (by omega), ← hwidth, hrest.field]
  rfl

theorem fixedBytes_cons (column : SchemaEntry) (columns : List SchemaEntry) :
    image.fixedBytes (column :: columns) =
      (if image.stores column then image.fixed column.identifier else []) ++
        image.fixedBytes columns := by
  rw [fixedBytes, List.filter_cons]
  split <;> rfl

/-- A fixed column that is not stored is not followed by one that is. -/
theorem not_stores_of_lt {later : SchemaEntry} (hfixed : column.isFixed = true)
    (h : image.stores column = false) (hlt : column.identifier < later.identifier) :
    image.stores later = false := by
  rw [stores, hfixed, Bool.true_and, decide_eq_false_iff_not] at h
  rw [UInt32.lt_iff_toNat_lt] at hlt
  rw [stores, Bool.and_eq_false_iff, decide_eq_false_iff_not]
  exact .inr (by omega)

/-- The fixed ones among `columns` stand at `offset`, if any of them is stored. -/
def FixedAt (image : RowImage) (row : Bytes) (columns : List SchemaEntry) (offset : Nat) : Prop :=
  (∃ column ∈ columns, image.stores column) →
    ∃ rest, row.RestAt offset (image.fixedBytes columns ++ rest)

variable {columns : List SchemaEntry} {offset : Nat}

theorem FixedAt.slot_eq (h : image.FixedAt row (column :: columns) offset)
    (hlast : header.lastFixed = image.lastFixed)
    (hspans : region.spans.map (·.map (·.cut row)) = image.variableValues)
    (htagged : column.isTagged → tagged = image.tagged)
    (hwidth : image.stores column →
      (image.fixed column.identifier).length = column.fixedWidth) :
    Row.slot row header region tagged column offset = .ok (image.slot column) := by
  cases hfixed : column.isFixed with
  | false => exact slot_of_not_isFixed hspans htagged hfixed offset
  | true =>
    cases hstores : image.stores column with
    | false => exact slot_of_not_stores hlast hfixed hstores offset
    | true =>
      obtain ⟨rest, hrest⟩ := h ⟨column, List.mem_cons_self, hstores⟩
      rw [fixedBytes_cons, if_pos hstores, List.append_assoc] at hrest
      exact slot_of_stores hlast hstores (hwidth hstores) hrest

theorem FixedAt.next (h : image.FixedAt row (column :: columns) offset)
    (hinOrder : ∀ later ∈ columns, column.isFixed → later.isFixed →
      column.identifier < later.identifier)
    (hwidth : image.stores column →
      (image.fixed column.identifier).length = column.fixedWidth) :
    image.FixedAt row columns
      (if column.isFixed then offset + column.fixedWidth else offset) := by
  rintro ⟨later, hlater, hstored⟩
  obtain ⟨rest, hrest⟩ := h ⟨later, List.mem_cons_of_mem _ hlater, hstored⟩
  rw [fixedBytes_cons] at hrest
  refine ⟨rest, ?_⟩
  cases hstores : image.stores column with
  | true =>
    have hfixed : column.isFixed = true := (Bool.and_eq_true_iff.mp hstores).1
    rw [if_pos hstores, List.append_assoc] at hrest
    rw [if_pos hfixed, ← hwidth hstores]
    exact hrest.append
  | false =>
    -- `later` is stored, so this one is not a fixed column and takes no place.
    have hfixed : ¬column.isFixed = true := by
      intro hfixed
      have hlt := hinOrder later hlater hfixed (Bool.and_eq_true_iff.mp hstored).1
      rw [not_stores_of_lt hfixed hstores hlt] at hstored
      cases hstored
    rw [hstores, if_neg Bool.false_ne_true, List.nil_append] at hrest
    rw [if_neg hfixed]
    exact hrest

/-- **All columns are read**, one after the other. -/
theorem FixedAt.mapM_slot (h : image.FixedAt row columns offset)
    (hlast : header.lastFixed = image.lastFixed)
    (hspans : region.spans.map (·.map (·.cut row)) = image.variableValues)
    (htagged : ∀ column ∈ columns, column.isTagged → tagged = image.tagged)
    (hinOrder : columns.Pairwise fun column later =>
      column.isFixed → later.isFixed → column.identifier < later.identifier)
    (hwidths : ∀ column ∈ columns, image.stores column →
      (image.fixed column.identifier).length = column.fixedWidth) :
    ((RecordSchema.placesFrom offset columns).mapM fun (column, offset) =>
      Row.slot row header region tagged column offset) = .ok (columns.map image.slot) := by
  induction columns generalizing offset with
  | nil => rfl
  | cons column columns ih =>
    obtain ⟨hhead, htail⟩ := List.pairwise_cons.mp hinOrder
    have hwidth := hwidths column List.mem_cons_self
    have hslot := h.slot_eq hlast hspans (htagged column List.mem_cons_self) hwidth
    have hslots := ih (h.next hhead hwidth)
      (fun other hother => htagged other (List.mem_cons_of_mem _ hother)) htail
      (fun other hother => hwidths other (List.mem_cons_of_mem _ hother))
    rw [RecordSchema.placesFrom, List.mapM_cons, hslots]
    simp only [hslot]
    rfl

theorem readTagged_bytes {values : List TaggedValue} (h : TaggedValue.Fit format values)
    (position rowLength : Nat) :
    Row.readTagged (TaggedValue.bytes format values) position rowLength format = .ok values := by
  rw [Row.readTagged, TaggedValue.bytes]
  rw [TaggedValue.Fit] at h
  split
  case isTrue hlinear =>
    rw [if_pos hlinear] at h
    exact TaggedValue.readLinear_linearBytes h position rowLength
  case isFalse hlinear =>
    rw [if_neg hlinear] at h
    exact TaggedValue.readIndexed_indexedBytes h position rowLength

theorem not_isTagged_of_not_hasTagged (h : ¬schema.hasTagged = true) :
    ∀ column ∈ schema.columns, ¬column.isTagged = true :=
  List.any_eq_false.mp (Bool.eq_false_iff.mpr h)

/-- **The slots of a row are what was stored for the columns**, whatever follows its variable part, if
that is read as the tagged values. A schema without tagged columns does not look at it. -/
theorem slots_front (h : image.Fits schema format) {rest : Bytes}
    (htagged : schema.hasTagged = true → ∀ position rowLength,
      Row.readTagged rest position rowLength format = .ok image.tagged) :
    Row.slots (image.front schema ++ rest) schema format =
      .ok (schema.columns.map image.slot) := by
  obtain ⟨header, hheader, hlast, hcount, hoffset⟩ := rowHeader_front h rest
  obtain ⟨region, hregion, hspans, hstop⟩ := variableRegion_front h rest hcount hoffset
  have hfixed : image.FixedAt (image.front schema ++ rest) schema.columns 4 :=
    fun _ => ⟨_, image.restAt_fixed schema rest⟩
  have hinOrder := List.pairwise_filter.mp h.inOrder
  obtain ⟨tagged, hread, hsame⟩ : ∃ tagged,
      Row.taggedFor (image.front schema ++ rest) region schema format = .ok tagged ∧
        ∀ column ∈ schema.columns, column.isTagged = true → tagged = image.tagged := by
    by_cases hsome : schema.hasTagged = true
    · refine ⟨image.tagged, ?_, fun _ _ _ => rfl⟩
      rw [Row.taggedFor, if_pos hsome, hstop.2, htagged hsome]
    · have hnoTagged := not_isTagged_of_not_hasTagged hsome
      refine ⟨[], if_neg hsome, ?_⟩
      intro column hcolumn htagged
      exact absurd htagged (hnoTagged column hcolumn)
  have hslots := hfixed.mapM_slot hlast hspans hsame hinOrder h.widths
  exact Row.slots_eq_ok_iff.mpr
    ⟨header, region, tagged, hheader, check_eq_ok h, hregion, hread, hslots⟩

theorem slots_bytes (h : image.Fits schema format) :
    Row.slots (image.bytes schema format) schema format = .ok (schema.columns.map image.slot) :=
  slots_front h fun _ => readTagged_bytes h.tagged

end RowImage

/-- **Reading a row undoes writing it**, in each of the layouts of tagged values: the record has in
its slots what the image holds for the columns. -/
theorem Record.ofRow_bytes {image : RowImage} {schema : RecordSchema} {format : Format}
    (h : image.Fits schema format) (codepages : Codepages) :
    Record.ofRow (image.bytes schema format) schema format codepages =
      .ok ⟨image.bytes schema format, schema, codepages, schema.columns.map image.slot⟩ := by
  rw [Record.ofRow, RowImage.slots_bytes h]
  rfl

/-! A template of six columns, of which the third fixed one is too young for the row, and three
columns of the table itself. -/

def RecordSchema.sample : RecordSchema where
  template := [.plainColumn 1 .int32 "id", .plainColumn 2 .boolean "active",
    .plainColumn 3 .int64 "added later", .plainColumn 128 .text "name",
    .plainColumn 129 .binary "blob", .plainColumn 130 .text "empty"]
  own := [.plainColumn 256 .largeText "note", .plainColumn 257 .largeBinary "attachment",
    .plainColumn 258 .int64 "missing"]

def RowImage.sample : RowImage where
  lastFixed := 2
  fixed := fun identifier => if identifier = 1 then [42, 0, 0, 0] else [1]
  variableValues := [some [0x61, 0x6c, 0x69, 0x63, 0x65], none, some []]
  tagged := [⟨256, [0x68, 0x69], none⟩, ⟨257, [7, 0, 0, 0], some ⟨4⟩⟩]

theorem Record.ofRow_bytes_sample :
    RowImage.sample.Fits .sample .standard ∧
      (Record.ofRow (RowImage.sample.bytes .sample .standard) .sample .standard {}).map
        (·.slots) = .ok
          [some ⟨[42, 0, 0, 0], none⟩, some ⟨[1], none⟩, none,
            some ⟨[0x61, 0x6c, 0x69, 0x63, 0x65], none⟩, none, some ⟨[], none⟩,
            some ⟨[0x68, 0x69], none⟩, some ⟨[7, 0, 0, 0], some ⟨4⟩⟩, none] := by
  have hfits : RowImage.sample.Fits .sample .standard :=
    { types := by decide
      ownStart := by decide
      inOrder := by decide
      widths := by decide
      fixedLength := by decide
      variableCount := by decide
      variableLength := by decide
      tagged := by decide }
  refine ⟨hfits, ?_⟩
  rw [Record.ofRow_bytes hfits]
  rfl

end EseReader
