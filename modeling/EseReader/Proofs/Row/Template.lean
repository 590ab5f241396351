import EseReader.Proofs.Row.Slots
import Mathlib.Data.List.Nodup

/-!
# `EseReader/Proofs/Row/Template.lean` — which columns a tagged value goes to

A table that uses a template has two lists of columns, each with identifiers of its own, and one row
holds the values of both. A tagged value says for which identifier it is, and not for which list, and
the own columns of such a table **start where the tagged columns of a template start as well**. So a
value for an identifier that both lists have is delivered twice.

That a value fills a slot is said here without regard to how it is looked for: whatever the value
were, it would be what the slot holds (`Row.FilledBy`). Two equal values of one row do not have that
in common. A value fills the slots of its identifier, which is one slot of each list at most
(`Row.Delivered`), and one slot in all where no identifier is in both lists
(`RecordSchema.Apart`).
-/

set_option autoImplicit false

namespace EseReader

/-! ## Identifiers -/

theorem eq_of_getElem?_of_nodup_map {α β : Type} {items : List α} {key : α → β}
    (h : (items.map key).Nodup) {first second : Nat} {item other : α}
    (hitem : items[first]? = some item) (hother : items[second]? = some other)
    (hkey : key item = key other) : first = second := by
  have hlength : first < (items.map key).length := by
    rw [List.length_map]
    exact (List.getElem?_eq_some_iff.mp hitem).1
  refine (List.getElem?_inj hlength h).mp ?_
  rw [List.getElem?_map, List.getElem?_map, hitem, hother]
  exact congrArg some hkey

/-- Columns of one identifier: a list has one of them at most, so the first one is of the template
and the second one is not. -/
theorem RecordSchema.one_of_each_of_identifier_eq {schema : RecordSchema}
    (htemplate : (schema.template.map (·.identifier)).Nodup)
    (hown : (schema.own.map (·.identifier)).Nodup) {first second : Nat}
    {column other : SchemaEntry} (hfirst : schema.columns[first]? = some column)
    (hsecond : schema.columns[second]? = some other) (h : column.identifier = other.identifier)
    (hlt : first < second) : first < schema.template.length ∧ schema.template.length ≤ second := by
  rw [columns] at hfirst hsecond
  rcases Nat.lt_or_ge second schema.template.length with hsplit | hsplit
  · rw [List.getElem?_append_left (Nat.lt_trans hlt hsplit)] at hfirst
    rw [List.getElem?_append_left hsplit] at hsecond
    exact absurd (eq_of_getElem?_of_nodup_map htemplate hfirst hsecond h) (Nat.ne_of_lt hlt)
  · refine ⟨Nat.lt_of_not_le fun hlater => ?_, hsplit⟩
    rw [List.getElem?_append_right hlater] at hfirst
    rw [List.getElem?_append_right hsplit] at hsecond
    have hsame := eq_of_getElem?_of_nodup_map hown hfirst hsecond h
    omega

/-- No tagged column of the template shares its identifier with an own column. -/
def RecordSchema.Apart (schema : RecordSchema) : Prop :=
  ∀ column ∈ schema.template, column.isTagged = true →
    ∀ other ∈ schema.own, other.identifier ≠ column.identifier

instance (schema : RecordSchema) : Decidable schema.Apart :=
  inferInstanceAs (Decidable (∀ column ∈ schema.template, column.isTagged = true →
    ∀ other ∈ schema.own, other.identifier ≠ column.identifier))

theorem RecordSchema.Apart.identifier_ne {schema : RecordSchema} (h : schema.Apart)
    {first second : Nat} {column other : SchemaEntry}
    (hfirst : schema.columns[first]? = some column)
    (hsecond : schema.columns[second]? = some other) (htagged : column.isTagged = true)
    (htemplate : first < schema.template.length) (hown : schema.template.length ≤ second) :
    column.identifier ≠ other.identifier := by
  rw [columns, List.getElem?_append_left htemplate] at hfirst
  rw [columns, List.getElem?_append_right hown] at hsecond
  exact (h column (List.mem_of_getElem? hfirst) htagged other (List.mem_of_getElem? hsecond)).symm

namespace Row

variable {row : Bytes} {schema : RecordSchema} {format : Format} {header : RowHeader}
  {region : VariableRegion} {tagged : List TaggedValue} {column : SchemaEntry}
  {offset index place : Nat} {found : List (Option StoredValue)}

/-! ## One column -/

/-- Whatever the tagged value at `place` were, it would be what is found for the column. -/
def Fills (row : Bytes) (header : RowHeader) (region : VariableRegion) (tagged : List TaggedValue)
    (column : SchemaEntry) (offset place : Nat) : Prop :=
  ∃ entry, tagged[place]? = some entry ∧ ∀ value,
    slot row header region (tagged.set place ⟨entry.column, value⟩) column offset = .ok (some value)

/-- Where the tagged value for a column is, or the number of values if there is none. -/
def placeOf (tagged : List TaggedValue) (column : SchemaEntry) : Nat :=
  tagged.findIdx (·.column.toNat == column.identifier.toNat)

theorem slot_eq_placeOf (h : column.isTagged = true) (offset : Nat) :
    slot row header region tagged column offset =
      .ok (tagged[placeOf tagged column]?.map (·.value)) := by
  rw [slot_of_isTagged h, List.find?_eq_getElem?_findIdx]
  rfl

/-- The place of a value depends on the columns alone. -/
theorem placeOf_set {entry : TaggedValue} (hentry : tagged[place]? = some entry)
    (value : StoredValue) :
    placeOf (tagged.set place ⟨entry.column, value⟩) column = placeOf tagged column := by
  induction tagged generalizing place with
  | nil => rfl
  | cons first tagged ih =>
    cases place with
    | zero =>
      cases hentry
      simp only [placeOf, List.set_cons_zero, List.findIdx_cons]
    | succ place =>
      have hrest := ih hentry
      simp only [placeOf] at hrest
      simp only [placeOf, List.set_cons_succ, List.findIdx_cons, hrest]

/-- A value that is not the one looked for has no part in what is found. -/
theorem slot_set_of_ne {entry : TaggedValue} (hentry : tagged[place]? = some entry)
    (h : column.isTagged = true → placeOf tagged column ≠ place) (value : StoredValue) :
    slot row header region (tagged.set place ⟨entry.column, value⟩) column offset =
      slot row header region tagged column offset := by
  by_cases htagged : column.isTagged = true
  · rw [slot_eq_placeOf htagged, slot_eq_placeOf htagged, placeOf_set hentry,
      List.getElem?_set_ne (h htagged).symm]
  · exact slot_congr (fun hcontra => absurd hcontra htagged) offset

theorem fills_iff :
    Fills row header region tagged column offset place ↔
      column.isTagged = true ∧ place < tagged.length ∧ placeOf tagged column = place := by
  constructor
  · rintro ⟨entry, hentry, hvalue⟩
    have hplace := (List.getElem?_eq_some_iff.mp hentry).1
    refine Decidable.byContradiction fun hnot => ?_
    have hsame : ∀ value,
        slot row header region (tagged.set place ⟨entry.column, value⟩) column offset =
          slot row header region tagged column offset :=
      slot_set_of_ne hentry fun htagged hat => hnot ⟨htagged, hplace, hat⟩
    -- What is found would have to be both of two values that differ.
    have hone := (hsame ⟨[], none⟩).symm.trans (hvalue ⟨[], none⟩)
    have hother := (hsame ⟨[0], none⟩).symm.trans (hvalue ⟨[0], none⟩)
    cases hone.symm.trans hother
  · rintro ⟨htagged, hplace, hat⟩
    refine ⟨tagged[place], List.getElem?_eq_getElem hplace, fun value => ?_⟩
    rw [slot_eq_placeOf htagged, placeOf_set (List.getElem?_eq_getElem hplace), hat,
      List.getElem?_set_self hplace]
    rfl

theorem slot_of_fills {entry : TaggedValue}
    (h : Fills row header region tagged column offset place)
    (hentry : tagged[place]? = some entry) :
    slot row header region tagged column offset = .ok (some entry.value) := by
  obtain ⟨entry', hentry', hvalue⟩ := h
  cases hentry.symm.trans hentry'
  obtain ⟨hplace, rfl⟩ := List.getElem?_eq_some_iff.mp hentry
  have hsame : tagged.set place ⟨tagged[place].column, tagged[place].value⟩ = tagged :=
    List.set_getElem_self hplace
  rw [← hvalue tagged[place].value, hsame]

theorem fills_iff_exists (h : (tagged.map (·.column)).Nodup) :
    Fills row header region tagged column offset place ↔
      column.isTagged = true ∧ ∃ entry, tagged[place]? = some entry ∧
        entry.column.toNat = column.identifier.toNat := by
  rw [fills_iff]
  refine and_congr_right fun _ => ⟨?_, ?_⟩
  · rintro ⟨hplace, hat⟩
    refine ⟨tagged[place], List.getElem?_eq_getElem hplace, ?_⟩
    have hfound : placeOf tagged column < tagged.length := by rw [hat]; exact hplace
    have hmatch := List.findIdx_getElem (w := hfound)
    subst hat
    exact eq_of_beq hmatch
  · rintro ⟨entry, hentry, hmatch⟩
    obtain ⟨hplace, rfl⟩ := List.getElem?_eq_some_iff.mp hentry
    refine ⟨hplace, (List.findIdx_eq hplace).mpr ⟨beq_iff_eq.mpr hmatch, fun earlier hearlier => ?_⟩⟩
    -- An earlier one of that column would be the same one.
    refine Bool.eq_false_iff.mpr fun hsame => Nat.ne_of_lt hearlier ?_
    refine eq_of_getElem?_of_nodup_map h
      (List.getElem?_eq_getElem (Nat.lt_trans hearlier hplace)) hentry (UInt16.toNat_inj.mp ?_)
    exact (eq_of_beq hsame).trans hmatch.symm

/-! ## The columns of both lists -/

/-- The tagged values of a row, as far as the schema has a use for them. -/
def taggedOf (row : Bytes) (schema : RecordSchema) (format : Format) :
    Except Error (List TaggedValue) := do
  let header ← RowHeader.ofRow row
  let region ← VariableRegion.ofRow row header
  taggedFor row region schema format

/-- The tagged value at `place` is what the slot at `index` holds. -/
def FilledBy (row : Bytes) (schema : RecordSchema) (format : Format) (index place : Nat) : Prop :=
  ∃ header region tagged column offset, RowHeader.ofRow row = .ok header ∧
    VariableRegion.ofRow row header = .ok region ∧
    taggedFor row region schema format = .ok tagged ∧
    schema.places[index]? = some (column, offset) ∧
    Fills row header region tagged column offset place

/-- How the tagged values of a row get to the slots of its columns. -/
structure Delivered (row : Bytes) (schema : RecordSchema) (format : Format)
    (tagged : List TaggedValue) (found : List (Option StoredValue)) : Prop where
  /-- A value fills the slots of the tagged columns with its identifier, and no others. -/
  filledBy_iff : ∀ index place, FilledBy row schema format index place ↔
    ∃ column entry, schema.columns[index]? = some column ∧ column.isTagged = true ∧
      tagged[place]? = some entry ∧ entry.column.toNat = column.identifier.toNat
  found_of_filledBy : ∀ {index place entry}, FilledBy row schema format index place →
    tagged[place]? = some entry → found[index]? = some (some entry.value)
  /-- What fills two slots fills one of a template column and one of an own column. -/
  one_of_each_list : ∀ {first second place}, FilledBy row schema format first place →
    FilledBy row schema format second place → first < second →
    first < schema.template.length ∧ schema.template.length ≤ second
  /-- Lists that are apart have one slot for a value. -/
  one_of_both_lists : schema.Apart → ∀ {first second place},
    FilledBy row schema format first place → FilledBy row schema format second place →
    first = second

theorem filledBy_iff (htagged : taggedOf row schema format = .ok tagged)
    (h : (tagged.map (·.column)).Nodup) :
    FilledBy row schema format index place ↔
      ∃ column entry, schema.columns[index]? = some column ∧ column.isTagged = true ∧
        tagged[place]? = some entry ∧ entry.column.toNat = column.identifier.toNat := by
  obtain ⟨header, hheader, hrest⟩ := bind_eq_ok_iff.mp htagged
  obtain ⟨region, hregion, htagged⟩ := bind_eq_ok_iff.mp hrest
  rw [← schema.map_fst_places]
  simp only [List.getElem?_map]
  constructor
  · rintro ⟨header', region', tagged', column, offset, hheader', hregion', htagged', hcolumn, hfills⟩
    cases hheader.symm.trans hheader'
    cases hregion.symm.trans hregion'
    cases htagged.symm.trans htagged'
    obtain ⟨hhigh, entry, hentry, hmatch⟩ := (fills_iff_exists h).mp hfills
    exact ⟨column, entry, by rw [hcolumn]; rfl, hhigh, hentry, hmatch⟩
  · rintro ⟨column, entry, hcolumn, hhigh, hentry, hmatch⟩
    obtain ⟨⟨_, offset⟩, hplace, rfl⟩ := Option.map_eq_some_iff.mp hcolumn
    exact ⟨header, region, tagged, _, offset, hheader, hregion, htagged, hplace,
      (fills_iff_exists h).mpr ⟨hhigh, entry, hentry, hmatch⟩⟩

theorem found_of_filledBy (hfound : slots row schema format = .ok found)
    (htagged : taggedOf row schema format = .ok tagged) {entry : TaggedValue}
    (h : FilledBy row schema format index place) (hentry : tagged[place]? = some entry) :
    found[index]? = some (some entry.value) := by
  obtain ⟨header, region, tagged', column, offset, hheader, hregion, htagged', hcolumn, hfills⟩ := h
  obtain ⟨header', region', tagged'', hheader', -, hregion', htagged'', hslots⟩ :=
    slots_eq_ok_iff.mp hfound
  cases hheader.symm.trans hheader'
  cases hregion.symm.trans hregion'
  cases htagged'.symm.trans htagged''
  have hsame : taggedOf row schema format = .ok tagged' :=
    bind_eq_ok_iff.mpr ⟨header, hheader, bind_eq_ok_iff.mpr ⟨region, hregion, htagged'⟩⟩
  cases hsame.symm.trans htagged
  obtain ⟨result, hslot, hat⟩ := exists_getElem?_of_mapM hslots hcolumn
  cases hslot.symm.trans (slot_of_fills hfills hentry)
  exact hat

/-- Slots that hold one value are slots of columns with one identifier. -/
theorem exists_columns_of_filledBy (htagged : taggedOf row schema format = .ok tagged)
    (hentries : (tagged.map (·.column)).Nodup) {first second : Nat}
    (hfirst : FilledBy row schema format first place)
    (hsecond : FilledBy row schema format second place) :
    ∃ column other, schema.columns[first]? = some column ∧ schema.columns[second]? = some other ∧
      column.isTagged = true ∧ column.identifier = other.identifier := by
  obtain ⟨column, entry, hcolumn, hhigh, hentry, hmatch⟩ :=
    (filledBy_iff htagged hentries).mp hfirst
  obtain ⟨other, entry', hother, -, hentry', hmatch'⟩ := (filledBy_iff htagged hentries).mp hsecond
  cases hentry.symm.trans hentry'
  exact ⟨column, other, hcolumn, hother, hhigh, UInt32.toNat_inj.mp (hmatch.symm.trans hmatch')⟩

/-- **A value goes to one column of each list at most**, and to one of both lists exactly if both
have a tagged column of its identifier. -/
theorem fills_one_slot_of_each_list (hfound : slots row schema format = .ok found)
    (htemplate : (schema.template.map (·.identifier)).Nodup)
    (hown : (schema.own.map (·.identifier)).Nodup)
    (htagged : taggedOf row schema format = .ok tagged)
    (hentries : (tagged.map (·.column)).Nodup) :
    Delivered row schema format tagged found := by
  have hsplit : ∀ {first second place}, FilledBy row schema format first place →
      FilledBy row schema format second place → first < second →
      first < schema.template.length ∧ schema.template.length ≤ second := by
    intro first second place hfirst hsecond hlt
    obtain ⟨column, other, hcolumn, hother, -, hsame⟩ :=
      exists_columns_of_filledBy htagged hentries hfirst hsecond
    exact schema.one_of_each_of_identifier_eq htemplate hown hcolumn hother hsame hlt
  have hclash : schema.Apart → ∀ {first second place}, FilledBy row schema format first place →
      FilledBy row schema format second place → ¬first < second := by
    intro hapart first second place hfirst hsecond hlt
    obtain ⟨column, other, hcolumn, hother, hhigh, hsame⟩ :=
      exists_columns_of_filledBy htagged hentries hfirst hsecond
    obtain ⟨hbefore, hbehind⟩ := hsplit hfirst hsecond hlt
    exact hapart.identifier_ne hcolumn hother hhigh hbefore hbehind hsame
  exact {
    filledBy_iff := fun _ _ => filledBy_iff htagged hentries
    found_of_filledBy := fun h hentry => found_of_filledBy hfound htagged h hentry
    one_of_each_list := hsplit
    one_of_both_lists := fun hapart _ _ _ hfirst hsecond =>
      Nat.le_antisymm (Nat.le_of_not_lt (hclash hapart hsecond hfirst))
        (Nat.le_of_not_lt (hclash hapart hfirst hsecond)) }

end Row

/-- A title and a body from the template, and two columns more. -/
def RecordSchema.letter : RecordSchema where
  template := [.plainColumn 128 .text "title", .plainColumn 257 .binary "body"]
  own := [.plainColumn 256 .binary "extra", .plainColumn 258 .binary "more"]

/-- A row with a title, an extra and a body. -/
def Row.letter : Bytes :=
  [0, 128, 4, 0, 1, 0, 0x74, 0, 1, 8, 0, 1, 1, 9, 0, 0x7a, 0x62]

theorem Row.fills_one_slot_of_each_list_sample :
    let found := [some ⟨[0x74], none⟩, some ⟨[0x62], none⟩, some ⟨[0x7a], none⟩, none]
    let tagged := [⟨256, [0x7a], none⟩, ⟨257, [0x62], none⟩]
    slots Row.letter .letter .standard = .ok found ∧
      taggedOf Row.letter .letter .standard = .ok tagged ∧
      Delivered Row.letter .letter .standard tagged found ∧
      FilledBy Row.letter .letter .standard 2 0 ∧ FilledBy Row.letter .letter .standard 1 1 ∧
      ∀ first second place, FilledBy Row.letter .letter .standard first place →
        FilledBy Row.letter .letter .standard second place → first = second := by
  intro found tagged
  have hfound : slots Row.letter .letter .standard = .ok found := by decide +kernel
  have htagged : taggedOf Row.letter .letter .standard = .ok tagged := by decide +kernel
  have hdelivered : Delivered Row.letter .letter .standard tagged found :=
    fills_one_slot_of_each_list hfound (by decide) (by decide) htagged (by decide)
  refine ⟨hfound, htagged, hdelivered, ?_, ?_, ?_⟩
  · exact (hdelivered.filledBy_iff 2 0).mpr ⟨_, _, rfl, by decide, rfl, by decide⟩
  · exact (hdelivered.filledBy_iff 1 1).mpr ⟨_, _, rfl, by decide, rfl, by decide⟩
  · exact fun _ _ _ hfirst hsecond => hdelivered.one_of_both_lists (by decide) hfirst hsecond

/-- A template with a tagged column, and a table with a column of its own. -/
def RecordSchema.overlapping : RecordSchema where
  template := [.plainColumn 256 .binary "base"]
  own := [.plainColumn 256 .binary "extra"]

/-- A row with a single value. -/
def Row.overlapping : Bytes := [0, 127, 4, 0, 0, 1, 4, 0, 0x7a, 0x7a]

/-- Lists with one column each, a row with one value, and the value is delivered twice. -/
theorem Row.fills_two_slots :
    (RecordSchema.overlapping.template.map (·.identifier)).Nodup ∧
      (RecordSchema.overlapping.own.map (·.identifier)).Nodup ∧
      slots Row.overlapping .overlapping .standard =
        .ok [some ⟨[0x7a, 0x7a], none⟩, some ⟨[0x7a, 0x7a], none⟩] ∧
      (∃ tagged, taggedOf Row.overlapping .overlapping .standard = .ok tagged ∧
        (tagged.map (·.column)).Nodup) ∧
      ¬∀ first second place, FilledBy Row.overlapping .overlapping .standard first place →
        FilledBy Row.overlapping .overlapping .standard second place → first = second := by
  have htagged : taggedOf Row.overlapping .overlapping .standard =
      .ok [⟨256, [0x7a, 0x7a], none⟩] := by decide +kernel
  refine ⟨by decide, by decide, by decide +kernel, ⟨_, htagged, by decide⟩, fun hone => ?_⟩
  have hbase : FilledBy Row.overlapping .overlapping .standard 0 0 :=
    (filledBy_iff htagged (by decide)).mpr ⟨_, _, rfl, by decide, rfl, by decide⟩
  have hextra : FilledBy Row.overlapping .overlapping .standard 1 0 :=
    (filledBy_iff htagged (by decide)).mpr ⟨_, _, rfl, by decide, rfl, by decide⟩
  exact absurd (hone 0 1 0 hbase hextra) (by decide)

end EseReader
