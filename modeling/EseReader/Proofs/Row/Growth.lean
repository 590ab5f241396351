import EseReader.Proofs.Row.Slots
import EseReader.Proofs.Row.Variable

/-!
# `EseReader/Proofs/Row/Growth.lean` — rows that are older than the columns of their table

A column that a table gets later joins the end of its columns, and the rows that are there already
stay as they are. Reading them is another run of the reader then: more columns are checked, the
tagged part may be looked at where it was not before, and there are more places for fixed columns.
None of it reaches the slots of the columns that were there. The checks and the places go from the
first column on, and the tagged values matter to tagged columns alone, which is where the shorter
schema looks at them as well.

So the record of the shorter schema is the front of the other one (`Row.slots_of_grow`). In the rest
of it every column is absent that the row does not store (`Row.Lacks`). A row that stores none of the
new columns asks for nothing that it does not have, and is read as before (`Row.slots_grow_of_lacks`).
-/

set_option autoImplicit false

namespace EseReader

/-! ## Schemas -/

namespace RecordSchema

/-- The schema of a table that has got more columns. -/
def grow (schema : RecordSchema) (added : List SchemaEntry) : RecordSchema :=
  { schema with own := schema.own ++ added }

variable {schema : RecordSchema} {added : List SchemaEntry}

theorem columns_grow : (schema.grow added).columns = schema.columns ++ added :=
  (List.append_assoc _ _ _).symm

theorem size_grow : (schema.grow added).size = schema.size + added.length := by
  rw [size, columns_grow, List.length_append]
  rfl

theorem hasTagged_grow :
    (schema.grow added).hasTagged = (schema.hasTagged || added.any (·.isTagged)) := by
  rw [hasTagged, columns_grow, List.any_append]
  rfl

theorem exists_places_grow (schema : RecordSchema) (added : List SchemaEntry) :
    ∃ next, (schema.grow added).places = schema.places ++ placesFrom next added := by
  rw [places, columns_grow]
  exact exists_placesFrom_append 4 schema.columns added

/-- If a table has no columns of its own the first of the new ones has to have the right number, and
otherwise nothing is asked of them. -/
theorem checkTemplate_of_grow (h : (schema.grow added).checkTemplate = .ok ()) :
    schema.checkTemplate = .ok () := by
  obtain ⟨template, own⟩ := schema
  cases own with
  | nil => cases template <;> rfl
  | cons first own => cases template <;> exact h

theorem check_of_grow (h : (schema.grow added).check = .ok ()) : schema.check = .ok () := by
  rw [check, columns_grow, List.forM_eq_forM, List.forM_append] at h
  obtain ⟨_, hcolumns, htemplate⟩ := bind_eq_ok_iff.mp h
  obtain ⟨_, hschema, -⟩ := bind_eq_ok_iff.mp hcolumns
  exact bind_eq_ok_iff.mpr ⟨(), hschema, checkTemplate_of_grow htemplate⟩

end RecordSchema

namespace Row

variable {row : Bytes} {schema : RecordSchema} {added : List SchemaEntry} {format : Format}
  {header : RowHeader} {region : VariableRegion} {column : SchemaEntry}
  {found : List (Option StoredValue)}

/-! ## The columns that were there -/

/-- The shorter schema looks at the same tagged values, or at none and has no use for them. -/
theorem exists_taggedFor_of_grow {tagged : List TaggedValue}
    (h : taggedFor row region (schema.grow added) format = .ok tagged) :
    ∃ fewer, taggedFor row region schema format = .ok fewer ∧
      ∀ column ∈ schema.columns, column.isTagged = true → fewer = tagged := by
  by_cases hschema : schema.hasTagged = true
  · have hgrown : (schema.grow added).hasTagged = true := by
      rw [RecordSchema.hasTagged_grow, hschema]
      rfl
    rw [taggedFor, if_pos hgrown] at h
    refine ⟨tagged, ?_, fun _ _ _ => rfl⟩
    rw [taggedFor, if_pos hschema, h]
  · refine ⟨[], if_neg hschema, ?_⟩
    intro column hcolumn htagged
    exact absurd (List.any_eq_true.mpr ⟨column, hcolumn, htagged⟩) hschema

theorem mapM_slot_congr {fewer tagged : List TaggedValue}
    (hsame : ∀ column ∈ schema.columns, column.isTagged = true → fewer = tagged) :
    (schema.places.mapM fun place => slot row header region fewer place.1 place.2) =
      schema.places.mapM fun place => slot row header region tagged place.1 place.2 := by
  apply mapM_congr
  intro place hplace
  have hcolumn : place.1 ∈ schema.columns := RecordSchema.fst_mem_of_mem_placesFrom hplace
  exact slot_congr (hsame place.1 hcolumn) place.2

/-- The places of the first columns are the same, and what is found at a place as well. -/
theorem slots_of_grow (h : slots row (schema.grow added) format = .ok found) :
    slots row schema format = .ok (found.take schema.size) := by
  obtain ⟨header, region, tagged, hheader, hcheck, hregion, htagged, hfound⟩ :=
    slots_eq_ok_iff.mp h
  obtain ⟨fewer, hfewer, hsame⟩ := exists_taggedFor_of_grow htagged
  obtain ⟨next, hplaces⟩ := RecordSchema.exists_places_grow schema added
  rw [hplaces] at hfound
  obtain ⟨front, back, hfront, -, rfl⟩ := mapM_append_eq_ok_iff.mp hfound
  rw [← mapM_slot_congr hsame] at hfront
  have hschema : slots row schema format = .ok front :=
    slots_eq_ok_iff.mpr ⟨header, region, fewer, hheader, RecordSchema.check_of_grow hcheck, hregion,
      hfewer, hfront⟩
  rw [← length_of_slots hschema, List.take_left]
  exact hschema

/-! ## The columns that were added -/

/-- The row does not store the column: its number is above the last one of its kind in the row, or
there is no tagged value for it. -/
inductive Lacks (row : Bytes) (format : Format) (column : SchemaEntry) : Prop
  | pastFixed {header : RowHeader} (hheader : RowHeader.ofRow row = .ok header)
    (hkind : column.identifier.toNat ≤ 127)
    (hpast : header.lastFixed.toNat < column.identifier.toNat)
  | pastVariable {header : RowHeader} (hheader : RowHeader.ofRow row = .ok header)
    (hkind : 128 ≤ column.identifier.toNat ∧ column.identifier.toNat ≤ 255)
    (hpast : header.lastVariable.toNat < column.identifier.toNat)
  | noTagged {header : RowHeader} {region : VariableRegion} {tagged : List TaggedValue}
    (hheader : RowHeader.ofRow row = .ok header)
    (hregion : VariableRegion.ofRow row header = .ok region)
    (htagged : readTagged (row.drop region.stop) region.stop row.length format = .ok tagged)
    (hkind : 256 ≤ column.identifier.toNat)
    (hnone : ∀ value ∈ tagged, value.column.toNat ≠ column.identifier.toNat)

theorem slot_of_lacks (hheader : RowHeader.ofRow row = .ok header)
    (hregion : VariableRegion.ofRow row header = .ok region) {tagged : List TaggedValue}
    (htagged : taggedFor row region schema format = .ok tagged) (hcolumn : column ∈ schema.columns)
    (h : Lacks row format column) (offset : Nat) :
    slot row header region tagged column offset = .ok none := by
  cases h with
  | pastFixed hheader' hkind hpast =>
    cases hheader.symm.trans hheader'
    simp only [slot]
    rw [if_pos hkind, if_pos hpast]
  | pastVariable hheader' hkind hpast =>
    cases hheader.symm.trans hheader'
    have hlength := VariableRegion.length_spans_of_ofRow hregion
    unfold RowHeader.variableCount at hlength
    have hbehind : region.spans.length ≤ column.identifier.toNat - 128 := by omega
    simp only [slot]
    rw [if_neg (by omega), if_pos hkind.2, List.getElem?_eq_none hbehind]
    rfl
  | noTagged hheader' hregion' htagged' hkind hnone =>
    cases hheader.symm.trans hheader'
    cases hregion.symm.trans hregion'
    have hisTagged := SchemaEntry.isTagged_iff.mpr hkind
    have hhas : schema.hasTagged = true := List.any_eq_true.mpr ⟨column, hcolumn, hisTagged⟩
    rw [taggedFor, if_pos hhas] at htagged
    cases htagged.symm.trans htagged'
    have hfind : (tagged.find? fun value => value.column.toNat == column.identifier.toNat) = none :=
      List.find?_eq_none.mpr fun value hvalue h => hnone value hvalue (beq_iff_eq.mp h)
    rw [slot_of_isTagged hisTagged, hfind]
    rfl

theorem slots_of_lacks (h : slots row schema format = .ok found) {index : Nat}
    (hcolumn : schema.columns[index]? = some column) (hlacks : Lacks row format column) :
    found[index]? = some none := by
  obtain ⟨header, region, tagged, hheader, hregion, htagged, hslots⟩ := exists_slot_of_slots h
  obtain ⟨offset, result, hslot, hat⟩ := hslots index column hcolumn
  rw [slot_of_lacks hheader hregion htagged (List.mem_of_getElem? hcolumn) hlacks] at hslot
  cases hslot
  exact hat

/-- A row that stores none of the new columns has a tagged part that can be read, if one of them is
a tagged one. -/
theorem exists_taggedFor_grow (hheader : RowHeader.ofRow row = .ok header)
    (hregion : VariableRegion.ofRow row header = .ok region) {tagged : List TaggedValue}
    (htagged : taggedFor row region schema format = .ok tagged)
    (hlacks : ∀ column ∈ added, Lacks row format column) :
    ∃ more, taggedFor row region (schema.grow added) format = .ok more := by
  by_cases hgrown : (schema.grow added).hasTagged = true
  · rw [taggedFor, if_pos hgrown]
    by_cases hschema : schema.hasTagged = true
    · rw [taggedFor, if_pos hschema] at htagged
      exact ⟨tagged, htagged⟩
    · rw [RecordSchema.hasTagged_grow, Bool.or_eq_true, or_iff_right hschema] at hgrown
      obtain ⟨column, hcolumn, hisTagged⟩ := List.any_eq_true.mp hgrown
      have hkind := SchemaEntry.isTagged_iff.mp hisTagged
      cases hlacks column hcolumn with
      | pastFixed _ hfixed => omega
      | pastVariable _ hvariable => omega
      | noTagged hheader' hregion' hread =>
        cases hheader.symm.trans hheader'
        cases hregion.symm.trans hregion'
        exact ⟨_, hread⟩
  · exact ⟨[], if_neg hgrown⟩

/-- **A row that is older than all the new columns can still be read**, and there is nothing for
them, whatever they are, as long as rows can be read against the schema at all. -/
theorem slots_grow_of_lacks (h : slots row schema format = .ok found)
    (hcheck : (schema.grow added).check = .ok ())
    (hlacks : ∀ column ∈ added, Lacks row format column) :
    slots row (schema.grow added) format = .ok (found ++ List.replicate added.length none) := by
  obtain ⟨header, region, tagged, hheader, -, hregion, htagged, hfound⟩ := slots_eq_ok_iff.mp h
  obtain ⟨more, hmore⟩ := exists_taggedFor_grow hheader hregion htagged hlacks
  obtain ⟨fewer, hfewer, hsame⟩ := exists_taggedFor_of_grow hmore
  cases htagged.symm.trans hfewer
  obtain ⟨next, hplaces⟩ := RecordSchema.exists_places_grow schema added
  have hadded : ((RecordSchema.placesFrom next added).mapM fun place =>
      slot row header region more place.1 place.2) = .ok (List.replicate added.length none) := by
    have hlength := congrArg List.length (RecordSchema.map_fst_placesFrom next added)
    rw [List.length_map] at hlength
    rw [← hlength]
    apply mapM_eq_replicate
    intro place hplace
    have hcolumn := RecordSchema.fst_mem_of_mem_placesFrom hplace
    have hgrown : place.1 ∈ (schema.grow added).columns := by
      rw [RecordSchema.columns_grow]
      exact List.mem_append_right _ hcolumn
    exact slot_of_lacks hheader hregion hmore hgrown (hlacks place.1 hcolumn) place.2
  rw [mapM_slot_congr hsame] at hfound
  refine slots_eq_ok_iff.mpr ⟨header, region, more, hheader, hcheck, hregion, hmore, ?_⟩
  rw [hplaces]
  exact mapM_append_eq_ok_iff.mpr ⟨found, _, hfound, hadded, rfl⟩

/-! ## The whole record -/

/-- **Adding columns to a table does not change how its old rows read.** If a row can be read with
the new columns then it can be read without them, and the record has the same slots for the columns
that were there. In the longer record there is nothing for a new column that the row does not
store. And a row that stores none of them can still be read with them, if rows can be read against
the longer schema at all. -/
theorem slots_grow (row : Bytes) (schema : RecordSchema) (added : List SchemaEntry)
    (format : Format) :
    (∀ found, slots row (schema.grow added) format = .ok found →
      slots row schema format = .ok (found.take schema.size) ∧
        found.length = schema.size + added.length ∧
        ∀ (index : Nat) (column : SchemaEntry), added[index]? = some column →
          Lacks row format column → found[schema.size + index]? = some none) ∧
      ∀ found, slots row schema format = .ok found → (schema.grow added).check = .ok () →
        (∀ column ∈ added, Lacks row format column) →
        slots row (schema.grow added) format =
          .ok (found ++ List.replicate added.length none) := by
  refine ⟨fun found h => ⟨slots_of_grow h, ?_, ?_⟩, fun found => slots_grow_of_lacks⟩
  · rw [length_of_slots h, RecordSchema.size_grow]
  · intro index column hcolumn hlacks
    have hgrown : (schema.grow added).columns[schema.size + index]? = some column := by
      rw [RecordSchema.columns_grow, RecordSchema.size, List.getElem?_append_right (by omega),
        Nat.add_sub_cancel_left, hcolumn]
    exact slots_of_lacks h hgrown hlacks

end Row

/-! A row with one column of each kind, and a schema that does not look at the tagged one yet. That
is the first of the new columns, and the row stores none of the others. -/

def Row.older : Bytes := [1, 128, 5, 0, 42, 1, 0, 0x61, 0, 1, 4, 0, 0x62]

def RecordSchema.older : RecordSchema where
  template := []
  own := [.plainColumn 1 .uint8 "count", .plainColumn 128 .text "name"]

def SchemaEntry.missing : List SchemaEntry :=
  [.plainColumn 2 .int64 "added", .plainColumn 129 .binary "blob",
    .plainColumn 257 .largeText "comment"]

def SchemaEntry.newer : List SchemaEntry := .plainColumn 256 .largeText "note" :: missing

theorem Row.lacks_missing : ∀ column ∈ SchemaEntry.missing, Row.Lacks Row.older .standard column := by
  have hregion : VariableRegion.ofRow Row.older ⟨1, 128, 5⟩ = .ok ⟨[some ⟨7, 8⟩], 8⟩ := by decide
  refine List.forall_mem_cons.mpr ⟨?_, List.forall_mem_cons.mpr ⟨?_, List.forall_mem_singleton.mpr ?_⟩⟩
  · exact .pastFixed rfl (by decide) (by decide)
  · exact .pastVariable rfl (by decide) (by decide)
  · exact .noTagged rfl hregion rfl (by decide) (by decide)

theorem Row.slots_grow_sample :
    let found := [some ⟨[42], none⟩, some ⟨[0x61], none⟩, some ⟨[0x62], none⟩, none, none, none]
    Row.slots Row.older (RecordSchema.older.grow SchemaEntry.newer) .standard = .ok found ∧
      Row.slots Row.older .older .standard = .ok (found.take 2) ∧
      (∀ column ∈ SchemaEntry.missing, Row.Lacks Row.older .standard column) ∧
      (∀ index < 3, found[3 + index]? = some none) ∧
      Row.slots Row.older (RecordSchema.older.grow SchemaEntry.missing) .standard =
        .ok (found.take 2 ++ [none, none, none]) := by
  intro found
  have hread : Row.slots Row.older (RecordSchema.older.grow SchemaEntry.newer) .standard =
      .ok found := by decide +kernel
  obtain ⟨hshorter, -, habsent⟩ := (Row.slots_grow _ _ _ _).1 found hread
  have hstill := (Row.slots_grow Row.older .older SchemaEntry.missing .standard).2 _ hshorter rfl
    Row.lacks_missing
  refine ⟨hread, hshorter, Row.lacks_missing, ?_, hstill⟩
  intro index hindex
  have hcolumn : SchemaEntry.missing[index]? = some SchemaEntry.missing[index] :=
    List.getElem?_eq_getElem hindex
  have hmissing := Row.lacks_missing _ (List.getElem_mem hindex)
  have hat := habsent (index + 1) _ hcolumn hmissing
  rwa [← Nat.add_assoc, Nat.add_right_comm] at hat

end EseReader
