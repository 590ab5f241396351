import EseReader.Proofs.Row.Bounds

/-!
# `EseReader/Proofs/Row/Partition.lean` — how the variable columns divide a row

The table of words is at the place that the header names, the values follow it without gaps, and
what is behind the last of them is the tagged part: a tagged column is looked for there and nowhere
else. This is put together here with the test that decides which rows have variable columns that can
be read (`VariableRegion.ofRow_readable_and_partitions`).
-/

set_option autoImplicit false

namespace EseReader

/-! ## The tagged part -/

/-- The tagged columns of a row are found in what follows its variable values. -/
theorem Row.exists_tagged_of_slots {row : Bytes} {header : RowHeader} {region : VariableRegion}
    {schema : RecordSchema} {format : Format} {found : List (Option StoredValue)}
    (hheader : RowHeader.ofRow row = .ok header)
    (hregion : VariableRegion.ofRow row header = .ok region)
    (h : slots row schema format = .ok found) (htagged : schema.hasTagged = true) :
    ∃ tagged, readTagged (row.drop region.stop) region.stop row.length format = .ok tagged ∧
      ∀ (index : Nat) (column : SchemaEntry), schema.columns[index]? = some column →
        column.isTagged = true →
        found[index]? = some ((tagged.find? fun value =>
          value.column.toNat == column.identifier.toNat).map (·.value)) := by
  obtain ⟨_, _, tagged, hheader', hregion', hread, hslots⟩ := exists_slot_of_slots h
  cases hheader.symm.trans hheader'
  cases hregion.symm.trans hregion'
  rw [taggedFor, if_pos htagged] at hread
  refine ⟨tagged, hread, ?_⟩
  intro index column hcolumn hidentifier
  obtain ⟨offset, result, hslot, hfound⟩ := hslots index column hcolumn
  rw [slot_of_isTagged hidentifier] at hslot
  cases hslot
  exact hfound

namespace VariableRegion

variable {row : Bytes} {header : RowHeader} {region : VariableRegion}

/-- What a region says about the row it was read from. Besides the values themselves these are the
tagged columns: they are looked for where the region stops. -/
structure Partitions (row : Bytes) (header : RowHeader) (region : VariableRegion) : Prop where
  length : region.spans.length = header.variableCount
  absent : ∀ i < header.variableCount,
    region.spans[i]? = some none ↔ isAbsent (wordOf row header i) = true
  adjacent : Tiles (payloadStart header) region.spans.reduceOption region.stop
  values : (region.spans.reduceOption.map (·.cut row)).flatten =
    row.field (payloadStart header) (region.stop - payloadStart header)
  stop : region.stop = payloadStart header + (ends (wordsOf row header)).getLastD 0
  inside : region.stop ≤ row.length
  tagged : ∀ (schema : RecordSchema) (format : Format) (found : List (Option StoredValue)),
    Row.slots row schema format = .ok found → schema.hasTagged = true →
      ∃ tagged, Row.readTagged (row.drop region.stop) region.stop row.length format = .ok tagged ∧
        ∀ (index : Nat) (column : SchemaEntry), schema.columns[index]? = some column →
          column.isTagged = true →
          found[index]? = some ((tagged.find? fun value =>
            value.column.toNat == column.identifier.toNat).map (·.value))

theorem partitions_of_ofRow (hheader : RowHeader.ofRow row = .ok header)
    (h : ofRow row header = .ok region) : Partitions row header region := by
  have htiles := tiles_of_ofRow h
  have hnone := map_isNone_of_ofRow h
  refine ⟨length_spans_of_ofRow h, ?_, htiles, htiles.flatten_cut row, stop_of_ofRow h,
    stop_le_of_ofRow h, ?_⟩
  · intro i hi
    have hat := congrArg (·[i]?) hnone
    simp only [wordsOf, List.getElem?_map, List.getElem?_range hi, Option.map_some] at hat
    obtain ⟨span, hspan, hbit⟩ := Option.map_eq_some_iff.mp hat
    rw [hspan, ← hbit, Option.some.injEq, Option.isNone_iff_eq_none]
  · intro schema format found hfound htagged
    exact Row.exists_tagged_of_slots hheader h hfound htagged

/-- **Which rows have variable columns that can be read, and how the values divide the row.** The
table begins behind the header and ends inside the row, the ends of the present values do not go
back, and the last one is inside the row: no less is enough, and no more is asked for. Then there is
a place for each column, empty exactly if the column is absent. The others are next to each other,
together they are the row from behind the table to where the region stops, and there the tagged
part begins. What the other bits of an absent column are has no bearing on any of it, nor on an
error. -/
theorem ofRow_readable_and_partitions (row : Bytes) (hrow : 4 ≤ row.length) :
    ∃ header, RowHeader.ofRow row = .ok header ∧
      ((∃ region, ofRow row header = .ok region) ↔ Readable row header) ∧
      (∀ region, ofRow row header = .ok region → Partitions row header region) ∧
      ∀ other : Bytes, other.length = row.length →
        (∀ i < header.variableCount, Alike (wordOf other header i) (wordOf row header i)) →
        ofRow other header = ofRow row header := by
  obtain ⟨header, hheader⟩ : ∃ header, RowHeader.ofRow row = .ok header := by
    match row, hrow with
    | lastFixed :: lastVariable :: low :: high :: rest, _ => exact ⟨_, rfl⟩
  refine ⟨header, hheader, ?_, fun region => partitions_of_ofRow hheader, fun other => ofRow_congr⟩
  constructor
  · rintro ⟨region, h⟩
    exact (ofRow_eq_ok_iff.mp h).1
  · intro h
    exact ⟨_, ofRow_eq_ok_iff.mpr ⟨h, rfl⟩⟩

/-- Three variable columns, the second one of which is absent, and a tagged one. -/
def absentBetween : Bytes :=
  [0, 130, 4, 0, 2, 0, 0, 0x80, 3, 0, 0x61, 0x62, 0x63, 0, 1, 4, 0, 0x64]

/-- The bytes of the values are the same if the word of the absent column has all its bits set. -/
theorem ofRow_readable_and_partitions_sample :
    let header : RowHeader := ⟨0, 130, 4⟩
    let region : VariableRegion := ⟨[some ⟨10, 12⟩, none, some ⟨12, 13⟩], 13⟩
    RowHeader.ofRow absentBetween = .ok header ∧ ofRow absentBetween header = .ok region ∧
      Readable absentBetween header ∧ Partitions absentBetween header region ∧
      ofRow ((absentBetween.set 6 0xff).set 7 0xff) header = .ok region := by
  intro header region
  obtain ⟨header', hheader, hreadable, hpartitions, hsame⟩ :=
    ofRow_readable_and_partitions absentBetween (by decide)
  obtain rfl : header = header' := Except.ok.inj hheader
  have hread : ofRow absentBetween header = .ok region := by decide
  refine ⟨rfl, hread, hreadable.mp ⟨_, hread⟩, hpartitions _ hread, ?_⟩
  have hlength : ((absentBetween.set 6 0xff).set 7 0xff).length = absentBetween.length := rfl
  exact (hsame _ hlength (by decide)).trans hread

end VariableRegion

end EseReader
