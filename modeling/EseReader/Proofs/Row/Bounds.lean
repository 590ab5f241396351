import EseReader.Proofs.Row.Index
import EseReader.Proofs.Row.Linear
import EseReader.Proofs.Row.Slots

/-!
# `EseReader/Proofs/Row/Bounds.lean` — reading a row stays in it

A value is a stretch of the row that it was read from. Every reader takes a part of the bytes that
it is given, and gives the parts of it on: a flagged value leaves out its first byte, an indexed one
lies between two offsets, and a linear one lies in its block. So the values are stretches of
stretches. Together with the guarded readers this is the main result, `Row.slots_in_bounds`.
-/

set_option autoImplicit false

namespace EseReader

variable {row region : Bytes} {offset rowLength : Nat} {extended : Bool}

/-! ## What is found is a stretch of the row -/

theorem StoredValue.ofSpan_isInfix (flagged : Bool) (span : Bytes) :
    (StoredValue.ofSpan flagged span).data <:+: span := by
  cases flagged with
  | false => exact List.infix_rfl
  | true =>
    cases span with
    | nil => exact List.infix_rfl
    | cons flags data => exact (List.suffix_cons flags data).isInfix

namespace TaggedValue

variable {values : List TaggedValue}

theorem infix_of_ofLines {lines : List IndexLine}
    (h : ofLines region offset rowLength extended lines = .ok values) :
    ∀ value ∈ values, value.value.data <:+: region := by
  induction lines generalizing values with
  | nil =>
    cases h
    simp
  | cons line lines ih =>
    obtain ⟨-, rest, hrest, rfl⟩ := ofLines_cons_eq_ok_iff.mp h
    refine List.forall_mem_cons.mpr ⟨?_, ih hrest⟩
    exact (StoredValue.ofSpan_isInfix _ _).trans (Bytes.field_isInfix region _ _)

theorem infix_of_readIndexed (h : readIndexed region offset rowLength extended = .ok values) :
    ∀ value ∈ values, value.value.data <:+: region := by
  by_cases hregion : region = []
  · subst hregion
    cases h
    exact List.forall_mem_nil _
  · obtain ⟨-, -, -, hvalues⟩ := (readIndexed_eq_ok_iff hregion).mp h
    exact infix_of_ofLines hvalues

theorem infix_of_readLinear (h : readLinear offset rowLength region = .ok values) :
    ∀ value ∈ values, value.value.data <:+: region := by
  obtain ⟨blocks, rfl, rfl⟩ := readLinear_eq_ok_iff.mp h
  intro value hvalue
  obtain ⟨block, hblock, rfl⟩ := List.mem_map.mp hvalue
  have hdata : block.value.value.data <:+: block.payload := by
    rw [← block.ofSpan_payload]
    exact StoredValue.ofSpan_isInfix _ _
  have hpayload : block.payload <:+: block.bytes :=
    ((List.suffix_append _ _).trans (List.suffix_append _ _)).isInfix
  have hbytes : block.bytes <:+: blockBytes blocks :=
    List.infix_of_mem_flatten (List.mem_map_of_mem hblock)
  exact (hdata.trans hpayload).trans hbytes

end TaggedValue

namespace Row

theorem infix_of_readTagged {format : Format} {values : List TaggedValue}
    (h : readTagged region offset rowLength format = .ok values) :
    ∀ value ∈ values, value.value.data <:+: region := by
  unfold readTagged at h
  split at h
  · exact TaggedValue.infix_of_readLinear h
  · exact TaggedValue.infix_of_readIndexed h

theorem infix_of_slot {header : RowHeader} {spans : VariableRegion} {tagged : List TaggedValue}
    {column : SchemaEntry} {value : StoredValue}
    (htagged : ∀ value ∈ tagged, value.value.data <:+: row)
    (h : slot row header spans tagged column offset = .ok (some value)) :
    value.data <:+: row := by
  simp only [slot] at h
  split at h
  · split at h
    · cases h
    · obtain ⟨fixed, hfixed, h⟩ := map_eq_ok_iff.mp h
      cases h
      simp only [fixedSlot] at hfixed
      split at hfixed
      · cases hfixed
        exact Bytes.field_isInfix row _ _
      · cases hfixed
  · split at h
    · injection h with h
      obtain ⟨span, -, rfl⟩ := Option.map_eq_some_iff.mp h
      exact Bytes.field_isInfix row _ _
    · injection h with h
      obtain ⟨found, hfound, rfl⟩ := Option.map_eq_some_iff.mp h
      exact htagged found (List.mem_of_find?_eq_some hfound)

theorem infix_of_taggedFor {region : VariableRegion} {schema : RecordSchema} {format : Format}
    {values : List TaggedValue} (h : taggedFor row region schema format = .ok values) :
    ∀ value ∈ values, value.value.data <:+: row := by
  unfold taggedFor at h
  split at h
  · intro value hvalue
    exact (infix_of_readTagged h value hvalue).trans (List.drop_suffix _ row).isInfix
  · -- A row that ends with its variable columns has no tagged values to look for.
    cases h
    exact List.forall_mem_nil _

theorem of_slots {schema : RecordSchema} {format : Format} {found : List (Option StoredValue)}
    (h : slots row schema format = .ok found) :
    found.length = schema.size ∧ ∀ value, some value ∈ found → value.data <:+: row := by
  obtain ⟨header, region, tagged, -, -, -, htagged, hfound⟩ := slots_eq_ok_iff.mp h
  refine ⟨length_of_slots h, ?_⟩
  intro value hvalue
  obtain ⟨place, hslot⟩ := exists_of_mem_mapM hfound hvalue
  exact infix_of_slot (infix_of_taggedFor htagged) hslot

/-- **Reading a row never reaches out of it.** Every row is read or refused, whatever the schema and
the format, and no step reaches for bytes that are not there; and if it is read, there is one slot
for each column, what is in a slot is a stretch of the row, and taking a value out of it as a
multi-valued column stays inside as well. -/
theorem slots_in_bounds (row : Bytes) (schema : RecordSchema) (format : Format) :
    Guarded.slots row schema format = .ofExcept (slots row schema format) ∧
      ∀ found, slots row schema format = .ok found →
        found.length = schema.size ∧
          ∀ value, some value ∈ found → value.data <:+: row ∧
            ∀ flags, value.flags = some flags → ∀ index,
              (do Guarded.valueAt (← Guarded.multiValue value.data flags) index) =
                .ofExcept ((MultiValue.parse value.data flags).map (·.get? index)) := by
  refine ⟨Guarded.slots_eq row schema format, ?_⟩
  intro found hfound
  obtain ⟨hlength, hstretch⟩ := of_slots hfound
  refine ⟨hlength, fun value hvalue => ⟨hstretch value hvalue, ?_⟩⟩
  intro flags _ index
  exact Guarded.multiValue_valueAt_eq value.data flags index

end Row

/-! A row with one fixed column and one tagged column that holds two values. -/

def Row.twoNames : Bytes :=
  [1, 127, 5, 0, 42, 0, 1, 4, 0x40, 8, 4, 0, 5, 0, 0x78, 0x79]

def RecordSchema.twoNames : RecordSchema where
  template := []
  own := [.plainColumn 1 .uint8 "count", .plainColumn 256 .largeBinary "names"]

theorem Row.slots_in_bounds_sample :
    ∃ found value, Row.slots Row.twoNames .twoNames .standard = .ok found ∧
      found = [some ⟨[42], none⟩, some value] ∧ value.data <:+: Row.twoNames ∧
      value.flags = some ⟨8⟩ ∧
      (do Guarded.valueAt (← Guarded.multiValue value.data ⟨8⟩) 1) = .ofExcept (.ok (some [0x79])) := by
  have hread : Row.slots Row.twoNames .twoNames .standard =
      .ok [some ⟨[42], none⟩, some ⟨[4, 0, 5, 0, 0x78, 0x79], some ⟨8⟩⟩] := rfl
  obtain ⟨_, hvalues⟩ := (Row.slots_in_bounds Row.twoNames .twoNames .standard).2 _ hread
  obtain ⟨hstretch, hmulti⟩ := hvalues ⟨[4, 0, 5, 0, 0x78, 0x79], some ⟨8⟩⟩ (by simp)
  exact ⟨_, _, hread, rfl, hstretch, rfl, hmulti ⟨8⟩ rfl 1⟩

end EseReader
