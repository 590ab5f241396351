import EseReader.Row.Slots

/-!
# `EseReader/Proofs/Row/Slots.lean` — the slots of a row, one by one

Reading a row is reading its three parts and then one column after the other. No column is read with
regard to another one: what is found for it depends on the parts, on the column and on its place
(`Row.exists_slot_of_slots`). The statements about whole records start from here and not from the
reader.
-/

set_option autoImplicit false

namespace EseReader

/-! ## Reading all of a list -/

section Readings

variable {α β : Type} {read : α → Except Error β} {items : List α} {results : List β}

theorem length_of_mapM (h : items.mapM read = .ok results) : results.length = items.length := by
  induction items generalizing results with
  | nil =>
    cases h
    rfl
  | cons item items ih =>
    rw [List.mapM_cons] at h
    obtain ⟨result, -, h⟩ := bind_eq_ok_iff.mp h
    obtain ⟨rest, hrest, h⟩ := bind_eq_ok_iff.mp h
    cases h
    exact congrArg (· + 1) (ih hrest)

theorem exists_of_mem_mapM {result : β} (h : items.mapM read = .ok results)
    (hresult : result ∈ results) : ∃ item, read item = .ok result := by
  induction items generalizing results with
  | nil =>
    cases h
    cases hresult
  | cons item items ih =>
    rw [List.mapM_cons] at h
    obtain ⟨first, hfirst, h⟩ := bind_eq_ok_iff.mp h
    obtain ⟨rest, hrest, h⟩ := bind_eq_ok_iff.mp h
    cases h
    rcases List.mem_cons.mp hresult with rfl | hlater
    · exact ⟨item, hfirst⟩
    · exact ih hrest hlater

theorem exists_getElem?_of_mapM (h : items.mapM read = .ok results) {index : Nat} {item : α}
    (hitem : items[index]? = some item) :
    ∃ result, read item = .ok result ∧ results[index]? = some result := by
  induction items generalizing index results with
  | nil => cases hitem
  | cons first items ih =>
    rw [List.mapM_cons] at h
    obtain ⟨result, hfirst, h⟩ := bind_eq_ok_iff.mp h
    obtain ⟨rest, hrest, h⟩ := bind_eq_ok_iff.mp h
    cases h
    cases index with
    | zero =>
      cases hitem
      exact ⟨result, hfirst, rfl⟩
    | succ index => exact ih hrest hitem

theorem mapM_append_eq_ok_iff {first second : List α} :
    (first ++ second).mapM read = .ok results ↔
      ∃ front back, first.mapM read = .ok front ∧ second.mapM read = .ok back ∧
        results = front ++ back := by
  rw [List.mapM_append]
  constructor
  · intro h
    obtain ⟨front, hfront, h⟩ := bind_eq_ok_iff.mp h
    obtain ⟨back, hback, h⟩ := bind_eq_ok_iff.mp h
    cases h
    exact ⟨front, back, hfront, hback, rfl⟩
  · rintro ⟨front, back, hfront, hback, rfl⟩
    exact bind_eq_ok_iff.mpr ⟨front, hfront, bind_eq_ok_iff.mpr ⟨back, hback, rfl⟩⟩

theorem mapM_congr {other : α → Except Error β} (h : ∀ item ∈ items, read item = other item) :
    items.mapM read = items.mapM other := by
  induction items with
  | nil => rfl
  | cons item items ih =>
    obtain ⟨hitem, hitems⟩ := List.forall_mem_cons.mp h
    rw [List.mapM_cons, List.mapM_cons, hitem, ih hitems]

theorem mapM_eq_replicate {result : β} (h : ∀ item ∈ items, read item = .ok result) :
    items.mapM read = .ok (List.replicate items.length result) := by
  induction items with
  | nil => rfl
  | cons item items ih =>
    obtain ⟨hitem, hitems⟩ := List.forall_mem_cons.mp h
    rw [List.mapM_cons, hitem, ih hitems]
    rfl

end Readings

/-! ## Columns and their places -/

theorem SchemaEntry.isTagged_iff {column : SchemaEntry} :
    column.isTagged = true ↔ 256 ≤ column.identifier.toNat := by
  rw [isTagged, decide_eq_true_iff, UInt32.le_iff_toNat_le]
  rfl

theorem RecordSchema.map_fst_placesFrom (offset : Nat) (columns : List SchemaEntry) :
    (placesFrom offset columns).map Prod.fst = columns := by
  induction columns generalizing offset with
  | nil => rfl
  | cons column columns ih => rw [placesFrom, List.map_cons, ih]

theorem RecordSchema.map_fst_places (schema : RecordSchema) :
    schema.places.map Prod.fst = schema.columns :=
  map_fst_placesFrom 4 schema.columns

theorem RecordSchema.fst_mem_of_mem_placesFrom {offset : Nat} {columns : List SchemaEntry}
    {place : SchemaEntry × Nat} (h : place ∈ placesFrom offset columns) : place.1 ∈ columns := by
  rw [← map_fst_placesFrom offset columns]
  exact List.mem_map_of_mem h

theorem RecordSchema.length_places (schema : RecordSchema) : schema.places.length = schema.size := by
  rw [size, ← map_fst_places, List.length_map]

/-- Columns that come later have no part in the places of the first ones. -/
theorem RecordSchema.exists_placesFrom_append (offset : Nat) (first second : List SchemaEntry) :
    ∃ next, placesFrom offset (first ++ second) = placesFrom offset first ++ placesFrom next second := by
  induction first generalizing offset with
  | nil => exact ⟨offset, rfl⟩
  | cons column first ih =>
    obtain ⟨next, hnext⟩ := ih (if column.isFixed then offset + column.fixedWidth else offset)
    refine ⟨next, ?_⟩
    rw [List.cons_append, placesFrom, hnext]
    rfl

namespace Row

variable {row : Bytes} {schema : RecordSchema} {format : Format} {found : List (Option StoredValue)}

/-- The tagged values that a schema looks at. Without a tagged column it looks at none. -/
def taggedFor (row : Bytes) (region : VariableRegion) (schema : RecordSchema) (format : Format) :
    Except Error (List TaggedValue) :=
  if schema.hasTagged then readTagged (row.drop region.stop) region.stop row.length format
  else .ok []

/-- All that reading a row takes. -/
theorem slots_eq_ok_iff :
    slots row schema format = .ok found ↔
      ∃ header region tagged, RowHeader.ofRow row = .ok header ∧ schema.check = .ok () ∧
        VariableRegion.ofRow row header = .ok region ∧
        taggedFor row region schema format = .ok tagged ∧
        (schema.places.mapM fun place => slot row header region tagged place.1 place.2) =
          .ok found := by
  have hslots : slots row schema format = (do
      let header ← RowHeader.ofRow row
      schema.check
      let region ← VariableRegion.ofRow row header
      let tagged ← taggedFor row region schema format
      schema.places.mapM fun place => slot row header region tagged place.1 place.2) := by
    refine bind_congr fun header => bind_congr fun _ => bind_congr fun region => ?_
    unfold taggedFor
    split <;> rfl
  rw [hslots]
  constructor
  · intro h
    obtain ⟨header, hheader, h⟩ := bind_eq_ok_iff.mp h
    obtain ⟨_, hcheck, h⟩ := bind_eq_ok_iff.mp h
    obtain ⟨region, hregion, h⟩ := bind_eq_ok_iff.mp h
    obtain ⟨tagged, htagged, h⟩ := bind_eq_ok_iff.mp h
    exact ⟨header, region, tagged, hheader, hcheck, hregion, htagged, h⟩
  · rintro ⟨header, region, tagged, hheader, hcheck, hregion, htagged, hfound⟩
    exact bind_eq_ok_iff.mpr ⟨header, hheader, bind_eq_ok_iff.mpr ⟨(), hcheck,
      bind_eq_ok_iff.mpr ⟨region, hregion, bind_eq_ok_iff.mpr ⟨tagged, htagged, hfound⟩⟩⟩⟩

theorem length_of_slots (h : slots row schema format = .ok found) :
    found.length = schema.size := by
  obtain ⟨_, _, _, -, -, -, -, hfound⟩ := slots_eq_ok_iff.mp h
  rw [length_of_mapM hfound, RecordSchema.length_places]

/-- What is found for a column, said of one column at a time. -/
theorem exists_slot_of_slots (h : slots row schema format = .ok found) :
    ∃ header region tagged, RowHeader.ofRow row = .ok header ∧
      VariableRegion.ofRow row header = .ok region ∧
      taggedFor row region schema format = .ok tagged ∧
      ∀ (index : Nat) (column : SchemaEntry), schema.columns[index]? = some column →
        ∃ offset result, slot row header region tagged column offset = .ok result ∧
          found[index]? = some result := by
  obtain ⟨header, region, tagged, hheader, -, hregion, htagged, hfound⟩ := slots_eq_ok_iff.mp h
  refine ⟨header, region, tagged, hheader, hregion, htagged, ?_⟩
  intro index column hcolumn
  rw [← schema.map_fst_places, List.getElem?_map] at hcolumn
  obtain ⟨⟨_, offset⟩, hplace, rfl⟩ := Option.map_eq_some_iff.mp hcolumn
  obtain ⟨result, hslot, hat⟩ := exists_getElem?_of_mapM hfound hplace
  exact ⟨offset, result, hslot, hat⟩

section Slot

variable {header : RowHeader} {region : VariableRegion} {tagged : List TaggedValue}
  {column : SchemaEntry}

theorem slot_of_isTagged (h : column.isTagged = true) (offset : Nat) :
    slot row header region tagged column offset =
      .ok ((tagged.find? fun value => value.column.toNat == column.identifier.toNat).map
        (·.value)) := by
  have hhigh := SchemaEntry.isTagged_iff.mp h
  simp only [slot]
  rw [if_neg (by omega), if_neg (by omega)]

/-- Only a tagged column asks for the tagged values. -/
theorem slot_congr {other : List TaggedValue} (h : column.isTagged = true → other = tagged)
    (offset : Nat) :
    slot row header region other column offset = slot row header region tagged column offset := by
  by_cases htagged : column.isTagged = true
  · rw [h htagged]
  · rw [SchemaEntry.isTagged_iff] at htagged
    simp only [slot]
    rw [if_pos (by omega : column.identifier.toNat ≤ 255),
      if_pos (by omega : column.identifier.toNat ≤ 255)]

end Slot

end Row

end EseReader
