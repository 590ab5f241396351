import EseReader.Proofs.MultiValue
import EseReader.Proofs.Row.Variable
import EseReader.Row.Slots

/-!
# `EseReader/Proofs/Row/Guarded.lean` — reading a row reaches for nothing outside it

The values of a row are taken without a test of their own. What covers them was tested several
steps before and for another reason: the variable columns end in order and inside the row, so the
tagged part that starts behind the last of them starts inside the row; the offsets of an indexed
value do not go back, so all but the last value end where they should; and the last one is tested
alone.

The readers of the library go through lists, where there is nothing to reach for. The guarded ones
here go by positions, as a program does that is given the row as a whole, and **the test for every
position is the one the reader has made and no other**.
-/

set_option autoImplicit false

namespace EseReader

variable {row region : Bytes} {offset rowLength : Nat} {extended : Bool}

/-! ## The header and the variable columns -/

namespace VariableRegion

/-- Everything lies in a row of that length: the values, and where the part behind them starts. -/
structure Inside (rowLength : Nat) (region : VariableRegion) : Prop where
  spans : ∀ span, some span ∈ region.spans → span.start ≤ span.stop ∧ span.stop ≤ rowLength
  stop : region.stop ≤ rowLength

theorem inside_of_ofRow {header : RowHeader} {region : VariableRegion}
    (h : ofRow row header = .ok region) : region.Inside row.length := by
  have hstop := stop_le_of_ofRow h
  refine ⟨?_, hstop⟩
  intro span hspan
  obtain ⟨horder, hinside⟩ := (tiles_of_ofRow h).inside span (List.reduceOption_mem_iff.mpr hspan)
  exact ⟨horder, Nat.le_trans hinside hstop⟩

end VariableRegion

namespace Guarded

def rowHeader (row : Bytes) : Guarded RowHeader :=
  if row.length < 4 then throw (.truncatedRow 0 0 4 row.length)
  else do
    let lastFixed ← byte row 0
    let lastVariable ← byte row 1
    let low ← byte row 2
    let high ← byte row 3
    return ⟨lastFixed, lastVariable, .ofNat (littleEndian [low, high])⟩

/-- The columns from the one at `index` on. -/
def variableFrom (row : Bytes) (table payload : Nat) : (count index previous : Nat) →
    Guarded VariableRegion
  | 0, _, previous => return ⟨[], payload + previous⟩
  | count + 1, index, previous => do
    let word ← word row (table + 2 * index) "variable offset table"
    if 0x8000 ≤ word.toNat then
      let region ← variableFrom row table payload count (index + 1) previous
      return { region with spans := none :: region.spans }
    else if word.toNat < previous then
      throw (.variableOffsets (128 + index) previous word.toNat)
    else if row.length < payload + word.toNat then
      let size ← minus word.toNat previous
      throw (.truncatedRow (128 + index) (payload + previous) size row.length)
    else
      let region ← variableFrom row table payload count (index + 1) word.toNat
      return { region with
        spans := some ⟨payload + previous, payload + word.toNat⟩ :: region.spans }

def variableRegion (row : Bytes) (header : RowHeader) : Guarded VariableRegion :=
  let count := header.variableCount
  let table := header.variableOffset.toNat
  if table < 4 ∨ row.length < table + 2 * count then
    throw (.truncatedRow 128 table (2 * count) row.length)
  else variableFrom row table (table + 2 * count) count 0 0

theorem rowHeader_eq (row : Bytes) : rowHeader row = ofExcept (RowHeader.ofRow row) := by
  match row with
  | lastFixed :: lastVariable :: low :: high :: rest =>
    have hlength : ¬(lastFixed :: lastVariable :: low :: high :: rest).length < 4 := by
      simp only [List.length_cons]
      omega
    rw [rowHeader, if_neg hlength]
    rfl
  | [] => rfl
  | [_] => rfl
  | [_, _] => rfl
  | [_, _, _] => rfl

theorem variableFrom_eq {table payload : Nat} (count index previous : Nat)
    (h : table + 2 * (index + count) ≤ row.length) :
    variableFrom row table payload count index previous =
      ofExcept (VariableRegion.ofWords row.length payload (128 + index) previous
        ((List.range' index count).map fun i => row.u16At (table + 2 * i))) := by
  induction count generalizing index previous with
  | zero => rfl
  | succ count ih =>
    have hnext : table + 2 * (index + 1 + count) ≤ row.length := by omega
    rw [variableFrom, word_eq_u16At (by omega), ok_bind, List.range'_succ, List.map_cons]
    simp only [VariableRegion.ofWords]
    by_cases habsent : 0x8000 ≤ (row.u16At (table + 2 * index)).toNat
    · rw [if_pos habsent, if_pos habsent]
      exact bind_ofExcept (ih (index + 1) previous hnext) fun _ _ => rfl
    rw [if_neg habsent, if_neg habsent]
    by_cases hback : (row.u16At (table + 2 * index)).toNat < previous
    · rw [if_pos hback, if_pos hback, throw_eq]
    rw [if_neg hback, if_neg hback]
    by_cases hbehind : row.length < payload + (row.u16At (table + 2 * index)).toNat
    · rw [if_pos hbehind, if_pos hbehind, minus_eq (Nat.le_of_not_lt hback), ok_bind, throw_eq]
    rw [if_neg hbehind, if_neg hbehind]
    exact bind_ofExcept (ih (index + 1) _ hnext) fun _ _ => rfl

theorem variableRegion_eq (row : Bytes) (header : RowHeader) :
    variableRegion row header = ofExcept (VariableRegion.ofRow row header) := by
  unfold variableRegion VariableRegion.ofRow
  by_cases htable : header.variableOffset.toNat < 4 ∨
      row.length < header.variableOffset.toNat + 2 * header.variableCount
  · simp only [if_pos htable]
    rfl
  · simp only [if_neg htable]
    rw [variableFrom_eq _ 0 0 (by omega), VariableRegion.wordsAt, List.range_eq_range']

end Guarded

/-! ## The tagged values -/

/-- One step of the reader. A value ends where the next one starts, the last one with the region. -/
theorem TaggedValue.ofLines_eq (line : IndexLine) (lines : List IndexLine) :
    ofLines region offset rowLength extended (line :: lines) =
      let start := line.offset extended
      let stop := (lines.head?.map (·.offset extended)).getD region.length
      if region.length < stop ∨ stop < start then
        .error (.truncatedRow line.column.toNat (offset + start) (stop - start) rowLength)
      else do
        let value := StoredValue.ofSpan (line.isFlagged extended) (region.field start (stop - start))
        return ⟨line.column, value⟩ :: (← ofLines region offset rowLength extended lines) := by
  cases lines <;> rfl

namespace Guarded

open TaggedValue

/-- The lines of the table from the one at `index` on, each checked against the one before. -/
def linesFrom (region : Bytes) (extended : Bool) : (count index : Nat) →
    (previous : Option IndexLine) → Guarded (List IndexLine)
  | 0, _, _ => return []
  | count + 1, index, previous => do
    let column ← word region (4 * index) "tagged offset table"
    let offset ← word region (4 * index + 2) "tagged offset table"
    let line : IndexLine := ⟨column, offset⟩
    match previous with
    | some earlier =>
      if line.offset extended < earlier.offset extended then
        throw (.taggedOffsets earlier.word.toNat line.word.toNat)
    | none => pure ()
    return line :: (← linesFrom region extended count (index + 1) (some line))

/-- The values that the lines locate. -/
def lineValues (region : Bytes) (offset rowLength : Nat) (extended : Bool) :
    List IndexLine → Guarded (List TaggedValue)
  | [] => return []
  | line :: lines =>
    let start := line.offset extended
    let stop := (lines.head?.map (·.offset extended)).getD region.length
    if region.length < stop ∨ stop < start then
      throw (.truncatedRow line.column.toNat (offset + start) (stop - start) rowLength)
    else do
      let span ← cut region start stop
      let values ← lineValues region offset rowLength extended lines
      return ⟨line.column, .ofSpan (line.isFlagged extended) span⟩ :: values

def indexed (region : Bytes) (offset rowLength : Nat) (extended : Bool) :
    Guarded (List TaggedValue) :=
  if region.length = 0 then return []
  else if region.length < 4 then throw (.truncatedRow 256 offset 4 rowLength)
  else do
    let first ← word region 2 "tagged offset table"
    let count := first.toNat % offsetLimit extended / 4
    if count = 0 then throw (.taggedOffsets 0 first.toNat)
    else if region.length < 4 * count then
      let column ← word region 0 "tagged offset table"
      throw (.truncatedRow column.toNat offset (4 * count) rowLength)
    else
      let lines ← linesFrom region extended count 0 none
      lineValues region offset rowLength extended lines

/-- The values from `position` on. -/
def linearFrom (region : Bytes) (offset rowLength position : Nat) : Guarded (List TaggedValue) :=
  if h : position < region.length then do
    let left ← minus region.length position
    if left < 4 then throw (.truncatedRow 256 (offset + position) 4 rowLength)
    else
      let column ← word region position "linear tagged entry"
      let word ← word region (position + 2) "linear tagged entry"
      let flagged := decide (0x8000 ≤ word.toNat)
      let size := linearSize word
      if region.length < position + 4 + size ∨ (flagged ∧ size = 0) then
        throw (.truncatedRow column.toNat (offset + (position + 4)) size rowLength)
      else
        let span ← cut region (position + 4) (position + 4 + size)
        let values ← linearFrom region offset rowLength (position + 4 + size)
        return ⟨column, .ofSpan flagged span⟩ :: values
  else return []
termination_by region.length - position

theorem linesFrom_eq (extended : Bool) (count index : Nat) (previous : Option IndexLine)
    (h : 4 * (index + count) ≤ region.length) :
    linesFrom region extended count index previous = ofExcept (do
      let lines := readIndex count (region.drop (4 * index))
      checkOrder extended (previous.toList ++ lines)
      return lines) := by
  induction count generalizing index previous with
  | zero => cases previous <;> rfl
  | succ count ih =>
    have hlength : 4 ≤ (region.drop (4 * index)).length := by
      rw [List.length_drop]
      omega
    match hrest : region.drop (4 * index), hlength with
    | a :: b :: c :: d :: rest, _ =>
      have hsecond : region.drop (4 * index + 2) = c :: d :: rest := by
        rw [← List.drop_drop, hrest]
        rfl
      have hnext : region.drop (4 * (index + 1)) = rest := by
        rw [Nat.mul_succ, ← List.drop_drop, hrest]
        rfl
      -- Here every line is checked before the next one is read, there all are read first. Reading a
      -- line cannot fail any more, so the order of the two makes no difference.
      have hlater : ∀ line, (do
          return line :: (← linesFrom region extended count (index + 1) (some line)) :
            Guarded (List IndexLine)) = ofExcept (do
              let lines := line :: readIndex count rest
              checkOrder extended lines
              return lines) := by
        intro line
        have hrec : linesFrom region extended count (index + 1) (some line) = ofExcept (do
            checkOrder extended (line :: readIndex count rest)
            return readIndex count rest) := by
          rw [ih (index + 1) (some line) (by omega), hnext]
          rfl
        rw [hrec]
        show _ = ofExcept (checkOrder extended (line :: readIndex count rest) >>= _)
        cases checkOrder extended (line :: readIndex count rest) <;> rfl
      rw [linesFrom, word_eq_pair hrest, ok_bind, word_eq_pair hsecond, ok_bind]
      cases previous with
      | none => exact hlater _
      | some earlier =>
        simp only [readIndex, Option.toList_some, List.singleton_append, checkOrder]
        split
        · rfl
        · exact hlater _

theorem lineValues_eq (region : Bytes) (offset rowLength : Nat) (extended : Bool)
    (lines : List IndexLine) :
    lineValues region offset rowLength extended lines =
      ofExcept (ofLines region offset rowLength extended lines) := by
  induction lines with
  | nil => rfl
  | cons line lines ih =>
    rw [ofLines_eq]
    simp only [lineValues]
    split
    · rfl
    case isFalse hinside =>
      rw [cut_eq (by omega) (by omega), ok_bind]
      exact bind_ofExcept ih fun _ _ => rfl

theorem indexed_eq (region : Bytes) (offset rowLength : Nat) (extended : Bool) :
    indexed region offset rowLength extended =
      ofExcept (readIndexed region offset rowLength extended) := by
  simp only [indexed, readIndexed]
  by_cases hempty : region.length = 0
  · rw [if_pos hempty, if_pos hempty, pure_eq]
  rw [if_neg hempty, if_neg hempty]
  by_cases hshort : region.length < 4
  · rw [if_pos hshort, if_pos hshort, throw_eq]
  rw [if_neg hshort, if_neg hshort, word_eq_u16At (by omega), ok_bind]
  -- From here on both readers know the first line by its words alone.
  generalize hfirst : (⟨region.u16At 0, region.u16At 2⟩ : IndexLine) = first
  have hword : region.u16At 2 = first.word := by rw [← hfirst]
  have hcolumn : region.u16At 0 = first.column := by rw [← hfirst]
  rw [hword]
  show (if first.offset extended / 4 = 0 then _ else _) = _
  by_cases hcount : first.offset extended / 4 = 0
  · rw [if_pos hcount, if_pos hcount, throw_eq]
  rw [if_neg hcount, if_neg hcount]
  show (if region.length < 4 * (first.offset extended / 4) then _ else _) = _
  by_cases htable : region.length < 4 * (first.offset extended / 4)
  · rw [if_pos htable, if_pos htable, word_eq_u16At (by omega), ok_bind, hcolumn, throw_eq]
    rfl
  rw [if_neg htable, if_neg htable]
  have hlines : linesFrom region extended (first.offset extended / 4) 0 none = ofExcept (do
      checkOrder extended (readIndex (first.offset extended / 4) region)
      return readIndex (first.offset extended / 4) region) :=
    linesFrom_eq extended _ 0 none (by omega)
  show (linesFrom region extended (first.offset extended / 4) 0 none >>= _) = _
  rw [hlines]
  cases checkOrder extended (readIndex (first.offset extended / 4) region) with
  | error e => rfl
  | ok => exact lineValues_eq region offset rowLength extended _

/-- What is left is too short for an identifier and a size. -/
theorem readLinear_short {region : Bytes} (hsome : 0 < region.length) (hshort : region.length < 4)
    (offset rowLength : Nat) :
    readLinear offset rowLength region = .error (.truncatedRow 256 offset 4 rowLength) := by
  match region, hsome, hshort with
  | [_], _, _ => rw [readLinear] <;> simp
  | [_, _], _, _ => rw [readLinear] <;> simp
  | [_, _, _], _, _ => rw [readLinear] <;> simp

theorem linearFrom_eq (region : Bytes) (offset rowLength position : Nat) :
    linearFrom region offset rowLength position =
      ofExcept (readLinear (offset + position) rowLength (region.drop position)) := by
  -- The induction is on what is left behind `position`: how far a value reaches is not known before.
  induction hleft : region.length - position using Nat.strongRecOn generalizing position with
  | _ left ih =>
    have hlength : (region.drop position).length = region.length - position := List.length_drop
    rw [linearFrom]
    by_cases hposition : position < region.length
    · rw [dif_pos hposition, minus_eq (Nat.le_of_lt hposition), ok_bind]
      by_cases hshort : region.length - position < 4
      · rw [if_pos hshort, readLinear_short (by omega) (by omega), throw_eq]
      rw [if_neg hshort]
      have hfour : 4 ≤ (region.drop position).length := by omega
      match hrest : region.drop position, hfour with
      | a :: b :: c :: d :: rest, _ =>
        have hsecond : region.drop (position + 2) = c :: d :: rest := by
          rw [← List.drop_drop, hrest]
          rfl
        have hbehind : region.drop (position + 4) = rest := by
          rw [← List.drop_drop, hrest]
          rfl
        simp only [hrest, List.length_cons] at hlength
        rw [word_eq_pair hrest, ok_bind, word_eq_pair hsecond, ok_bind, readLinear]
        simp only
        generalize hsize : linearSize (UInt16.ofNat (littleEndian [c, d])) = size
        generalize decide (0x8000 ≤ (UInt16.ofNat (littleEndian [c, d])).toNat) = flagged
        by_cases houtside : rest.length < size ∨ (flagged = true ∧ size = 0)
        · rw [if_pos houtside, if_pos (houtside.imp_left fun h => by omega), throw_eq,
            Nat.add_assoc]
        rw [if_neg houtside, if_neg fun h => houtside (h.imp_left fun h => by omega)]
        rw [cut_eq (by omega) (by omega), ok_bind]
        have hspan : region.field (position + 4) (position + 4 + size - (position + 4)) =
            rest.take size := by
          rw [Nat.add_sub_cancel_left, Bytes.field, hbehind]
        have hrec := ih (region.length - (position + 4 + size)) (by omega) (position + 4 + size) rfl
        rw [← List.drop_drop, hbehind, ← Nat.add_assoc, ← Nat.add_assoc] at hrec
        rw [hspan]
        exact bind_ofExcept hrec fun _ _ => rfl
    · rw [dif_neg hposition, List.drop_of_length_le (Nat.le_of_not_lt hposition), readLinear, pure_eq]

end Guarded

/-! ## The slots -/

namespace Guarded

/-- The own columns are those behind the columns of the template. -/
def checkTemplate (schema : RecordSchema) : Guarded Unit :=
  if schema.template.isEmpty then return ()
  else do
    let own ← drop schema.columns schema.template.length
    match own with
    | first :: _ =>
      if first.identifier = 256 then return ()
      else throw (.unsupported (.ownColumnStart first.identifier))
    | [] => return ()

def check (schema : RecordSchema) : Guarded Unit := do
  ofExcept (schema.columns.forM fun column => (column.columnType).map fun _ => ())
  checkTemplate schema

def readTagged (region : Bytes) (offset rowLength : Nat) (format : Format) :
    Guarded (List TaggedValue) :=
  if format.linearTagged then linearFrom region offset rowLength 0
  else indexed region offset rowLength format.extendedHeader

def fixedSlot (row : Bytes) (column : SchemaEntry) (offset : Nat) : Guarded StoredValue :=
  let width := column.fixedWidth
  if offset + width ≤ row.length then do
    let data ← cut row offset (offset + width)
    return ⟨data, none⟩
  else throw (.truncatedRow column.identifier.toNat offset width row.length)

def slot (row : Bytes) (header : RowHeader) (region : VariableRegion) (tagged : List TaggedValue)
    (column : SchemaEntry) (offset : Nat) : Guarded (Option StoredValue) :=
  let identifier := column.identifier.toNat
  if identifier ≤ 127 then
    if header.lastFixed.toNat < identifier then return none
    else some <$> fixedSlot row column offset
  else if identifier ≤ 255 then do
    let place ← minus identifier 128
    match region.spans[place]?.join with
    | none => return none
    | some span =>
      let data ← cut row span.start span.stop
      return some ⟨data, none⟩
  else return (tagged.find? fun value => value.column.toNat == identifier).map (·.value)

def slots (row : Bytes) (schema : RecordSchema) (format : Format) :
    Guarded (List (Option StoredValue)) := do
  let header ← rowHeader row
  check schema
  let region ← variableRegion row header
  let tagged ←
    if schema.hasTagged then do
      let part ← drop row region.stop
      readTagged part region.stop row.length format
    else pure []
  schema.places.mapM fun (column, offset) => slot row header region tagged column offset

theorem check_eq (schema : RecordSchema) : check schema = ofExcept schema.check := by
  have htemplate : checkTemplate schema = ofExcept schema.checkTemplate := by
    unfold checkTemplate
    cases htemplate : schema.template with
    | nil =>
      simp only [RecordSchema.checkTemplate, htemplate, List.isEmpty_nil, if_true, pure_eq]
    | cons first template =>
      have hown : schema.columns.drop schema.template.length = schema.own := List.drop_left
      rw [← htemplate, drop_eq (by simp [RecordSchema.columns]), ok_bind, hown]
      simp only [RecordSchema.checkTemplate, htemplate, List.isEmpty_cons, Bool.false_eq_true,
        if_false]
      cases schema.own with
      | nil => rfl
      | cons column own =>
        simp only
        split <;> rfl
  exact bind_ofExcept rfl fun _ _ => htemplate

theorem readTagged_eq (region : Bytes) (offset rowLength : Nat) (format : Format) :
    readTagged region offset rowLength format =
      ofExcept (Row.readTagged region offset rowLength format) := by
  unfold readTagged Row.readTagged
  split
  · exact linearFrom_eq region offset rowLength 0
  · exact indexed_eq region offset rowLength format.extendedHeader

theorem slot_eq {region : VariableRegion} (h : region.Inside row.length) (header : RowHeader)
    (tagged : List TaggedValue) (column : SchemaEntry) (offset : Nat) :
    slot row header region tagged column offset =
      ofExcept (Row.slot row header region tagged column offset) := by
  have hfixed : fixedSlot row column offset = ofExcept (Row.fixedSlot row column offset) := by
    simp only [fixedSlot, Row.fixedSlot]
    by_cases hinside : offset + column.fixedWidth ≤ row.length
    · rw [if_pos hinside, if_pos hinside, cut_eq (Nat.le_add_right _ _) hinside, ok_bind,
        Nat.add_sub_cancel_left, pure_eq]
    · rw [if_neg hinside, if_neg hinside, throw_eq]
  simp only [slot, Row.slot]
  by_cases hlow : column.identifier.toNat ≤ 127
  · rw [if_pos hlow, if_pos hlow, hfixed, map_ofExcept]
    split <;> rfl
  rw [if_neg hlow, if_neg hlow]
  by_cases hmiddle : column.identifier.toNat ≤ 255
  · rw [if_pos hmiddle, if_pos hmiddle, minus_eq (by omega), ok_bind]
    cases hspan : region.spans[column.identifier.toNat - 128]?.join with
    | none => rfl
    | some span =>
      obtain ⟨horder, hinside⟩ := h.spans span (List.mem_of_getElem? (Option.join_eq_some_iff.mp hspan))
      simp only [cut_eq horder hinside]
      rfl
  · rw [if_neg hmiddle, if_neg hmiddle, pure_eq]

/-- **No step of reading a row reaches out of it.** -/
theorem slots_eq (row : Bytes) (schema : RecordSchema) (format : Format) :
    slots row schema format = ofExcept (Row.slots row schema format) := by
  refine bind_ofExcept (rowHeader_eq row) ?_
  intro header _
  refine bind_ofExcept (check_eq schema) ?_
  intro _ _
  refine bind_ofExcept (variableRegion_eq row header) ?_
  intro region hregion
  have hinside := VariableRegion.inside_of_ofRow hregion
  have hslots : ∀ tagged,
      (schema.places.mapM fun (column, offset) => slot row header region tagged column offset) =
        ofExcept (schema.places.mapM fun (column, offset) =>
          Row.slot row header region tagged column offset) :=
    fun tagged => mapM_ofExcept (fun _ => slot_eq hinside header tagged _ _) _
  simp only
  split
  · rw [drop_eq hinside.stop, ok_bind]
    exact bind_ofExcept (readTagged_eq _ _ _ format) fun tagged _ => hslots tagged
  · exact hslots []

end Guarded

end EseReader
