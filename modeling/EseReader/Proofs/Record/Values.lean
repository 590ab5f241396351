import EseReader.Record

/-!
# `EseReader/Proofs/Record/Values.lean` — a column has one value, whichever way it is read

There are three ways from the bytes of a column to a value: the getter that goes with its type, the
general `Record.value`, which picks a way by the type, and `ColumnValue.decode`, which knows of bytes
only. Each of them looks at the type by itself, and the first two also at whether there are bytes at
all, whether they are the value or only say where it is, and whether they are compressed.

What stands in a slot is settled first, without regard to types (`Record.localSlot_eq_ok_iff`,
`Record.inline_eq_ok_iff`). Then the types fall into three groups. Text and bytes take the way of
their getters to the letter. A type of fixed width goes another way and words its errors differently,
but its getter and `Record.value` put the same conversion behind the same slot, so there is **one
lemma for all of them** (`Record.value_eq_ok_iff_of_reading`). The type without values has no getter.
-/

set_option autoImplicit false

namespace EseReader

/-! ## Getters -/

/-- A way to get at a column, with what it finds as a value of any type. -/
abbrev Getter := Record → Nat → Except Error (Option ColumnValue)

/-- The getter of a reading, with `make` for the values it finds. -/
def Reading.getter {α : Type} (reading : Reading α) (make : α → ColumnValue) : Getter :=
  fun record index => (record.get? reading index).map (·.map make)

/-- The getter that goes with a type. -/
def ColumnType.getter? : ColumnType → Option Getter
  | .null => none
  | .boolean => some (Reading.bool.getter .boolean)
  | .uint8 => some (Reading.uint8.getter .uint8)
  | .int16 => some (Reading.int16.getter .int16)
  | .uint16 => some (Reading.uint16.getter .uint16)
  | .int32 => some (Reading.int32.getter .int32)
  | .uint32 => some (Reading.uint32.getter .uint32)
  | .int64 => some (Reading.int64.getter .int64)
  | .currency => some (Reading.currency.getter .currency)
  | .float32 => some (Reading.float32.getter .float32)
  | .float64 => some (Reading.float64.getter .float64)
  | .dateTime => some (Reading.dateTime.getter .dateTime)
  | .guid => some (Reading.guid.getter .guid)
  | .text | .largeText => some fun record index => (record.text? index).map (·.map .text)
  | .binary | .largeBinary | .superLarge =>
    some fun record index => (record.binary? index).map (·.map .binary)

namespace Record

variable {record : Record} {index : Nat} {column : SchemaEntry} {type : ColumnType}
  {stored : StoredValue}

/-! ## What stands in a slot -/

/-- A slot is handed on unless its value is of a kind that is refused. -/
theorem refusing_eq_ok_iff {α : Type} {slot : Except Error (Option StoredValue)}
    {refused : StoredValue → Bool} {error : Error} {take : Option StoredValue → α} {taken : α} :
    (do
      let found ← slot
      if found.any refused then throw error
      return take found) = .ok taken ↔
    ∃ found, slot = .ok found ∧ taken = take found ∧ found.any refused = false := by
  cases slot with
  | error e => simp [bind, Except.bind]
  | ok found =>
    cases hrefused : found.any refused with
    | true => simp [bind, Except.bind, throw, throwThe, MonadExceptOf.throw, hrefused]
    | false =>
      simp only [bind, Except.bind, pure, Except.pure, hrefused, Bool.false_eq_true, if_false]
      constructor
      · rintro ⟨⟩
        exact ⟨found, rfl, rfl, hrefused⟩
      · rintro ⟨_, ⟨⟩, rfl, -⟩
        rfl

theorem localSlot_eq_ok_iff {found : Option StoredValue} :
    record.localSlot index = .ok found ↔
      (∃ column, record.column index = .ok column) ∧ found = record.stored? index ∧
        found.any (·.isLongValue) = false := by
  refine refusing_eq_ok_iff.trans ?_
  constructor
  · rintro ⟨slot, hslot, rfl, hlocal⟩
    obtain ⟨column, hcolumn, rfl⟩ := map_eq_ok_iff.mp hslot
    exact ⟨⟨column, hcolumn⟩, rfl, hlocal⟩
  · rintro ⟨⟨column, hcolumn⟩, rfl, hlocal⟩
    exact ⟨_, map_eq_ok_iff.mpr ⟨column, hcolumn, rfl⟩, rfl, hlocal⟩

/-- The bytes of a slot are to be had exactly if they are the value and not compressed. -/
theorem inline_eq_ok_iff {data : Option Bytes} :
    record.inline index = .ok data ↔
      (∃ column, record.column index = .ok column) ∧
        data = (record.stored? index).map (·.data) ∧
        (record.stored? index).any (·.isLongValue) = false ∧
        (record.stored? index).any (·.isCompressed) = false := by
  refine refusing_eq_ok_iff.trans ?_
  constructor
  · rintro ⟨slot, hslot, rfl, hplain⟩
    obtain ⟨hcolumn, rfl, hlocal⟩ := localSlot_eq_ok_iff.mp hslot
    exact ⟨hcolumn, rfl, hlocal, hplain⟩
  · rintro ⟨hcolumn, rfl, hlocal, hplain⟩
    exact ⟨_, localSlot_eq_ok_iff.mpr ⟨hcolumn, rfl, hlocal⟩, rfl, hplain⟩

section Plain

variable (hcolumn : record.column index = .ok column)
  (hstored : record.stored? index = some stored) (hlocal : stored.isLongValue = false)
  (hplain : stored.isCompressed = false)

include hcolumn hstored hlocal

theorem localSlot_of_local : record.localSlot index = .ok (some stored) :=
  localSlot_eq_ok_iff.mpr ⟨⟨column, hcolumn⟩, hstored.symm, hlocal⟩

include hplain

theorem inline_of_plain : record.inline index = .ok (some stored.data) := by
  rw [inline_eq_ok_iff, hstored]
  exact ⟨⟨column, hcolumn⟩, rfl, hlocal, hplain⟩

theorem text?_of_plain :
    record.text? index = (toText stored.data column.codepage record.codepages).map some := by
  rw [text?, hcolumn, localSlot_of_local hcolumn hstored hlocal]
  exact if_neg (Bool.eq_false_iff.mp hplain)

theorem binary?_of_plain : record.binary? index = .ok (some stored.data) := by
  rw [binary?, localSlot_of_local hcolumn hstored hlocal]
  exact if_neg (Bool.eq_false_iff.mp hplain)

end Plain

/-! ## The ways of the types -/

theorem getD_null_eq_ok_iff {α : Type} {result : Except Error (Option α)} {make : α → ColumnValue}
    {value : ColumnValue} :
    (result.map fun found => (found.map make).getD .null) = .ok value ↔
      ∃ found, result.map (·.map make) = .ok found ∧ value = found.getD .null := by
  cases result <;> simp [Except.map, eq_comm]

section Types

variable (hcolumn : record.column index = .ok column) (htype : column.columnType = .ok type)

include hcolumn htype

theorem value_of_isText (h : type.isText = true) :
    record.value index = (record.text? index).map fun found => (found.map .text).getD .null := by
  rw [value, hcolumn]
  simp only [bind, Except.bind, htype, if_pos h]
  cases record.text? index <;> rfl

theorem value_of_isBinary (htext : type.isText = false) (h : type.isBinary = true) :
    record.value index =
      (record.binary? index).map fun found => (found.map .binary).getD .null := by
  rw [value, hcolumn]
  simp only [bind, Except.bind, htype, htext, Bool.false_eq_true, if_false, if_pos h]
  cases record.binary? index <;> rfl

theorem value_of_inline (htext : type.isText = false) (hbinary : type.isBinary = false) :
    record.value index = record.inline index >>= fun data? =>
      match data? with
      | none => .ok .null
      | some data => ColumnValue.decode type data column.codepage record.codepages := by
  rw [value, hcolumn]
  simp only [bind, Except.bind, htype, htext, hbinary, Bool.false_eq_true, if_false]
  cases record.inline index with
  | error e => rfl
  | ok data? => cases data? <;> rfl

/-- The value is what the getter finds, if the type is decoded by the conversion of the getter. -/
theorem value_eq_ok_iff_of_reading {α : Type} {reading : Reading α} {make : α → ColumnValue}
    (htext : type.isText = false) (hbinary : type.isBinary = false)
    (hdecode : ∀ data, ColumnValue.decode type data column.codepage record.codepages =
      (reading.convert data).map make) (value : ColumnValue) :
    record.value index = .ok value ↔
      ∃ found, reading.getter make record index = .ok found ∧ value = found.getD .null := by
  rw [value_of_inline hcolumn htype htext hbinary, Reading.getter, get?]
  cases record.inline index with
  | error e => simp [bind, Except.bind, Except.map]
  | ok data? =>
    cases data? with
    | none => simp [bind, Except.bind, Except.map, pure, Except.pure, eq_comm]
    | some data =>
      simp only [bind, Except.bind, hdecode]
      cases reading.convert data with
      | error e => simp [Except.map, throw, throwThe, MonadExceptOf.throw]
      | ok found => simp [Except.map, pure, Except.pure, eq_comm]

theorem value_eq_ok_iff_of_getter {getter : Getter} (hgetter : type.getter? = some getter)
    (value : ColumnValue) :
    record.value index = .ok value ↔
      ∃ found, getter record index = .ok found ∧ value = found.getD .null := by
  cases type
  case null => cases hgetter
  case text | largeText =>
    cases hgetter
    rw [value_of_isText hcolumn htype rfl]
    exact getD_null_eq_ok_iff
  case binary | largeBinary | superLarge =>
    cases hgetter
    rw [value_of_isBinary hcolumn htype rfl rfl]
    exact getD_null_eq_ok_iff
  all_goals
    cases hgetter
    exact value_eq_ok_iff_of_reading hcolumn htype rfl rfl (fun _ => rfl) value

/-- A column without values is read like bytes of fixed width, of which nothing is asked. -/
theorem value_eq_ok_iff_of_null (hnull : type = .null) (value : ColumnValue) :
    record.value index = .ok value ↔
      value = .null ∧ (record.stored? index).any (·.isLongValue) = false ∧
        (record.stored? index).any (·.isCompressed) = false := by
  subst hnull
  have hvalue : record.value index = .ok value ↔
      value = .null ∧ ∃ data?, record.inline index = .ok data? := by
    rw [value_of_inline hcolumn htype rfl rfl]
    cases record.inline index with
    | error e => simp [bind, Except.bind]
    | ok data? => cases data? <;> simp [bind, Except.bind, ColumnValue.decode, eq_comm]
  rw [hvalue]
  refine and_congr_right fun _ => ?_
  simp only [inline_eq_ok_iff]
  constructor
  · rintro ⟨_, -, -, hplain⟩
    exact hplain
  · intro hplain
    exact ⟨_, ⟨column, hcolumn⟩, rfl, hplain⟩

/-- **A value that stands in its slot as it is, is the value of its bytes**, errors included. -/
theorem value_of_plain (hstored : record.stored? index = some stored)
    (hlocal : stored.isLongValue = false) (hplain : stored.isCompressed = false) :
    record.value index =
      ColumnValue.decode type stored.data column.codepage record.codepages := by
  cases type
  case text | largeText =>
    rw [value_of_isText hcolumn htype rfl, text?_of_plain hcolumn hstored hlocal hplain,
      ColumnValue.decode]
    cases toText stored.data column.codepage record.codepages <;> rfl
  case binary | largeBinary | superLarge =>
    rw [value_of_isBinary hcolumn htype rfl rfl, binary?_of_plain hcolumn hstored hlocal hplain]
    rfl
  all_goals
    rw [value_of_inline hcolumn htype rfl rfl, inline_of_plain hcolumn hstored hlocal hplain]
    rfl

end Types

/-! ## Values that stand elsewhere -/

/-- Every way to read a column asks for what is in the slot. -/
theorem exists_localSlot_of_inline {data? : Option Bytes} (h : record.inline index = .ok data?) :
    ∃ found, record.localSlot index = .ok found := by
  obtain ⟨found, hfound, -⟩ := bind_eq_ok_iff.mp h
  exact ⟨found, hfound⟩

theorem exists_localSlot_of_get? {α : Type} {reading : Reading α} {value : Option α}
    (h : record.get? reading index = .ok value) : ∃ found, record.localSlot index = .ok found := by
  obtain ⟨_, hdata, -⟩ := bind_eq_ok_iff.mp h
  exact exists_localSlot_of_inline hdata

theorem exists_localSlot_of_text? {text : Option String} (h : record.text? index = .ok text) :
    ∃ found, record.localSlot index = .ok found := by
  obtain ⟨_, -, hbehind⟩ := bind_eq_ok_iff.mp h
  obtain ⟨found, hfound, -⟩ := bind_eq_ok_iff.mp hbehind
  exact ⟨found, hfound⟩

theorem exists_localSlot_of_binary? {data? : Option Bytes} (h : record.binary? index = .ok data?) :
    ∃ found, record.localSlot index = .ok found := by
  obtain ⟨found, hfound, -⟩ := bind_eq_ok_iff.mp h
  exact ⟨found, hfound⟩

theorem exists_localSlot_of_value {value : ColumnValue} (h : record.value index = .ok value) :
    ∃ found, record.localSlot index = .ok found := by
  obtain ⟨column, hcolumn, hbehind⟩ := bind_eq_ok_iff.mp h
  obtain ⟨type, htype, -⟩ := bind_eq_ok_iff.mp hbehind
  cases htext : type.isText with
  | true =>
    rw [value_of_isText hcolumn htype htext] at h
    obtain ⟨_, hfound, -⟩ := map_eq_ok_iff.mp h
    exact exists_localSlot_of_text? hfound
  | false =>
    cases hbinary : type.isBinary with
    | true =>
      rw [value_of_isBinary hcolumn htype htext hbinary] at h
      obtain ⟨_, hfound, -⟩ := map_eq_ok_iff.mp h
      exact exists_localSlot_of_binary? hfound
    | false =>
      rw [value_of_inline hcolumn htype htext hbinary] at h
      obtain ⟨_, hdata, -⟩ := bind_eq_ok_iff.mp h
      exact exists_localSlot_of_inline hdata

/-- No way to read a column finds anything. -/
structure Refuses (record : Record) (index : Nat) : Prop where
  get? : ∀ {α : Type} (reading : Reading α) (found : Option α),
    record.get? reading index ≠ .ok found
  get : ∀ {α : Type} (reading : Reading α) (found : α), record.get reading index ≠ .ok found
  text? : ∀ found, record.text? index ≠ .ok found
  text : ∀ found, record.text index ≠ .ok found
  binary? : ∀ found, record.binary? index ≠ .ok found
  binary : ∀ found, record.binary index ≠ .ok found
  value : ∀ found, record.value index ≠ .ok found

theorem present_ne_ok {α : Type} {value? : Except Error (Option α)} (h : ∀ found, value? ≠ .ok found)
    (found : α) : record.present index value? ≠ .ok found := by
  intro hpresent
  obtain ⟨value, hvalue, -⟩ := bind_eq_ok_iff.mp hpresent
  exact h value hvalue

/-- The slot is not to be had if it holds only the place of the value. -/
theorem refuses_of_isLongValue (hstored : record.stored? index = some stored)
    (hlong : stored.isLongValue = true) : record.Refuses index := by
  have hnone : ¬∃ found, record.localSlot index = .ok found := by
    rintro ⟨found, h⟩
    obtain ⟨-, rfl, hlocal⟩ := localSlot_eq_ok_iff.mp h
    rw [hstored, Option.any_some, hlong] at hlocal
    cases hlocal
  have hget : ∀ {α : Type} (reading : Reading α) (found : Option α),
      record.get? reading index ≠ .ok found :=
    fun _ _ h => hnone (exists_localSlot_of_get? h)
  have htext : ∀ found, record.text? index ≠ .ok found :=
    fun _ h => hnone (exists_localSlot_of_text? h)
  have hbinary : ∀ found, record.binary? index ≠ .ok found :=
    fun _ h => hnone (exists_localSlot_of_binary? h)
  exact {
    get? := hget
    get := fun reading => present_ne_ok (hget reading)
    text? := htext
    text := present_ne_ok htext
    binary? := hbinary
    binary := present_ne_ok hbinary
    value := fun _ h => hnone (exists_localSlot_of_value h) }

/-! ## All ways together -/

/-- The ways to read a column of type `type` lead to the same value. -/
structure Agrees (record : Record) (index : Nat) (column : SchemaEntry) (type : ColumnType) :
    Prop where
  /-- The value is that of the getter, and absent where the getter finds nothing. -/
  getter : type ≠ .null → ∃ getter, type.getter? = some getter ∧ ∀ value,
    record.value index = .ok value ↔
      ∃ found, getter record index = .ok found ∧ value = found.getD .null
  null : type = .null → ∀ value, record.value index = .ok value ↔
    value = .null ∧ ∀ stored ∈ record.stored? index,
      stored.isLongValue = false ∧ stored.isCompressed = false
  decode : ∀ stored ∈ record.stored? index, stored.isLongValue = false →
    stored.isCompressed = false →
    record.value index = ColumnValue.decode type stored.data column.codepage record.codepages

theorem agrees (hcolumn : record.column index = .ok column)
    (htype : column.columnType = .ok type) : record.Agrees index column type where
  getter := by
    intro hne
    obtain ⟨getter, hgetter⟩ : ∃ getter, type.getter? = some getter := by
      cases type
      case null => exact absurd rfl hne
      all_goals exact ⟨_, rfl⟩
    exact ⟨getter, hgetter, value_eq_ok_iff_of_getter hcolumn htype hgetter⟩
  null := by
    intro hnull value
    rw [value_eq_ok_iff_of_null hcolumn htype hnull, Option.any_eq_false, Option.any_eq_false,
      ← forall_and]
    simp only [Option.mem_def, ← imp_and]
  decode := fun _ hstored => value_of_plain hcolumn htype hstored

/-- **A column has the same value whichever way it is read.** It has one only if there is such a
column and its type is known. Then it is what the getter of the type finds, and where its bytes
stand in the slot as they are, what they are decoded to. Where they only say where the value is,
nothing takes them for it. -/
theorem value_agrees (record : Record) (index : Nat) :
    (∀ value, record.value index = .ok value →
        ∃ column type, record.column index = .ok column ∧ column.columnType = .ok type) ∧
      (∀ column type, record.column index = .ok column → column.columnType = .ok type →
        record.Agrees index column type) ∧
      ∀ stored ∈ record.stored? index, stored.isLongValue = true → record.Refuses index := by
  refine ⟨?_, fun _ _ => agrees, fun _ => refuses_of_isLongValue⟩
  intro value h
  obtain ⟨column, hcolumn, h⟩ := bind_eq_ok_iff.mp h
  obtain ⟨type, htype, -⟩ := bind_eq_ok_iff.mp h
  exact ⟨column, type, hcolumn, htype⟩

/-- A number, a text, the place of a long value and an absent column. -/
def mixed : Record where
  row := []
  schema :=
    { template := []
      own := [.plainColumn 1 .int16 "count", .plainColumn 128 .text "name",
        .plainColumn 256 .largeBinary "attachment", .plainColumn 257 .guid "missing"] }
  codepages := {}
  slots := [some ⟨[7, 0], none⟩, some ⟨[0x61, 0x62, 0], none⟩, some ⟨[1, 0, 0, 0], some ⟨4⟩⟩, none]

theorem value_agrees_sample :
    mixed.value 0 = .ok (.int16 7) ∧
      (∃ found, Reading.int16.getter .int16 mixed 0 = .ok found ∧
        .int16 7 = found.getD ColumnValue.null) ∧
      mixed.value 1 = ColumnValue.decode .text [0x61, 0x62, 0] 0 {} ∧
      mixed.Refuses 2 ∧
      ∃ found, Reading.guid.getter .guid mixed 3 = .ok found ∧
        .null = found.getD ColumnValue.null := by
  have hcount : mixed.value 0 = .ok (.int16 7) := rfl
  have hmissing : mixed.value 3 = .ok .null := rfl
  obtain ⟨-, hagrees, -⟩ := value_agrees mixed 0
  obtain ⟨_, hint16, hfound⟩ := (hagrees _ .int16 rfl rfl).getter (by decide)
  cases hint16
  obtain ⟨-, hagrees', -⟩ := value_agrees mixed 3
  obtain ⟨_, hguid, hnothing⟩ := (hagrees' _ .guid rfl rfl).getter (by decide)
  cases hguid
  exact ⟨hcount, (hfound _).mp hcount,
    ((value_agrees mixed 1).2.1 _ .text rfl rfl).decode _ rfl rfl rfl,
    (value_agrees mixed 2).2.2 _ rfl rfl, (hnothing _).mp hmissing⟩

end Record

end EseReader
