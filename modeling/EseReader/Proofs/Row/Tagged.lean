import EseReader.Proofs.Row.Index
import EseReader.Proofs.Row.Linear
import Mathlib.Data.Nat.Bitwise

/-!
# `EseReader/Proofs/Row/Tagged.lean` — tagged values are read as they were written

One round trip for each layout. Which regions each of them reads is known, so what is left is that
the writer makes such regions. In the linear layout every value that fits is the value of a block. In
the indexed one the lines come back as they are (`linesOf_indexedBytes`) and each of them locates its
value (`ofLines_indexLines`); that the reader takes the right number of lines rests on the first
offset alone, which is the size of the table.
-/

set_option autoImplicit false

namespace EseReader

namespace StoredValue

/-- The flags are found if the reader looks for them exactly if there are some. Where it always
looks, a value without flags has to be empty. -/
theorem ofSpan_span {value : StoredValue} {flagged : Bool}
    (h : flagged = value.flags.isSome ∨ value.span = []) :
    ofSpan flagged value.span = value := by
  obtain ⟨data, flags⟩ := value
  cases flags with
  | some flags =>
    rcases h with rfl | hempty
    · rfl
    · cases hempty
  | none =>
    rcases h with rfl | hempty
    · cases data <;> rfl
    · obtain rfl : data = [] := hempty
      cases flagged <;> rfl

end StoredValue

namespace TaggedValue

/-! ## The linear layout -/

theorem toNat_linearWord {value : StoredValue} (h : value.span.length < 0x8000) :
    (linearWord value).toNat =
      if value.flags.isSome then value.span.length + 0x8000 else value.span.length := by
  rw [linearWord]
  split
  case isTrue => exact UInt16.toNat_ofNat_of_lt' (by simp only [UInt16.size]; omega)
  case isFalse => exact UInt16.toNat_ofNat_of_lt' (by simp only [UInt16.size]; omega)

theorem le_linearWord_iff {value : StoredValue} (h : value.span.length < 0x8000) :
    0x8000 ≤ (linearWord value).toNat ↔ value.flags.isSome := by
  rw [toNat_linearWord h]
  split
  case isTrue hflags => exact iff_of_true (by omega) hflags
  case isFalse hflags => exact iff_of_false (by omega) hflags

/-- With flags the size is read through the mask. -/
theorem linearSize_of_isSome {value : StoredValue} (h : value.span.length < 0x8000)
    (hflags : value.flags.isSome) :
    linearSize (linearWord value) = value.span.length &&& 0x5fff := by
  have hor : 0x8000 + value.span.length = 0x8000 ||| value.span.length :=
    Nat.two_pow_add_eq_or_of_lt (i := 15) h 1
  rw [linearSize, if_pos ((le_linearWord_iff h).mpr hflags), UInt16.toNat_and, toNat_linearWord h,
    if_pos hflags]
  calc (value.span.length + 0x8000) &&& 0x5fff
      = (0x8000 ||| value.span.length) &&& 0x5fff := by rw [Nat.add_comm, hor]
    _ = (0x8000 &&& 0x5fff) ||| (value.span.length &&& 0x5fff) := Nat.and_or_distrib_right _ _ _
    _ = value.span.length &&& 0x5fff := Nat.zero_or _

theorem linearSize_linearWord {value : StoredValue} (h : FitsLinear value) :
    linearSize (linearWord value) = value.span.length := by
  by_cases hflags : value.flags.isSome
  · rw [linearSize_of_isSome h.1 hflags, h.2 hflags]
  · rw [linearSize, if_neg fun hle => hflags ((le_linearWord_iff h.1).mp hle),
      toNat_linearWord h.1, if_neg hflags]

theorem length_span_pos {value : StoredValue} (h : value.flags.isSome) : 0 < value.span.length := by
  obtain ⟨flags, hflags⟩ := Option.isSome_iff_exists.mp h
  rw [StoredValue.span, hflags]
  exact Nat.succ_pos _

theorem hasFlags_linearWord {value : StoredValue} (h : value.span.length < 0x8000) :
    hasFlags (linearWord value) = value.flags.isSome := by
  rw [← decide_eq_hasFlags, Bool.eq_iff_iff, decide_eq_true_iff, le_linearWord_iff h]

/-- A value that fits is the value of a block. -/
theorem exists_block_of_fitsLinear {value : TaggedValue} (h : FitsLinear value.value) :
    ∃ block : LinearBlock, block.value = value ∧
      block.bytes = wordBytes value.column ++ (wordBytes (linearWord value.value) ++
        value.value.span) := by
  have hflagged := hasFlags_linearWord h.1
  let block : LinearBlock :=
    { column := value.column
      word := linearWord value.value
      payload := value.value.span
      length_payload := by rw [← linearSize_eq, linearSize_linearWord h]
      filled := by
        rw [hflagged]
        exact fun hflags => List.ne_nil_of_length_pos (length_span_pos hflags) }
  have hvalue : block.value.value = value.value := by
    rw [← block.ofSpan_payload]
    exact StoredValue.ofSpan_span (.inl hflagged)
  exact ⟨block, congrArg (TaggedValue.mk value.column) hvalue, rfl⟩

theorem readLinear_linearBytes {values : List TaggedValue}
    (h : ∀ value ∈ values, FitsLinear value.value) (offset rowLength : Nat) :
    readLinear offset rowLength (linearBytes values) = .ok values := by
  induction values generalizing offset with
  | nil => rw [linearBytes, List.flatMap_nil, readLinear]
  | cons value values ih =>
    obtain ⟨hvalue, hvalues⟩ := List.forall_mem_cons.mp h
    obtain ⟨block, rfl, hbytes⟩ := exists_block_of_fitsLinear hvalue
    have hfront : linearBytes (block.value :: values) = block.bytes ++ linearBytes values := by
      rw [linearBytes, List.flatMap_cons, hbytes]
      rfl
    rw [hfront, readLinear_block_append, ih hvalues]
    rfl

/-! ## The lines of an index -/

theorem readIndex_flatMap_bytes (lines : List IndexLine) (rest : Bytes) :
    readIndex lines.length (lines.flatMap IndexLine.bytes ++ rest) = lines := by
  induction lines with
  | nil => cases rest <;> rfl
  | cons line lines ih =>
    obtain ⟨a, b, hab, hcolumn⟩ := wordBytes_eq_pair line.column
    obtain ⟨c, d, hcd, hword⟩ := wordBytes_eq_pair line.word
    simp [IndexLine.bytes, hab, hcd, readIndex, hcolumn, hword, ih]

theorem IndexLine.length_bytes (line : IndexLine) : line.bytes.length = 4 := by
  rw [IndexLine.bytes, List.length_append, length_wordBytes, length_wordBytes]

variable {extended : Bool} {offset : Nat}

theorem length_indexLines (values : List TaggedValue) :
    (indexLines extended offset values).length = values.length := by
  induction values generalizing offset with
  | nil => rfl
  | cons value values ih => rw [indexLines, List.length_cons, ih, List.length_cons]

theorem offsetOf_indexLine (value : TaggedValue) (h : offset < offsetLimit extended) :
    offsetOf extended (value.indexLine extended offset) = offset := by
  rw [← offset_eq]
  cases extended with
  | true =>
    have hlt : offset < 0x8000 := h
    simp only [IndexLine.offset, indexLine, offsetLimit, Bool.not_true, Bool.and_false,
      UInt16.toNat_ofNat']
    simp only [Bool.false_eq_true, if_false, if_true]
    omega
  | false =>
    have hlt : offset < 0x4000 := h
    simp only [IndexLine.offset, indexLine, offsetLimit, Bool.not_false, Bool.and_true,
      UInt16.toNat_ofNat']
    split <;> simp only [Bool.false_eq_true, if_false] <;> omega

/-- Without the extended header, bit 14 of the word says whether there are flags. -/
theorem isFlagged_indexLine (value : TaggedValue) (h : offset < 0x4000) :
    (value.indexLine false offset).isFlagged false = value.value.flags.isSome := by
  have hand : (value.indexLine false offset).word &&& 0x4000 =
      if value.value.flags.isSome then 0x4000 else 0 := by
    rw [← UInt16.toNat_inj, UInt16.toNat_and, indexLine]
    simp only [Bool.not_false, Bool.and_true]
    have hbit := Nat.testBit_lt_two_pow (i := 14) h
    have hmask : (0x4000 : UInt16).toNat = 2 ^ 14 := rfl
    split
    case isTrue =>
      have hadd : offset + 0x4000 = 2 ^ 14 + offset := Nat.add_comm _ _
      rw [UInt16.toNat_ofNat_of_lt' (by simp only [UInt16.size]; omega), hmask, Nat.and_comm,
        Nat.two_pow_and, hadd, Nat.testBit_two_pow_add_eq, hbit]
      rfl
    case isFalse =>
      rw [UInt16.toNat_ofNat_of_lt' (by simp only [UInt16.size]; omega), hmask, Nat.and_comm,
        Nat.two_pow_and, hbit]
      rfl
  rw [IndexLine.isFlagged, hand]
  cases value.value.flags.isSome <;> rfl

/-- The flags of a value that fits the index are found by its line. -/
theorem ofSpan_indexLine {value : TaggedValue} {values : List TaggedValue}
    (h : FitIndex extended offset (value :: values)) :
    StoredValue.ofSpan ((value.indexLine extended offset).isFlagged extended) value.value.span =
      value.value := by
  apply StoredValue.ofSpan_span
  cases extended with
  | false => exact .inl (isFlagged_indexLine value h.1)
  | true =>
    cases hflags : value.value.flags with
    | some flags => exact .inl rfl
    | none =>
      right
      rw [StoredValue.span, hflags]
      exact h.2.1 rfl hflags

/-! ## The values behind the lines -/

/-- A value ends where the next one starts, and the last one with the region. -/
theorem stop_indexLines {region : Bytes} {value : TaggedValue} {values : List TaggedValue}
    (hfit : FitIndex extended offset (value :: values))
    (hrest : region.RestAt offset ((value :: values).flatMap (·.value.span))) :
    ((indexLines extended (offset + value.value.span.length) values).map
      (offsetOf extended)).headD region.length = offset + value.value.span.length := by
  cases values with
  | nil =>
    have hlength := hrest.length_eq
    rw [List.flatMap_cons, List.flatMap_nil, List.append_nil] at hlength
    exact hlength
  | cons next values => exact offsetOf_indexLine next hfit.2.2.1

theorem ofLines_indexLines {region : Bytes} {values : List TaggedValue}
    (hfit : FitIndex extended offset values)
    (hrest : region.RestAt offset (values.flatMap (·.value.span))) (position rowLength : Nat) :
    ofLines region position rowLength extended (indexLines extended offset values) =
      .ok values := by
  induction values generalizing offset with
  | nil => rfl
  | cons value values ih =>
    have hstart := offsetOf_indexLine value hfit.1
    have hstop := stop_indexLines hfit hrest
    rw [List.flatMap_cons] at hrest
    have hlength := hrest.append.length_eq
    rw [indexLines, ofLines_cons_eq_ok_iff]
    simp only [hstart, hstop]
    refine ⟨by omega, values, ih hfit.2.2 hrest.append, ?_⟩
    rw [Span.cut, Nat.add_sub_cancel_left, hrest.field, ofSpan_indexLine hfit]
    rfl

/-- The first offset is the size of the table, so a quarter of it is the number of values. -/
theorem lineCount_indexedBytes {values : List TaggedValue}
    (h : FitIndex extended (4 * values.length) values) :
    lineCount extended (indexedBytes extended values) = values.length := by
  cases values with
  | nil => cases extended <;> rfl
  | cons value values =>
    obtain ⟨rest, hregion⟩ : ∃ rest, indexedBytes extended (value :: values) =
        wordBytes value.column ++
          (wordBytes (value.indexLine extended (4 * (value :: values).length)).word ++ rest) := by
      simp only [indexedBytes, indexLines, List.flatMap_cons, IndexLine.bytes, List.append_assoc]
      exact ⟨_, rfl⟩
    have hstart : (indexedBytes extended (value :: values)).RestAt 0 _ := ⟨Nat.zero_le _, hregion⟩
    have hword : (indexedBytes extended (value :: values)).u16At 2 = _ := hstart.append.u16At
    have hfirst : lineAt (indexedBytes extended (value :: values)) 0 =
        value.indexLine extended (4 * (value :: values).length) := by
      rw [lineAt, hstart.u16At, hword]
      rfl
    rw [lineCount, firstOffset, hfirst, offsetOf_indexLine value h.1]
    exact Nat.mul_div_cancel_left _ (by omega)

theorem restAt_indexedBytes (extended : Bool) (values : List TaggedValue) :
    (indexedBytes extended values).RestAt (4 * values.length)
      (values.flatMap (·.value.span)) := by
  have happend := Bytes.restAt_append
    ((indexLines extended (4 * values.length) values).flatMap IndexLine.bytes)
    (values.flatMap (·.value.span))
  rwa [length_flatMap_of_length IndexLine.length_bytes, length_indexLines] at happend

theorem linesOf_indexedBytes {values : List TaggedValue}
    (h : FitIndex extended (4 * values.length) values) :
    linesOf extended (indexedBytes extended values) =
      indexLines extended (4 * values.length) values := by
  have htable := (restAt_indexedBytes extended values).1
  have hlines := readIndex_flatMap_bytes (indexLines extended (4 * values.length) values)
    (values.flatMap (·.value.span))
  rw [length_indexLines] at hlines
  rw [linesOf, lineCount_indexedBytes h, ← readIndex_eq htable]
  exact hlines

theorem readIndexed_indexedBytes {values : List TaggedValue}
    (h : FitIndex extended (4 * values.length) values) (position rowLength : Nat) :
    readIndexed (indexedBytes extended values) position rowLength extended = .ok values := by
  cases values with
  | nil => rfl
  | cons value values =>
    have hrest : (indexedBytes extended (value :: values)).RestAt _ _ :=
      restAt_indexedBytes extended (value :: values)
    have htable := hrest.1
    have hpos : 0 < (value :: values).length := Nat.succ_pos _
    have hregion : indexedBytes extended (value :: values) ≠ [] :=
      List.ne_nil_of_length_pos (by omega)
    rw [readIndexed_eq_ok_iff hregion, lineCount_indexedBytes h, linesOf_indexedBytes h]
    exact ⟨by omega, hpos, htable, ofLines_indexLines h hrest position rowLength⟩

end TaggedValue

end EseReader
