import EseReader.Proofs.Offsets
import EseReader.Proofs.Row.Guarded
import EseReader.Proofs.Row.Image

/-!
# `EseReader/Proofs/Row/Index.lean` — which regions have an index, and what the lines locate

The first offset of an index has two uses: the first value starts there, and a quarter of it is the
number of lines. Everything else in the table is checked against it or against the line before, so
whether an index can be read comes down to one property of its offsets: they are a chain that ends
with the region (`exists_readIndexed_iff`).

Behind the table there is nothing but the spans of the values. A span that is not empty starts with
a byte of flags if the layout or its line says so; put back in front of the data, these bytes make up
**the region from the first offset on** (`flatMap_span_of_readIndexed`).
-/

set_option autoImplicit false

namespace EseReader

namespace TaggedValue

variable {region : Bytes} {offset rowLength : Nat} {extended : Bool} {lines : List IndexLine}
  {values : List TaggedValue}

/-! ## The table -/

/-- The bits of a word that are an offset. -/
def offsetMask (extended : Bool) : UInt16 := if extended then 0x7fff else 0x3fff

/-- The offset in the word of a line. -/
def offsetOf (extended : Bool) (line : IndexLine) : Nat :=
  (line.word &&& offsetMask extended).toNat

/-- The line at place `i` of the table. -/
def lineAt (region : Bytes) (i : Nat) : IndexLine :=
  ⟨region.u16At (4 * i), region.u16At (4 * i + 2)⟩

def firstOffset (extended : Bool) (region : Bytes) : Nat := offsetOf extended (lineAt region 0)

def lineCount (extended : Bool) (region : Bytes) : Nat := firstOffset extended region / 4

def linesOf (extended : Bool) (region : Bytes) : List IndexLine :=
  (List.range (lineCount extended region)).map (lineAt region)

def offsetsOf (extended : Bool) (region : Bytes) : List Nat :=
  (linesOf extended region).map (offsetOf extended)

theorem offset_eq (line : IndexLine) (extended : Bool) :
    line.offset extended = offsetOf extended line := by
  cases extended with
  | true => exact (toNat_and_low line.word 15 rfl).symm
  | false => exact (toNat_and_low line.word 14 rfl).symm

theorem readIndex_eq {count : Nat} {region : Bytes} (h : 4 * count ≤ region.length) :
    readIndex count region = (List.range count).map (lineAt region) := by
  induction count generalizing region with
  | zero => cases region <;> rfl
  | succ count ih =>
    match region, h with
    | a :: b :: c :: d :: rest, h =>
      simp only [List.length_cons] at h
      rw [readIndex, ih (by omega), List.range_succ_eq_map, List.map_cons, List.map_map]
      rfl

theorem checkOrder_eq_ok_iff :
    checkOrder extended lines = .ok () ↔ (lines.map (offsetOf extended)).IsChain (· ≤ ·) := by
  induction lines with
  | nil => exact iff_of_true rfl .nil
  | cons first lines ih =>
    cases lines with
    | nil => exact iff_of_true rfl (List.isChain_singleton _)
    | cons second lines =>
      simp only [List.map_cons, List.isChain_cons_cons, checkOrder, offset_eq] at ih ⊢
      split
      case isTrue hback => exact iff_of_false (fun h => by cases h) fun h => by omega
      case isFalse hforward => exact ih.trans (and_iff_right (by omega)).symm

/-! ## The values -/

/-- What one line contributes: its column and its span, and flags if the span has a byte for them
and the layout or the line calls for them. -/
structure Locates (extended : Bool) (line : IndexLine) (value : TaggedValue) : Prop where
  column : value.column = line.column
  flagged : value.value.flags.isSome = true ↔
    value.value.span ≠ [] ∧ (extended = true ∨ line.word &&& 0x4000 ≠ 0)

theorem isFlagged_iff {line : IndexLine} :
    line.isFlagged extended = true ↔ extended = true ∨ line.word &&& 0x4000 ≠ 0 := by
  rw [IndexLine.isFlagged, Bool.or_eq_true, bne_iff_ne]

theorem locates_ofSpan (line : IndexLine) (bytes : Bytes) :
    Locates extended line ⟨line.column, .ofSpan (line.isFlagged extended) bytes⟩ where
  column := rfl
  flagged := by
    rw [StoredValue.isSome_flags_ofSpan_iff, StoredValue.span_ofSpan, isFlagged_iff]

/-- Everything that one step of the reader says, from its test to its value. -/
theorem ofLines_cons_eq_ok_iff {line : IndexLine} :
    ofLines region offset rowLength extended (line :: lines) = .ok values ↔
      let span : Span := ⟨offsetOf extended line,
        (lines.map (offsetOf extended)).headD region.length⟩
      (span.start ≤ span.stop ∧ span.stop ≤ region.length) ∧
        ∃ rest, ofLines region offset rowLength extended lines = .ok rest ∧
          values = ⟨line.column, .ofSpan (line.isFlagged extended) (span.cut region)⟩ :: rest := by
  have hstop : (lines.map (offsetOf extended)).headD region.length =
      (lines.head?.map (·.offset extended)).getD region.length := by
    cases lines with
    | nil => rfl
    | cons next lines => exact (offset_eq next extended).symm
  simp only [hstop, ofLines_eq, offset_eq]
  split
  case isTrue houtside => exact iff_of_false (fun h => by cases h) fun h => by omega
  case isFalse hinside =>
    rw [bind_eq_ok_iff, and_iff_right (by omega)]
    refine exists_congr fun rest => and_congr_right fun _ => ?_
    exact (Except.ok.injEq _ _).to_iff.trans eq_comm

theorem exists_ofLines_iff :
    (∃ values, ofLines region offset rowLength extended lines = .ok values) ↔
      (lines.map (offsetOf extended) ++ [region.length]).IsChain (· ≤ ·) := by
  induction lines with
  | nil => exact iff_of_true ⟨[], rfl⟩ (List.isChain_singleton _)
  | cons line lines ih =>
    rw [List.map_cons, Span.isChain_cons_append_iff, ← ih]
    constructor
    · rintro ⟨values, h⟩
      obtain ⟨⟨horder, -⟩, rest, hrest, -⟩ := ofLines_cons_eq_ok_iff.mp h
      exact ⟨horder, rest, hrest⟩
    · rintro ⟨horder, rest, hrest⟩
      have hinside : (lines.map (offsetOf extended)).headD region.length ≤ region.length :=
        Span.headD_le_of_isChain (ih.mp ⟨rest, hrest⟩)
      exact ⟨_, ofLines_cons_eq_ok_iff.mpr ⟨⟨horder, hinside⟩, rest, hrest, rfl⟩⟩

theorem forall₂_locates_of_ofLines
    (h : ofLines region offset rowLength extended lines = .ok values) :
    List.Forall₂ (Locates extended) lines values := by
  induction lines generalizing values with
  | nil =>
    cases h
    exact .nil
  | cons line lines ih =>
    obtain ⟨-, rest, hrest, rfl⟩ := ofLines_cons_eq_ok_iff.mp h
    exact .cons (locates_ofSpan line _) (ih hrest)

theorem map_span_of_ofLines (h : ofLines region offset rowLength extended lines = .ok values) :
    values.map (·.value.span) =
      (Span.between region.length (lines.map (offsetOf extended))).map (·.cut region) := by
  induction lines generalizing values with
  | nil =>
    cases h
    rfl
  | cons line lines ih =>
    obtain ⟨-, rest, hrest, rfl⟩ := ofLines_cons_eq_ok_iff.mp h
    rw [List.map_cons, StoredValue.span_ofSpan, ih hrest, List.map_cons, Span.between, List.map_cons]

/-! ## Regions -/

/-- What a region has to be like if it is not empty and its index is to be read. -/
structure HasIndex (extended : Bool) (region : Bytes) : Prop where
  header : 4 ≤ region.length
  count : 1 ≤ lineCount extended region
  table : 4 * lineCount extended region ≤ region.length
  ordered : (offsetsOf extended region).Pairwise (· ≤ ·)
  inside : (offsetsOf extended region).getLastD 0 ≤ region.length

theorem readIndexed_eq_ok_iff (hregion : region ≠ []) :
    readIndexed region offset rowLength extended = .ok values ↔
      4 ≤ region.length ∧ 1 ≤ lineCount extended region ∧
        4 * lineCount extended region ≤ region.length ∧
        ofLines region offset rowLength extended (linesOf extended region) = .ok values := by
  have hfirst : (⟨region.u16At 0, region.u16At 2⟩ : IndexLine) = lineAt region 0 := rfl
  have hcount : (lineAt region 0).offset extended / 4 = lineCount extended region := by
    rw [offset_eq]
    rfl
  have hlength := List.length_pos_iff.mpr hregion
  simp only [readIndexed, hfirst, hcount]
  rw [if_neg (by omega)]
  by_cases hheader : region.length < 4
  · rw [if_pos hheader]
    exact iff_of_false (fun h => by cases h) fun h => by omega
  rw [if_neg hheader]
  by_cases hnone : lineCount extended region = 0
  · rw [if_pos hnone]
    exact iff_of_false (fun h => by cases h) fun h => by omega
  rw [if_neg hnone]
  by_cases htable : region.length < 4 * lineCount extended region
  · rw [if_pos htable]
    exact iff_of_false (fun h => by cases h) fun h => by omega
  rw [if_neg htable, readIndex_eq (Nat.le_of_not_lt htable), bind_eq_ok_iff, and_iff_right (by omega),
    and_iff_right (by omega), and_iff_right (by omega)]
  -- A table that the values can be taken from is in order, so the test of the order takes no more.
  constructor
  · rintro ⟨-, -, h⟩
    exact h
  · intro h
    have hchain := exists_ofLines_iff.mp ⟨values, h⟩
    exact ⟨(), checkOrder_eq_ok_iff.mpr (List.isChain_append.mp hchain).1, h⟩

theorem exists_readIndexed_iff (hregion : region ≠ []) :
    (∃ values, readIndexed region offset rowLength extended = .ok values) ↔
      HasIndex extended region := by
  have hlines : (∃ values, ofLines region offset rowLength extended (linesOf extended region) =
      .ok values) ↔ (offsetsOf extended region).Pairwise (· ≤ ·) ∧
        (offsetsOf extended region).getLastD 0 ≤ region.length :=
    exists_ofLines_iff.trans Span.isChain_append_iff
  constructor
  · rintro ⟨values, h⟩
    obtain ⟨hheader, hcount, htable, hvalues⟩ := (readIndexed_eq_ok_iff hregion).mp h
    obtain ⟨hordered, hinside⟩ := hlines.mp ⟨values, hvalues⟩
    exact ⟨hheader, hcount, htable, hordered, hinside⟩
  · rintro ⟨hheader, hcount, htable, hordered, hinside⟩
    obtain ⟨values, hvalues⟩ := hlines.mpr ⟨hordered, hinside⟩
    exact ⟨values, (readIndexed_eq_ok_iff hregion).mpr ⟨hheader, hcount, htable, hvalues⟩⟩

/-- The lines are there, and so there is a first one. -/
theorem offsetsOf_eq_cons (h : 1 ≤ lineCount extended region) :
    ∃ later, offsetsOf extended region = firstOffset extended region :: later := by
  obtain ⟨count, hcount⟩ := Nat.exists_eq_succ_of_ne_zero (Nat.ne_of_gt h)
  rw [offsetsOf, linesOf, hcount, List.range_succ_eq_map, List.map_cons, List.map_cons]
  exact ⟨_, rfl⟩

/-- What the values of a region say about it. -/
structure MakesUp (extended : Bool) (region : Bytes) (values : List TaggedValue) : Prop where
  lines : List.Forall₂ (Locates extended) (linesOf extended region) values
  spans : values.map (·.value.span) =
    (Span.between region.length (offsetsOf extended region)).map (·.cut region)
  whole : values.flatMap (·.value.span) = region.drop (firstOffset extended region)

theorem makesUp_of_readIndexed
    (h : readIndexed region offset rowLength extended = .ok values) :
    MakesUp extended region values := by
  by_cases hregion : region = []
  · -- There is no line in an empty region, and no byte to lose.
    subst hregion
    cases h
    cases extended <;> exact ⟨.nil, rfl, rfl⟩
  obtain ⟨-, hcount, -, hvalues⟩ := (readIndexed_eq_ok_iff hregion).mp h
  have hspans := map_span_of_ofLines hvalues
  refine ⟨forall₂_locates_of_ofLines hvalues, hspans, ?_⟩
  have hchain := exists_ofLines_iff.mp ⟨values, hvalues⟩
  obtain ⟨later, hlater⟩ := offsetsOf_eq_cons hcount
  rw [← offsetsOf, hlater] at hchain hspans
  rw [List.flatMap_def, hspans, Span.flatten_cut_between hchain]

/-- **Which regions can be read as an index with its values, and that nothing of them is lost.** An
empty region can. Any other one has to hold a line, the table that its first offset announces, and
offsets in it that do not go back and stay inside: no less is enough, and no more is asked for. Then
there is a value for each line, in the order of the table. It reaches from its own offset to the next
one, the last value to the end, and its first byte is taken for flags exactly if it has a byte and
either the layout or bit 14 of its word says so. With their flags in front, the values together are
the region from the first offset on. -/
theorem readIndexed_accepts_and_keeps (region : Bytes) (offset rowLength : Nat) (extended : Bool) :
    ((∃ values, readIndexed region offset rowLength extended = .ok values) ↔
        region = [] ∨ HasIndex extended region) ∧
      ∀ values, readIndexed region offset rowLength extended = .ok values →
        MakesUp extended region values := by
  refine ⟨?_, fun values => makesUp_of_readIndexed⟩
  by_cases hregion : region = []
  · subst hregion
    exact iff_of_true ⟨[], rfl⟩ (.inl rfl)
  · rw [exists_readIndexed_iff hregion]
    exact (or_iff_right hregion).symm

/-- Two lines, the first one with flags. The first offset is 9, so no line reaches to the byte in
front of the first value, and no value does. -/
def oddTable : Bytes := [0, 1, 9, 0x40, 1, 1, 12, 0, 0xff, 7, 0x61, 0x62, 0x63]

theorem readIndexed_accepts_and_keeps_sample :
    let values : List TaggedValue := [⟨256, [0x61, 0x62], some ⟨7⟩⟩, ⟨257, [0x63], none⟩]
    HasIndex false oddTable ∧ readIndexed oddTable 20 33 false = .ok values ∧
      MakesUp false oddTable values ∧ values.flatMap (·.value.span) = oddTable.drop 9 := by
  intro values
  have hindex : HasIndex false oddTable :=
    { header := by decide
      count := by decide
      table := by decide
      ordered := by decide
      inside := by decide }
  obtain ⟨haccepts, hkeeps⟩ := readIndexed_accepts_and_keeps oddTable 20 33 false
  obtain ⟨found, hfound⟩ := haccepts.mpr (.inr hindex)
  obtain rfl : values = found := Except.ok.inj hfound
  have hmakesUp := hkeeps values hfound
  exact ⟨hindex, hfound, hmakesUp, hmakesUp.whole⟩

end TaggedValue

end EseReader
