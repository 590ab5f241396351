import EseReader.MultiValue
import EseReader.Proofs.Offsets

/-!
# `EseReader/Proofs/MultiValue/Splitting.lean` — how the data of a column is split

What has to be true of the data and the flags of a column if it is to be split, and where it is split
then: at its offsets, of which all but the top bit count. From the first one on no byte is lost.

The other direction is a table written in front of values, with **the top bit of each offset at
will**. The first offset is then the size of the table, so it gives the number of values, and
splitting finds each of them again.
-/

set_option autoImplicit false

namespace EseReader

/-- The flags of several values that stand in the data: they are not a long value, and not stored by
offset. -/
structure ValueFlags.AreSeveral (flags : ValueFlags) : Prop where
  several : flags.has 0x08 = true
  notLong : flags.has 0x04 = false
  notIndirect : flags.has 0x10 = false

namespace MultiValue

variable {available count position start : Nat} {previous : Option Nat} {table data rest : Bytes}
  {starts : List Nat} {flags : ValueFlags} {values : MultiValue}

/-! ## The table -/

/-- The offset in a word; the top bit means nothing. -/
def startOf (word : UInt16) : Nat := (word &&& 0x7fff).toNat

def firstStart (data : Bytes) : Nat := startOf (data.u16At 0)

def valueCount (data : Bytes) : Nat := firstStart data / 2

def startsOf (data : Bytes) : List Nat :=
  (List.range (valueCount data)).map fun i => startOf (data.u16At (2 * i))

theorem startOf_eq (word : UInt16) : startOf word = word.toNat % 0x8000 := toNat_and_low word 15 rfl

theorem startsOf_eq (data : Bytes) :
    startsOf data = (VariableRegion.wordsAt data 0 (valueCount data)).map startOf := by
  rw [startsOf, VariableRegion.wordsAt, List.map_map]
  apply List.map_congr_left
  intro i _
  rw [Function.comp_apply, Nat.zero_add]

theorem wordsAt_cons_cons (low high : UInt8) (table : Bytes) (count : Nat) :
    VariableRegion.wordsAt (low :: high :: table) 0 (count + 1) =
      .ofNat (littleEndian [low, high]) :: VariableRegion.wordsAt table 0 count := by
  rw [VariableRegion.wordsAt_succ]
  congr 1
  apply List.map_congr_left
  intro i _
  have hdrop : (low :: high :: table).drop (0 + 2 + 2 * i) = table.drop (0 + 2 * i) := by
    rw [Nat.add_right_comm]
    rfl
  rw [Bytes.u16At, Bytes.u16At, Bytes.field, Bytes.field, hdrop]

/-- Everything that the tests of one offset say. -/
theorem readStarts_cons_eq_ok_iff {low high : UInt8} {start : Nat}
    (hstart : littleEndian [low, high] % 0x8000 = start) :
    readStarts available (count + 1) position previous (low :: high :: table) = .ok starts ↔
      (∀ earlier ∈ previous, earlier ≤ start) ∧ start ≤ available ∧
        ∃ rest, readStarts available count (position + 2) (some start) table = .ok rest ∧
          starts = start :: rest := by
  subst hstart
  have htail : ∀ start, (do
      if available < start then throw (.outOfBounds "multi-value entry" start 0 available)
      return start :: (← readStarts available count (position + 2) (some start) table) :
        Except Error (List Nat)) = .ok starts ↔
      start ≤ available ∧
        ∃ rest, readStarts available count (position + 2) (some start) table = .ok rest ∧
          starts = start :: rest := by
    intro start
    by_cases hbehind : available < start
    · simp only [if_pos hbehind]
      exact iff_of_false (fun h => by cases h) fun h => by omega
    · simp only [if_neg hbehind]
      rw [and_iff_right (Nat.le_of_not_lt hbehind)]
      refine bind_eq_ok_iff.trans (exists_congr fun rest => and_congr_right fun _ => ?_)
      exact (Except.ok.injEq _ _).to_iff.trans eq_comm
  cases previous with
  | none => exact (htail _).trans (and_iff_right (by simp)).symm
  | some earlier =>
    by_cases hback : littleEndian [low, high] % 0x8000 < earlier
    · simp only [readStarts, if_pos hback]
      refine iff_of_false (fun h => by cases h) fun h => ?_
      exact absurd hback (Nat.not_lt.mpr (h.1 earlier rfl))
    · simp only [readStarts, if_neg hback]
      refine (htail _).trans (and_iff_right ?_).symm
      intro other hother
      cases hother
      exact Nat.le_of_not_lt hback

theorem readStarts_eq_ok_iff :
    readStarts available count position previous table = .ok starts ↔
      2 * count ≤ table.length ∧ starts = (VariableRegion.wordsAt table 0 count).map startOf ∧
        (previous.toList ++ starts).IsChain (· ≤ ·) ∧ ∀ start ∈ starts, start ≤ available := by
  induction count generalizing position previous table starts with
  | zero =>
    constructor
    · rintro ⟨⟩
      refine ⟨Nat.zero_le _, rfl, ?_, List.forall_mem_nil _⟩
      cases previous with
      | none => exact .nil
      | some earlier => exact List.isChain_singleton earlier
    · rintro ⟨-, rfl, -, -⟩
      rfl
  | succ count ih =>
    match table with
    | [] => exact iff_of_false (fun h => by cases h) fun h => by simp at h
    | [_] => exact iff_of_false (fun h => by cases h) fun h => by simp at h; omega
    | low :: high :: table =>
      have hword : littleEndian [low, high] % 0x8000 =
          startOf (.ofNat (littleEndian [low, high])) := by
        rw [startOf_eq, toNat_ofNat_pair]
      have hchain : ∀ start rest, (previous.toList ++ start :: rest).IsChain (· ≤ ·) ↔
          (∀ earlier ∈ previous, earlier ≤ start) ∧
            ((some start).toList ++ rest).IsChain (· ≤ ·) := by
        intro start rest
        cases previous with
        | none => exact (and_iff_right (by simp)).symm
        | some earlier => exact List.isChain_cons_cons.trans (and_congr_left fun _ => by simp)
      rw [readStarts_cons_eq_ok_iff hword, wordsAt_cons_cons, List.map_cons, List.length_cons,
        List.length_cons]
      constructor
      · rintro ⟨hearlier, hinside, rest, hrest, rfl⟩
        obtain ⟨htable, rfl, hordered, hlater⟩ := ih.mp hrest
        exact ⟨by omega, rfl, (hchain _ _).mpr ⟨hearlier, hordered⟩,
          List.forall_mem_cons.mpr ⟨hinside, hlater⟩⟩
      · rintro ⟨htable, rfl, hordered, hinside⟩
        obtain ⟨hearlier, hordered⟩ := (hchain _ _).mp hordered
        obtain ⟨hstart, hlater⟩ := List.forall_mem_cons.mp hinside
        exact ⟨hearlier, hstart, _, ih.mpr ⟨by omega, rfl, hordered, hlater⟩, rfl⟩

/-! ## Data that can be split -/

/-- Starts in order, none of them behind the end. -/
structure StartsWithin (available : Nat) (starts : List Nat) : Prop where
  ordered : starts.Pairwise (· ≤ ·)
  inside : ∀ start ∈ starts, start ≤ available

/-- What the data and the flags of a column have to be like if it is to be split. -/
structure Splittable (data : Bytes) (flags : ValueFlags) : Prop where
  flags : flags.AreSeveral
  count : 1 ≤ valueCount data
  table : 2 * valueCount data ≤ data.length
  ordered : (startsOf data).Pairwise (· ≤ ·)
  inside : (startsOf data).getLastD 0 ≤ data.length

/-- Of offsets in order it is enough to look at the last one. -/
theorem startsWithin_iff :
    StartsWithin available starts ↔ (starts ++ [available]).IsChain (· ≤ ·) := by
  rw [List.isChain_iff_pairwise, List.pairwise_append]
  constructor
  · rintro ⟨hordered, hinside⟩
    exact ⟨hordered, List.pairwise_singleton _ _, by simpa using hinside⟩
  · rintro ⟨hordered, -, hinside⟩
    exact ⟨hordered, by simpa using hinside⟩

theorem startsWithin_startsOf_iff : StartsWithin data.length (startsOf data) ↔
    (startsOf data).Pairwise (· ≤ ·) ∧ (startsOf data).getLastD 0 ≤ data.length :=
  startsWithin_iff.trans Span.isChain_append_iff

theorem readStarts_table_eq_ok_iff :
    readStarts data.length (valueCount data) 0 none data = .ok starts ↔
      2 * valueCount data ≤ data.length ∧ StartsWithin data.length (startsOf data) ∧
        starts = startsOf data := by
  rw [readStarts_eq_ok_iff, ← startsOf_eq, Option.toList_none, List.nil_append,
    List.isChain_iff_pairwise]
  constructor
  · rintro ⟨htable, rfl, hordered, hinside⟩
    exact ⟨htable, ⟨hordered, hinside⟩, rfl⟩
  · rintro ⟨htable, hwithin, rfl⟩
    exact ⟨htable, rfl, hwithin.ordered, hwithin.inside⟩

theorem parse_eq_ok_iff :
    parse data flags = .ok values ↔ Splittable data flags ∧ values = ⟨data, startsOf data⟩ := by
  unfold parse
  by_cases hsingle : (!flags.isMultiValue) = true
  · simp only [if_pos hsingle]
    refine iff_of_false (fun h => by cases h) fun h => ?_
    have hseveral : flags.isMultiValue = true := h.1.flags.several
    rw [hseveral] at hsingle
    cases hsingle
  by_cases hkind : (flags.isLongValue || flags.isIndirect) = true
  · simp only [if_neg hsingle, if_pos hkind]
    refine iff_of_false (fun h => by cases h) fun h => ?_
    have hlong : flags.isLongValue = false := h.1.flags.notLong
    have hindirect : flags.isIndirect = false := h.1.flags.notIndirect
    rw [hlong, hindirect] at hkind
    cases hkind
  have hflags : flags.AreSeveral := by
    rw [Bool.not_eq_true', Bool.not_eq_false] at hsingle
    obtain ⟨hlong, hindirect⟩ := Bool.or_eq_false_iff.mp (Bool.eq_false_iff.mpr hkind)
    exact ⟨hsingle, hlong, hindirect⟩
  have hcount : (data.u16At 0).toNat % 0x8000 / 2 = valueCount data := by
    rw [valueCount, firstStart, startOf_eq]
  simp only [if_neg hsingle, if_neg hkind]
  constructor
  · intro h
    obtain ⟨first, hfirst, h⟩ := bind_eq_ok_iff.mp h
    obtain ⟨-, rfl⟩ := Bytes.readU16_eq_ok_iff.mp hfirst
    rw [hcount] at h
    by_cases hnone : valueCount data = 0
    · simp only [if_pos hnone] at h
      cases h
    simp only [if_neg hnone] at h
    obtain ⟨starts, hstarts, h⟩ := bind_eq_ok_iff.mp h
    cases h
    obtain ⟨htable, hwithin, rfl⟩ := readStarts_table_eq_ok_iff.mp hstarts
    obtain ⟨hordered, hinside⟩ := startsWithin_startsOf_iff.mp hwithin
    exact ⟨⟨hflags, Nat.pos_of_ne_zero hnone, htable, hordered, hinside⟩, rfl⟩
  · rintro ⟨⟨-, hsome, htable, hordered, hinside⟩, rfl⟩
    have hwithin := startsWithin_startsOf_iff.mpr ⟨hordered, hinside⟩
    have hstarts := readStarts_table_eq_ok_iff.mpr ⟨htable, hwithin, rfl⟩
    have hfirst : data.readU16 0 "multi-value offset table" = .ok (data.u16At 0) :=
      Bytes.readU16_eq_ok_iff.mpr ⟨by omega, rfl⟩
    rw [hfirst, bind_eq_ok_iff]
    refine ⟨_, rfl, ?_⟩
    rw [hcount]
    simp only [if_neg (Nat.ne_of_gt hsome)]
    exact bind_eq_ok_iff.mpr ⟨_, hstarts, rfl⟩

theorem startsWithin_of_parse (h : parse data flags = .ok values) :
    values.data = data ∧ StartsWithin data.length values.starts := by
  obtain ⟨hsplittable, rfl⟩ := parse_eq_ok_iff.mp h
  exact ⟨rfl, startsWithin_startsOf_iff.mpr ⟨hsplittable.ordered, hsplittable.inside⟩⟩

/-! ## The values -/

theorem toList_eq (values : MultiValue) :
    values.toList = (Span.between values.data.length values.starts).map (·.cut values.data) := by
  rw [toList]
  induction values.starts with
  | nil => rfl
  | cons start starts ih =>
    cases starts with
    | nil =>
      have hlast : values.data.field start (values.data.length - start) = values.data.drop start := by
        rw [Bytes.field, ← List.length_drop, List.take_length]
      rw [cut, Span.between, List.map_cons, Span.cut]
      exact congrArg (· :: []) hlast.symm
    | cons next starts =>
      rw [cut, ih]
      rfl

theorem get?_eq (values : MultiValue) (index : Nat) : values.get? index = values.toList[index]? := by
  rw [toList_eq, List.getElem?_map, Span.getElem?_between, Option.map_map]
  rfl

/-- What splitting says about the data. -/
structure Splits (data : Bytes) (values : MultiValue) : Prop where
  size : values.size = valueCount data
  adjacent : ∃ spans, spans.length = valueCount data ∧
    VariableRegion.Tiles (firstStart data) spans data.length ∧
    values.toList = spans.map (·.cut data)
  whole : values.toList.flatten = data.drop (firstStart data)
  get? : ∀ index, values.get? index = values.toList[index]?
  behind : ∀ index, valueCount data ≤ index → values.get? index = none

theorem length_startsOf (data : Bytes) : (startsOf data).length = valueCount data := by
  rw [startsOf, List.length_map, List.length_range]

theorem startsOf_eq_cons (h : 1 ≤ valueCount data) :
    ∃ later, startsOf data = firstStart data :: later := by
  obtain ⟨count, hcount⟩ := Nat.exists_eq_succ_of_ne_zero (Nat.ne_of_gt h)
  rw [startsOf, hcount, List.range_succ_eq_map, List.map_cons]
  exact ⟨_, rfl⟩

theorem splits_of_parse (h : parse data flags = .ok values) : Splits data values := by
  obtain ⟨hsplittable, rfl⟩ := parse_eq_ok_iff.mp h
  obtain ⟨later, hlater⟩ := startsOf_eq_cons hsplittable.count
  have hchain := Span.isChain_append_iff.mpr ⟨hsplittable.ordered, hsplittable.inside⟩
  have hlist := toList_eq ⟨data, startsOf data⟩
  have hlength := Span.length_between data.length (startsOf data)
  rw [length_startsOf] at hlength
  refine ⟨length_startsOf data, ⟨_, hlength, ?_, hlist⟩, ?_, get?_eq _, ?_⟩
  · rw [hlater] at hchain ⊢
    exact Span.tiles_between hchain
  · rw [hlist]
    simp only
    rw [hlater] at hchain ⊢
    exact Span.flatten_cut_between hchain
  · intro index hindex
    rw [get?_eq, hlist, List.getElem?_eq_none]
    rwa [List.length_map, hlength]

/-! ## A table as it is written -/

/-- A value with the top bit that its offset is to have. -/
structure Part where
  data : Bytes
  marked : Bool
  deriving DecidableEq, Repr

/-- Where values stand that follow each other from `start` on. -/
def startsFrom : (start : Nat) → List Part → List Nat
  | _, [] => []
  | start, part :: parts => start :: startsFrom (start + part.data.length) parts

def startWord (marked : Bool) (start : Nat) : UInt16 :=
  .ofNat (if marked then start + 0x8000 else start)

/-- The words of values that follow each other from `start` on. -/
def wordsFrom : (start : Nat) → List Part → List UInt16
  | _, [] => []
  | start, part :: parts =>
    startWord part.marked start :: wordsFrom (start + part.data.length) parts

/-- The table and behind it the values. -/
def bytes (parts : List Part) : Bytes :=
  (wordsFrom (2 * parts.length) parts).flatMap wordBytes ++ parts.flatMap (·.data)

/-- Whether the offsets of values leave the top bit free. -/
def Fit (parts : List Part) : Prop := ∀ start ∈ startsFrom (2 * parts.length) parts, start < 0x8000

instance (parts : List Part) : Decidable (Fit parts) :=
  inferInstanceAs (Decidable (∀ start ∈ startsFrom (2 * parts.length) parts, start < 0x8000))

variable {parts : List Part}

theorem startOf_startWord (h : start < 0x8000) (marked : Bool) :
    startOf (startWord marked start) = start := by
  cases marked with
  | false =>
    have hsmall : start < 0x10000 := by omega
    have hword : (startWord false start).toNat = start := UInt16.toNat_ofNat_of_lt' hsmall
    rw [startOf_eq, hword, Nat.mod_eq_of_lt h]
  | true =>
    have hsmall : start + 0x8000 < 0x10000 := by omega
    have hword : (startWord true start).toNat = start + 0x8000 := UInt16.toNat_ofNat_of_lt' hsmall
    rw [startOf_eq, hword, Nat.add_mod_right, Nat.mod_eq_of_lt h]

theorem length_wordsFrom (start : Nat) (parts : List Part) :
    (wordsFrom start parts).length = parts.length := by
  induction parts generalizing start with
  | nil => rfl
  | cons part parts ih => rw [wordsFrom, List.length_cons, ih, List.length_cons]

theorem map_startOf_wordsFrom (h : ∀ place ∈ startsFrom start parts, place < 0x8000) :
    (wordsFrom start parts).map startOf = startsFrom start parts := by
  induction parts generalizing start with
  | nil => rfl
  | cons part parts ih =>
    obtain ⟨hstart, hlater⟩ := List.forall_mem_cons.mp h
    rw [wordsFrom, List.map_cons, startOf_startWord hstart, ih hlater, startsFrom]

/-- Where the values stand, the last one ends with the data. -/
theorem isChain_startsFrom (h : data.RestAt start (parts.flatMap (·.data))) :
    (startsFrom start parts ++ [data.length]).IsChain (· ≤ ·) := by
  induction parts generalizing start with
  | nil => exact List.isChain_singleton _
  | cons part parts ih =>
    rw [List.flatMap_cons] at h
    have hnext := h.append
    refine Span.isChain_cons_append_iff.mpr ⟨?_, ih hnext⟩
    cases parts with
    | nil => exact h.1
    | cons next parts => exact Nat.le_add_right start _

theorem cut_startsFrom (h : data.RestAt start (parts.flatMap (·.data))) :
    cut data (startsFrom start parts) = parts.map (·.data) := by
  induction parts generalizing start with
  | nil => rfl
  | cons part parts ih =>
    rw [List.flatMap_cons] at h
    cases parts with
    | nil =>
      rw [List.flatMap_nil, List.append_nil] at h
      exact congrArg (· :: []) h.2
    | cons next parts =>
      have hrest := ih h.append
      rw [startsFrom] at hrest
      rw [startsFrom, startsFrom, cut, hrest, Nat.add_sub_cancel_left, h.field]
      rfl

theorem restAt_parts (parts : List Part) :
    (bytes parts).RestAt (2 * parts.length) (parts.flatMap (·.data)) := by
  have h := Bytes.restAt_append ((wordsFrom (2 * parts.length) parts).flatMap wordBytes)
    (parts.flatMap (·.data))
  rwa [length_flatMap_of_length length_wordBytes, length_wordsFrom] at h

/-- The first offset is the size of the table. -/
theorem valueCount_bytes (hparts : parts ≠ []) (h : Fit parts) :
    valueCount (bytes parts) = parts.length := by
  obtain ⟨part, later, rfl⟩ := List.exists_cons_of_ne_nil hparts
  have hstart : (bytes (part :: later)).RestAt 0 (wordBytes (startWord part.marked
      (2 * (part :: later).length)) ++ _) := ⟨Nat.zero_le _, List.append_assoc _ _ _⟩
  have hfirst := (List.forall_mem_cons.mp h).1
  rw [valueCount, firstStart, hstart.u16At, startOf_startWord hfirst]
  exact Nat.mul_div_cancel_left _ Nat.two_pos

theorem startsOf_bytes (hparts : parts ≠ []) (h : Fit parts) :
    startsOf (bytes parts) = startsFrom (2 * parts.length) parts := by
  have htable : (bytes parts).RestAt 0 (bytes parts) := ⟨Nat.zero_le _, rfl⟩
  have hwords := VariableRegion.wordsAt_of_restAt htable
  rw [length_wordsFrom] at hwords
  rw [startsOf_eq, valueCount_bytes hparts h, hwords, map_startOf_wordsFrom h]

theorem parse_bytes (hparts : parts ≠ []) (h : Fit parts) (hflags : flags.AreSeveral) :
    parse (bytes parts) flags = .ok ⟨bytes parts, startsFrom (2 * parts.length) parts⟩ := by
  have hrest := restAt_parts parts
  obtain ⟨hordered, hinside⟩ := Span.isChain_append_iff.mp (isChain_startsFrom hrest)
  have hcount := valueCount_bytes hparts h
  have hstarts := startsOf_bytes hparts h
  refine parse_eq_ok_iff.mpr ⟨?_, by rw [hstarts]⟩
  rw [← hstarts] at hordered hinside
  refine ⟨hflags, ?_, ?_, hordered, hinside⟩
  · rw [hcount]
    exact List.length_pos_iff.mpr hparts
  · rw [hcount]
    exact hrest.1

/-- **When a column can be split, and into what.** Its flags have to say that there are several values
in it; the first offset has to announce at least one, and the table has to be there; the offsets may
not go back, and the last one has to be inside: no less is enough, and no more is asked for. Then
there are as many values as the first offset announces. They are next to each other, and together
they are the data from the first offset on; going through them gives the same as taking each at its
index, and behind the last one there is nothing. And if values are written behind a table of their
offsets, with the top bit of each offset at will, splitting finds **these values and no others**. -/
theorem parse_splits_and_undoes :
    (∀ data flags, ((∃ values, parse data flags = .ok values) ↔ Splittable data flags) ∧
      ∀ values, parse data flags = .ok values → Splits data values) ∧
    ∀ (parts : List Part) (flags : ValueFlags), parts ≠ [] → Fit parts → flags.AreSeveral →
      (parse (bytes parts) flags).map toList = .ok (parts.map (·.data)) := by
  refine ⟨fun data flags => ⟨?_, fun values => splits_of_parse⟩, ?_⟩
  · constructor
    · rintro ⟨values, h⟩
      exact (parse_eq_ok_iff.mp h).1
    · intro h
      exact ⟨_, parse_eq_ok_iff.mpr ⟨h, rfl⟩⟩
  · intro parts flags hparts hfit hflags
    rw [parse_bytes hparts hfit hflags]
    exact congrArg Except.ok (cut_startsFrom (restAt_parts parts))

/-- Two values. The first offset is odd and has its top bit set, and a byte is left out. -/
def oddOffsets : Bytes := [5, 0x80, 7, 0, 0xff, 0x61, 0x62, 0x63]

/-- Three values, one of them empty. -/
def threeParts : List Part := [⟨[0x61, 0x62], true⟩, ⟨[], false⟩, ⟨[0x63], true⟩]

theorem parse_splits_and_undoes_sample :
    Splittable oddOffsets ⟨8⟩ ∧
      (∃ values, parse oddOffsets ⟨8⟩ = .ok values ∧ Splits oddOffsets values ∧
        values.toList = [[0x61, 0x62], [0x63]]) ∧
      bytes threeParts = [6, 0x80, 8, 0, 8, 0x80, 0x61, 0x62, 0x63] ∧
      (parse (bytes threeParts) ⟨9⟩).map toList = .ok [[0x61, 0x62], [], [0x63]] := by
  obtain ⟨hsplit, hundo⟩ := parse_splits_and_undoes
  have hsplittable : Splittable oddOffsets ⟨8⟩ :=
    { flags := ⟨rfl, rfl, rfl⟩
      count := by decide
      table := by decide
      ordered := by decide
      inside := by decide }
  obtain ⟨values, hvalues⟩ := (hsplit oddOffsets ⟨8⟩).1.mpr hsplittable
  have hread : parse oddOffsets ⟨8⟩ = .ok ⟨oddOffsets, [5, 7]⟩ := rfl
  obtain rfl : ⟨oddOffsets, [5, 7]⟩ = values := Except.ok.inj (hread.symm.trans hvalues)
  exact ⟨hsplittable, ⟨_, hread, (hsplit oddOffsets ⟨8⟩).2 _ hread, rfl⟩, rfl,
    hundo threeParts ⟨9⟩ (by decide) (by decide) ⟨rfl, rfl, rfl⟩⟩

end MultiValue

end EseReader
