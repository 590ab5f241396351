import EseReader.Proofs.Bytes
import EseReader.Row.Variable
import Mathlib.Data.List.Chain
import Mathlib.Data.List.ReduceOption

/-!
# `EseReader/Proofs/Row/Variable.lean` — the variable columns of a row

Which rows have a variable part that can be read, and what is read from it. The reader goes from
word to word and keeps the end of the last present value; a word without a value leaves it where it
is. So its tests, taken together, are about the **ends of the present values** alone: they do not go
back, and the last of them is inside the row (`ofWords_eq_ok_iff`).

Each value starts where the one before it ends. Whatever is absent in between, the values that are
there lie next to each other: they tile the row from the end of the table to where the tagged part
begins (`tiles_of_ofRow`).
-/

set_option autoImplicit false

namespace EseReader

namespace VariableRegion

/-! ## Words -/

/-- The top bit of a word says that the column is absent. -/
def isAbsent (word : UInt16) : Bool := word &&& 0x8000 != 0

/-- The end that the other bits of a word spell. -/
def endOf (word : UInt16) : Nat := (word &&& 0x7fff).toNat

/-- The ends of the present values. -/
def ends (words : List UInt16) : List Nat := (words.filter (!isAbsent ·)).map endOf

theorem isAbsent_iff {word : UInt16} : isAbsent word = true ↔ 0x8000 ≤ word.toNat :=
  topBit_iff word

theorem isAbsent_eq_false_iff {word : UInt16} : isAbsent word = false ↔ word.toNat < 0x8000 := by
  rw [← Bool.not_eq_true, isAbsent_iff, Nat.not_le]

theorem endOf_of_present {word : UInt16} (h : isAbsent word = false) : endOf word = word.toNat := by
  have hlt := isAbsent_eq_false_iff.mp h
  rw [endOf, toNat_and_low word 15 rfl]
  exact Nat.mod_eq_of_lt hlt

theorem ends_cons_of_absent {word : UInt16} (h : isAbsent word = true) (words : List UInt16) :
    ends (word :: words) = ends words := by
  rw [ends, List.filter_cons_of_neg (by rw [h]; decide)]
  rfl

theorem ends_cons_of_present {word : UInt16} (h : isAbsent word = false) (words : List UInt16) :
    ends (word :: words) = endOf word :: ends words := by
  rw [ends, List.filter_cons_of_pos (by rw [h]; rfl)]
  rfl

/-! ## A table of words -/

theorem wordsAt_succ (row : Bytes) (offset count : Nat) :
    wordsAt row offset (count + 1) = row.u16At offset :: wordsAt row (offset + 2) count := by
  rw [wordsAt, List.range_succ_eq_map, List.map_cons, List.map_map]
  congr 1
  apply List.map_congr_left
  intro i _
  rw [Function.comp_apply, Nat.succ_eq_add_one, Nat.mul_add, Nat.add_comm (2 * i), Nat.add_assoc]

theorem wordsAt_of_restAt {row rest : Bytes} {offset : Nat} {words : List UInt16}
    (h : row.RestAt offset (words.flatMap wordBytes ++ rest)) :
    wordsAt row offset words.length = words := by
  induction words generalizing offset with
  | nil => rfl
  | cons word words ih =>
    rw [List.flatMap_cons, List.append_assoc] at h
    have htail : wordsAt row (offset + 2) words.length = words := ih h.append
    rw [List.length_cons, wordsAt_succ, h.u16At, htail]

/-! ## What is read -/

/-- The stretches of the values, if `previous` is the end of the last one before them. -/
def spansOf (payload : Nat) : (previous : Nat) → List UInt16 → List (Option Span)
  | _, [] => []
  | previous, word :: words =>
    if isAbsent word then none :: spansOf payload previous words
    else some ⟨payload + previous, payload + endOf word⟩ :: spansOf payload (endOf word) words

variable {rowLength payload previous : Nat} {words : List UInt16} {region : VariableRegion}

theorem spansOf_cons_of_absent {word : UInt16} (h : isAbsent word = true) :
    spansOf payload previous (word :: words) = none :: spansOf payload previous words :=
  if_pos h

theorem spansOf_cons_of_present {word : UInt16} (h : isAbsent word = false) :
    spansOf payload previous (word :: words) =
      some ⟨payload + previous, payload + endOf word⟩ :: spansOf payload (endOf word) words := by
  rw [spansOf, h]
  rfl

theorem le_getLastD {first : Nat} {rest : List Nat} (h : (first :: rest).IsChain (· ≤ ·)) :
    first ≤ rest.getLastD first := by
  induction rest generalizing first with
  | nil => exact Nat.le_refl _
  | cons second rest ih =>
    obtain ⟨hfirst, hrest⟩ := List.isChain_cons_cons.mp h
    rw [List.getLastD_cons]
    exact Nat.le_trans hfirst (ih hrest)

/-- **The words can be read exactly if the ends do not go back and the last one is inside**; then
each value goes from the end before it to its own. -/
theorem ofWords_eq_ok_iff (hprevious : payload + previous ≤ rowLength) (column : Nat) :
    ofWords rowLength payload column previous words = .ok region ↔
      (previous :: ends words).IsChain (· ≤ ·) ∧
        payload + (ends words).getLastD previous ≤ rowLength ∧
        region = ⟨spansOf payload previous words, payload + (ends words).getLastD previous⟩ := by
  induction words generalizing column previous region with
  | nil =>
    rw [ofWords, Except.ok.injEq]
    constructor
    · rintro rfl
      exact ⟨List.isChain_singleton _, hprevious, rfl⟩
    · rintro ⟨-, -, rfl⟩
      rfl
  | cons word words ih =>
    simp only [ofWords]
    cases hbit : isAbsent word with
    | true =>
      -- Neither the end nor the list of ends is touched.
      rw [if_pos (isAbsent_iff.mp hbit), spansOf_cons_of_absent hbit, ends_cons_of_absent hbit,
        bind_eq_ok_iff]
      constructor
      · rintro ⟨rest, hrest, h⟩
        cases h
        obtain ⟨hordered, hinside, rfl⟩ := (ih hprevious _).mp hrest
        exact ⟨hordered, hinside, rfl⟩
      · rintro ⟨hordered, hinside, rfl⟩
        exact ⟨_, (ih hprevious _).mpr ⟨hordered, hinside, rfl⟩, rfl⟩
    | false =>
      rw [if_neg (Nat.not_le.mpr (isAbsent_eq_false_iff.mp hbit)), spansOf_cons_of_present hbit,
        ends_cons_of_present hbit, endOf_of_present hbit, List.getLastD_cons,
        List.isChain_cons_cons]
      by_cases hback : word.toNat < previous
      · rw [if_pos hback]
        refine iff_of_false (fun h => by cases h) ?_
        rintro ⟨⟨hforward, -⟩, -⟩
        exact absurd hback (Nat.not_lt.mpr hforward)
      rw [if_neg hback]
      by_cases hbehind : rowLength < payload + word.toNat
      · rw [if_pos hbehind]
        refine iff_of_false (fun h => by cases h) ?_
        rintro ⟨⟨-, hordered⟩, hinside, -⟩
        -- Later ends are not smaller, so the last one would be behind the row as well.
        have hlast := le_getLastD hordered
        omega
      have hnext := Nat.le_of_not_lt hbehind
      rw [if_neg hbehind, bind_eq_ok_iff]
      constructor
      · rintro ⟨rest, hrest, h⟩
        cases h
        obtain ⟨hordered, hinside, rfl⟩ := (ih hnext _).mp hrest
        exact ⟨⟨Nat.le_of_not_lt hback, hordered⟩, hinside, rfl⟩
      · rintro ⟨⟨-, hordered⟩, hinside, rfl⟩
        exact ⟨_, (ih hnext _).mpr ⟨hordered, hinside, rfl⟩, rfl⟩

/-! ## The values lie next to each other -/

/-- Stretches without gaps between two places. -/
inductive Tiles : (start : Nat) → List Span → (stop : Nat) → Prop
  | nil (start : Nat) : Tiles start [] start
  | cons {start middle stop : Nat} {spans : List Span} (h : start ≤ middle)
    (rest : Tiles middle spans stop) : Tiles start (⟨start, middle⟩ :: spans) stop

theorem Tiles.le {start stop : Nat} {spans : List Span} (h : Tiles start spans stop) :
    start ≤ stop := by
  induction h with
  | nil start => exact Nat.le_refl start
  | cons h _ ih => exact Nat.le_trans h ih

/-- Each of them lies between the two places. -/
theorem Tiles.inside {start stop : Nat} {spans : List Span} (h : Tiles start spans stop) :
    ∀ span ∈ spans, span.start ≤ span.stop ∧ span.stop ≤ stop := by
  induction h with
  | nil start => exact List.forall_mem_nil _
  | cons h rest ih => exact List.forall_mem_cons.mpr ⟨⟨h, rest.le⟩, ih⟩

theorem field_append_field (data : Bytes) {start middle stop : Nat} (hfirst : start ≤ middle)
    (hsecond : middle ≤ stop) :
    data.field start (middle - start) ++ data.field middle (stop - middle) =
      data.field start (stop - start) := by
  have hdrop : data.drop middle = (data.drop start).drop (middle - start) := by
    rw [List.drop_drop, Nat.add_sub_cancel' hfirst]
  have hsize : stop - start = (middle - start) + (stop - middle) := by omega
  rw [Bytes.field, Bytes.field, Bytes.field, hdrop, hsize, List.take_add]

/-- What lies next to each other makes up the stretch as a whole. -/
theorem Tiles.flatten_cut {start stop : Nat} {spans : List Span} (h : Tiles start spans stop)
    (row : Bytes) : (spans.map (·.cut row)).flatten = row.field start (stop - start) := by
  induction h with
  | nil start =>
    rw [Nat.sub_self]
    exact List.take_zero.symm
  | cons horder hrest ih =>
    rw [List.map_cons, List.flatten_cons, ih, Span.cut, field_append_field row horder hrest.le]

/-- **The present values have no gaps**, whatever is absent between them. -/
theorem tiles_spansOf (payload : Nat) (h : (previous :: ends words).IsChain (· ≤ ·)) :
    Tiles (payload + previous) (spansOf payload previous words).reduceOption
      (payload + (ends words).getLastD previous) := by
  induction words generalizing previous with
  | nil => exact .nil _
  | cons word words ih =>
    cases hbit : isAbsent word with
    | true =>
      rw [ends_cons_of_absent hbit] at h ⊢
      rw [spansOf_cons_of_absent hbit, List.reduceOption_cons_of_none]
      exact ih h
    | false =>
      rw [ends_cons_of_present hbit] at h ⊢
      obtain ⟨hforward, hordered⟩ := List.isChain_cons_cons.mp h
      rw [spansOf_cons_of_present hbit, List.reduceOption_cons_of_some, List.getLastD_cons]
      exact .cons (Nat.add_le_add_left hforward payload) (ih hordered)

theorem map_isNone_spansOf (payload previous : Nat) (words : List UInt16) :
    (spansOf payload previous words).map Option.isNone = words.map isAbsent := by
  induction words generalizing previous with
  | nil => rfl
  | cons word words ih =>
    cases hbit : isAbsent word with
    | true => rw [spansOf_cons_of_absent hbit, List.map_cons, List.map_cons, ih, hbit]; rfl
    | false => rw [spansOf_cons_of_present hbit, List.map_cons, List.map_cons, ih, hbit]; rfl

/-! ## What does not matter -/

/-- The same word, or words of an absent column. -/
def Alike (a b : UInt16) : Prop := a = b ∨ isAbsent a = true ∧ isAbsent b = true

instance (a b : UInt16) : Decidable (Alike a b) := inferInstanceAs (Decidable (_ ∨ _))

/-- **The other bits of an absent column make no difference**, to a region or to an error. -/
theorem ofWords_congr {first second : Nat → UInt16} {indices : List Nat}
    (h : ∀ i ∈ indices, Alike (first i) (second i)) (rowLength payload column previous : Nat) :
    ofWords rowLength payload column previous (indices.map first) =
      ofWords rowLength payload column previous (indices.map second) := by
  induction indices generalizing column previous with
  | nil => rfl
  | cons i indices ih =>
    obtain ⟨halike, hrest⟩ := List.forall_mem_cons.mp h
    simp only [List.map_cons, ofWords]
    rcases halike with heq | ⟨hfirst, hsecond⟩
    · simp only [heq, ih hrest]
    · rw [if_pos (isAbsent_iff.mp hfirst), if_pos (isAbsent_iff.mp hsecond), ih hrest]

/-! ## Rows -/

/-- Where the values start: behind the table. -/
def payloadStart (header : RowHeader) : Nat :=
  header.variableOffset.toNat + 2 * header.variableCount

/-- The word of the variable column with that number. -/
def wordOf (row : Bytes) (header : RowHeader) (i : Nat) : UInt16 :=
  row.u16At (header.variableOffset.toNat + 2 * i)

def wordsOf (row : Bytes) (header : RowHeader) : List UInt16 :=
  (List.range header.variableCount).map (wordOf row header)

/-- What a row has to be like if its variable columns are to be read. -/
structure Readable (row : Bytes) (header : RowHeader) : Prop where
  table : 4 ≤ header.variableOffset.toNat
  payload : payloadStart header ≤ row.length
  ordered : (ends (wordsOf row header)).Pairwise (· ≤ ·)
  inside : payloadStart header + (ends (wordsOf row header)).getLastD 0 ≤ row.length

variable {row : Bytes} {header : RowHeader}

theorem isChain_zero_cons_iff {numbers : List Nat} :
    (0 :: numbers).IsChain (· ≤ ·) ↔ numbers.Pairwise (· ≤ ·) := by
  rw [List.isChain_iff_pairwise, List.pairwise_cons]
  exact and_iff_right fun _ _ => Nat.zero_le _

theorem ofRow_eq (row : Bytes) (header : RowHeader) :
    ofRow row header =
      if header.variableOffset.toNat < 4 ∨ row.length < payloadStart header then
        .error (.truncatedRow 128 header.variableOffset.toNat (2 * header.variableCount) row.length)
      else ofWords row.length (payloadStart header) 128 0 (wordsOf row header) :=
  rfl

theorem ofRow_eq_ok_iff : ofRow row header = .ok region ↔
    Readable row header ∧ region = ⟨spansOf (payloadStart header) 0 (wordsOf row header),
      payloadStart header + (ends (wordsOf row header)).getLastD 0⟩ := by
  rw [ofRow_eq]
  by_cases htable : header.variableOffset.toNat < 4 ∨ row.length < payloadStart header
  · rw [if_pos htable]
    refine iff_of_false (fun h => by cases h) ?_
    rintro ⟨⟨hfour, hpayload, -, -⟩, -⟩
    omega
  · obtain ⟨hfour, hpayload⟩ := not_or.mp htable
    have hpayload := Nat.le_of_not_lt hpayload
    rw [if_neg htable, ofWords_eq_ok_iff (by omega), isChain_zero_cons_iff]
    constructor
    · rintro ⟨hordered, hinside, rfl⟩
      exact ⟨⟨Nat.le_of_not_lt hfour, hpayload, hordered, hinside⟩, rfl⟩
    · rintro ⟨⟨-, -, hordered, hinside⟩, rfl⟩
      exact ⟨hordered, hinside, rfl⟩

theorem spans_of_ofRow (h : ofRow row header = .ok region) :
    region.spans = spansOf (payloadStart header) 0 (wordsOf row header) := by
  rw [(ofRow_eq_ok_iff.mp h).2]

theorem stop_of_ofRow (h : ofRow row header = .ok region) :
    region.stop = payloadStart header + (ends (wordsOf row header)).getLastD 0 := by
  rw [(ofRow_eq_ok_iff.mp h).2]

theorem stop_le_of_ofRow (h : ofRow row header = .ok region) : region.stop ≤ row.length := by
  rw [stop_of_ofRow h]
  exact (ofRow_eq_ok_iff.mp h).1.inside

theorem tiles_of_ofRow (h : ofRow row header = .ok region) :
    Tiles (payloadStart header) region.spans.reduceOption region.stop := by
  have hordered := (ofRow_eq_ok_iff.mp h).1.ordered
  have htiles := tiles_spansOf (payloadStart header) (isChain_zero_cons_iff.mpr hordered)
  rwa [Nat.add_zero, ← spans_of_ofRow h, ← stop_of_ofRow h] at htiles

theorem map_isNone_of_ofRow (h : ofRow row header = .ok region) :
    region.spans.map Option.isNone = (wordsOf row header).map isAbsent := by
  rw [spans_of_ofRow h, map_isNone_spansOf]

theorem length_spans_of_ofRow (h : ofRow row header = .ok region) :
    region.spans.length = header.variableCount := by
  have hlength := congrArg List.length (map_isNone_of_ofRow h)
  rwa [List.length_map, List.length_map, wordsOf, List.length_map, List.length_range] at hlength

theorem ofRow_congr {other : Bytes} (hlength : other.length = row.length)
    (h : ∀ i < header.variableCount, Alike (wordOf other header i) (wordOf row header i)) :
    ofRow other header = ofRow row header := by
  have halike : ∀ i ∈ List.range header.variableCount,
      Alike (wordOf other header i) (wordOf row header i) :=
    fun i hi => h i (List.mem_range.mp hi)
  rw [ofRow_eq, ofRow_eq, hlength, wordsOf, wordsOf, ofWords_congr halike]

end VariableRegion

end EseReader
