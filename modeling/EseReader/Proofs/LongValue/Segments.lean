import EseReader.LongValue
import EseReader.Proofs.Bytes.Order
import EseReader.Proofs.Tree.Chain

/-!
# `EseReader/Proofs/LongValue/Segments.lean` — the segments among the values of a tree

A long-value tree holds many long values at once, and values under keys that belong to none of them.
The segments of one of them are the values under its segment keys, in the order of the tree
(`LongValueKey.segmentsIn`). They make up a long value if each starts where the ones before it end
(`LongValue.RunsFrom`).

The assembly stops at the first key that does not start like the key of the long value. That nothing
is lost by it, and that nothing was lost in front of the place where it started, is the order of
keys: the keys that start alike stand together, and behind the common start they stand in the order
of the offsets that follow. So taking the values of a tree from the first segment key on is the same
as stitching these segments together (`consume_assemble`).
-/

set_option autoImplicit false

namespace EseReader

/-! ## The segments among some values -/

namespace LongValueKey

/-- The segment that a value is, if its key is a segment key. -/
def segment? (key : LongValueKey) (value : LeafValue) : Option Segment :=
  let offset := UInt32.ofNat (bigEndian (value.key.bytes.drop 4))
  if value.key = key.segment offset then some ⟨offset, value.data, value.location⟩ else none

def segmentsIn (key : LongValueKey) (values : List LeafValue) : List Segment :=
  values.filterMap key.segment?

variable {key : LongValueKey} {value : LeafValue} {segment : Segment} {first later : Key}

theorem toNat_lt_width (offset : UInt32) : offset.toNat < 256 ^ 4 := offset.toNat_lt

/-- The keys of segments stand in the order of their offsets. -/
theorem compare_segment (key : LongValueKey) (a b : UInt32) :
    KeyOrder.forward.compare (key.segment a) (key.segment b) = compare a.toNat b.toNat := by
  show compare (key.bytes ++ beBytes 4 a.toNat) (key.bytes ++ beBytes 4 b.toNat) = _
  rw [compare_append_left, compare_eq_compare_bigEndian (by rw [length_beBytes, length_beBytes]),
    bigEndian_beBytes (toNat_lt_width a), bigEndian_beBytes (toNat_lt_width b)]

theorem segment_zero_le (key : LongValueKey) (offset : UInt32) :
    KeyOrder.forward.Le (key.segment 0) (key.segment offset) := by
  rw [KeyOrder.Le, compare_segment]
  exact fun h => absurd (Nat.compare_eq_gt.mp h) (Nat.not_lt_zero _)

/-- The keys that start like the key of a long value stand together. -/
theorem startsWith_of_le (hlow : KeyOrder.forward.Le (key.segment 0) first)
    (hhigh : KeyOrder.forward.Le first later) (hlater : later.startsWith key.bytes = true) :
    first.startsWith key.bytes = true := by
  obtain ⟨rest, hrest⟩ := List.isPrefixOf_iff_prefix.mp hlater
  have hbetween : compare first.bytes (key.bytes ++ rest) ≠ .gt := by
    rw [hrest]
    exact hhigh
  exact List.isPrefixOf_iff_prefix.mpr (prefix_of_between hlow hbetween)

/-- A segment key is one of eight bytes that starts like the key of the long value. -/
theorem eq_segment_iff (hkey : key.bytes.length = 4) :
    first = key.segment (.ofNat (bigEndian (first.bytes.drop 4))) ↔
      first.startsWith key.bytes = true ∧ first.bytes.length = 8 := by
  constructor
  · intro h
    rw [h]
    refine ⟨List.isPrefixOf_iff_prefix.mpr (List.prefix_append _ _), ?_⟩
    show (key.bytes ++ beBytes 4 _).length = 8
    rw [List.length_append, length_beBytes, hkey]
  · rintro ⟨hstart, hlength⟩
    -- The four bytes behind the start are those of the number that they spell.
    obtain ⟨bytes⟩ := first
    obtain ⟨rest, rfl⟩ := List.isPrefixOf_iff_prefix.mp hstart
    have hrest : rest.length = 4 := by
      rw [List.length_append] at hlength
      omega
    have hnumber : bigEndian rest < 2 ^ 32 := by
      have hlt := bigEndian_lt rest
      rwa [hrest] at hlt
    show Key.mk (key.bytes ++ rest) = ⟨key.bytes ++ beBytes 4 _⟩
    rw [List.drop_left' hkey, UInt32.toNat_ofNat_of_lt' hnumber, ← hrest, beBytes_bigEndian]

theorem segment?_of_eq {offset : UInt32} (hkey : key.bytes.length = 4)
    (h : value.key = key.segment offset) :
    key.segment? value = some ⟨offset, value.data, value.location⟩ := by
  have hoffset : UInt32.ofNat (bigEndian (value.key.bytes.drop 4)) = offset := by
    have hrest : value.key.bytes.drop 4 = beBytes 4 offset.toNat := by
      rw [h]
      exact List.drop_left' hkey
    rw [hrest, bigEndian_beBytes (toNat_lt_width offset), UInt32.ofNat_toNat]
  simp only [segment?, hoffset]
  exact if_pos h

theorem of_segment?_eq_some (h : key.segment? value = some segment) :
    value.key = key.segment segment.offset ∧ segment.data = value.data ∧
      segment.location = value.location := by
  simp only [segment?] at h
  split at h
  case isTrue hsegment =>
    cases h
    exact ⟨hsegment, rfl, rfl⟩
  case isFalse => cases h

/-- The values that are not before the first segment key have all the segments. -/
theorem segment?_eq_none_of_lt (h : KeyOrder.forward.Lt value.key (key.segment 0)) :
    key.segment? value = none := by
  cases hsegment : key.segment? value with
  | none => rfl
  | some segment =>
    rw [(of_segment?_eq_some hsegment).1] at h
    exact absurd (segment_zero_le key segment.offset) (KeyOrder.not_le.mpr h)

theorem segmentsIn_eq_nil {values : List LeafValue}
    (h : ∀ value ∈ values, key.segment? value = none) : key.segmentsIn values = [] :=
  List.filterMap_eq_nil_iff.mpr h

theorem pairwise_segmentsIn {values : List LeafValue}
    (h : values.Pairwise fun value later => KeyOrder.forward.Lt value.key later.key) :
    (key.segmentsIn values).Pairwise (·.offset < ·.offset) := by
  refine List.pairwise_filterMap.mpr (h.imp ?_)
  intro value later hlt segment hsegment following hfollowing
  rw [(of_segment?_eq_some hsegment).1, (of_segment?_eq_some hfollowing).1, KeyOrder.Lt,
    compare_segment] at hlt
  exact UInt32.lt_iff_toNat_lt.mpr (Nat.compare_eq_lt.mp hlt)

end LongValueKey

/-! ## Segments that follow each other -/

namespace LongValue

/-- The number of bytes of some segments. -/
def extent (segments : List Segment) : Nat := (segments.map (·.data.length)).sum

/-- The first segment starts at `start`, and each later one where the one before it ends. -/
def RunsFrom (start : Nat) : List Segment → Prop
  | [] => True
  | segment :: later =>
    segment.offset.toNat = start ∧ RunsFrom (start + segment.data.length) later

instance decidableRunsFrom : (start : Nat) → (segments : List Segment) →
    Decidable (RunsFrom start segments)
  | _, [] => isTrue trivial
  | start, segment :: later =>
    have : Decidable (RunsFrom (start + segment.data.length) later) := decidableRunsFrom _ later
    inferInstanceAs (Decidable (_ ∧ _))

/-- Puts segments behind an assembly, until one of them does not start where it should. -/
def stitch (assembly : Assembly) : List Segment → Except Error Assembly
  | [] => .ok assembly
  | segment :: later =>
    if segment.offset.toNat ≠ assembly.expected then
      .error (.segmentGap (UInt32.ofNat assembly.expected) segment.offset)
    else
      stitch ⟨segment :: assembly.segments, assembly.expected + segment.data.length⟩ later

variable {start : Nat} {segment : Segment} {segments before later : List Segment}
  {assembly : Assembly}

theorem extent_cons (segment : Segment) (segments : List Segment) :
    extent (segment :: segments) = segment.data.length + extent segments := by
  rw [extent, List.map_cons, List.sum_cons, extent]

theorem length_toBytes (value : LongValue) : value.toBytes.length = extent value.segments := by
  rw [toBytes, List.length_flatMap, extent]

theorem stitch_append_of_runsFrom (h : RunsFrom assembly.expected before) :
    stitch assembly (before ++ later) =
      stitch ⟨before.reverse ++ assembly.segments, assembly.expected + extent before⟩ later := by
  induction before generalizing assembly with
  | nil => rfl
  | cons segment before ih =>
    obtain ⟨hoffset, hrest⟩ := h
    rw [List.cons_append, stitch, if_neg (not_not_intro hoffset), ih hrest, extent_cons,
      List.reverse_cons, List.append_assoc, Nat.add_assoc]
    rfl

theorem stitch_of_runsFrom (h : RunsFrom assembly.expected segments) :
    stitch assembly segments =
      .ok ⟨segments.reverse ++ assembly.segments, assembly.expected + extent segments⟩ := by
  have hstitch : stitch assembly (segments ++ []) = _ := stitch_append_of_runsFrom h
  rwa [List.append_nil] at hstitch

/-- Segments that do not follow each other have a first one that does not. -/
theorem runsFrom_or_exists_gap (start : Nat) (segments : List Segment) :
    RunsFrom start segments ∨ ∃ before segment later, segments = before ++ segment :: later ∧
      RunsFrom start before ∧ segment.offset.toNat ≠ start + extent before := by
  induction segments generalizing start with
  | nil => exact .inl trivial
  | cons first segments ih =>
    by_cases hfirst : first.offset.toNat = start
    · rcases ih (start + first.data.length) with hruns | ⟨before, segment, later, rfl, hruns, hgap⟩
      · exact .inl ⟨hfirst, hruns⟩
      · refine .inr ⟨first :: before, segment, later, rfl, ⟨hfirst, hruns⟩, ?_⟩
        rw [extent_cons, ← Nat.add_assoc]
        exact hgap
    · exact .inr ⟨[], first, segments, rfl, trivial, hfirst⟩

/-- Where segments end that follow each other. -/
theorem stop_of_runsFrom (h : RunsFrom start (before ++ [segment])) :
    segment.stop = start + extent (before ++ [segment]) := by
  induction before generalizing start with
  | nil =>
    rw [Segment.stop, h.1]
    rfl
  | cons first before ih =>
    rw [ih h.2, List.cons_append, extent_cons, Nat.add_assoc]

/-- The size of a long value is the number of its bytes. -/
theorem size_of_runsFrom {value : LongValue} (h : RunsFrom 0 value.segments) :
    value.size = value.toBytes.length := by
  rw [length_toBytes, size]
  rcases List.eq_nil_or_concat value.segments with hnil | ⟨before, last, hlast⟩
  · rw [hnil]
    rfl
  · rw [hlast, List.concat_eq_append] at h ⊢
    rw [List.getLast?_concat]
    exact (stop_of_runsFrom h).trans (Nat.zero_add _)

/-! ## Reading the segments

What one value of the tree does to an assembly: one with another start ends it, one that is no
segment is passed over, and a segment is put behind it. -/

variable {key : LongValueKey} {value : LeafValue} {values : List LeafValue}

theorem assemble_other (h : value.key.startsWith key.bytes = false) (assembly : Assembly) :
    assemble key (.ok assembly) (.ok value) = .enough (.ok assembly) := by
  simp only [assemble, h, Bool.not_false, if_true]

theorem assemble_passed (hkey : key.bytes.length = 4) (hstart : value.key.startsWith key.bytes = true)
    (hnone : key.segment? value = none) (assembly : Assembly) :
    assemble key (.ok assembly) (.ok value) = .more (.ok assembly) := by
  have hlength : value.key.bytes.length ≠ 8 := by
    intro hlength
    rw [LongValueKey.segment?_of_eq hkey
      ((LongValueKey.eq_segment_iff hkey).mpr ⟨hstart, hlength⟩)] at hnone
    cases hnone
  simp only [assemble, hstart, Bool.not_true, Bool.false_eq_true, if_false]
  exact if_pos hlength

theorem assemble_segment (hkey : key.bytes.length = 4) (h : key.segment? value = some segment)
    (assembly : Assembly) :
    assemble key (.ok assembly) (.ok value) =
      if segment.offset.toNat ≠ assembly.expected then
        .enough (.error (.segmentGap (UInt32.ofNat assembly.expected) segment.offset))
      else
        .more (.ok ⟨segment :: assembly.segments, assembly.expected + segment.data.length⟩) := by
  simp only [LongValueKey.segment?] at h
  split at h
  case isFalse => cases h
  case isTrue hsegment =>
    cases h
    obtain ⟨hstart, hlength⟩ := (LongValueKey.eq_segment_iff hkey).mp hsegment
    simp only [assemble, hstart, hlength, Bool.not_true, Bool.false_eq_true, if_false, ne_eq,
      not_true_eq_false]

/-- Behind a key that starts otherwise there is no segment any more. -/
theorem segmentsIn_of_other (hkey : key.bytes.length = 4)
    (hsorted : KeyOrder.forward.Sorted (value :: values))
    (hfrom : KeyOrder.forward.Le (key.segment 0) value.key)
    (hstart : value.key.startsWith key.bytes = false) : key.segmentsIn (value :: values) = [] := by
  refine LongValueKey.segmentsIn_eq_nil (List.forall_mem_cons.mpr ⟨?_, ?_⟩)
  · refine if_neg fun h => ?_
    rw [((LongValueKey.eq_segment_iff hkey).mp h).1] at hstart
    cases hstart
  · intro other hother
    refine if_neg fun h => ?_
    have hle : KeyOrder.forward.Le value.key other.key := (List.pairwise_cons.mp hsorted).1 other hother
    rw [LongValueKey.startsWith_of_le hfrom hle ((LongValueKey.eq_segment_iff hkey).mp h).1] at hstart
    cases hstart

/-- **Taking the values of a tree stitches the segments among them together**, if the tree is read
from the first segment key on. -/
theorem consume_assemble (hkey : key.bytes.length = 4) (hsorted : KeyOrder.forward.Sorted values)
    (hfrom : ∀ value ∈ values, KeyOrder.forward.Le (key.segment 0) value.key)
    (assembly : Assembly) :
    Flow.consume (assemble key) (.ok assembly) (values.map .ok) =
      stitch assembly (key.segmentsIn values) := by
  induction values generalizing assembly with
  | nil => rfl
  | cons value values ih =>
    have hfirst := hfrom value List.mem_cons_self
    have hlater := ih (List.pairwise_cons.mp hsorted).2 fun other hother =>
      hfrom other (List.mem_cons_of_mem _ hother)
    rw [List.map_cons, Flow.consume]
    cases hstart : value.key.startsWith key.bytes with
    -- The reading ends here, and the values that it leaves are no segments.
    | false => rw [assemble_other hstart, segmentsIn_of_other hkey hsorted hfirst hstart, stitch]
    | true =>
      cases hsegment : key.segment? value with
      | none =>
        rw [assemble_passed hkey hstart hsegment, LongValueKey.segmentsIn,
          List.filterMap_cons_none hsegment]
        exact hlater assembly
      | some segment =>
        rw [assemble_segment hkey hsegment, LongValueKey.segmentsIn,
          List.filterMap_cons_some hsegment, stitch]
        by_cases hgap : segment.offset.toNat ≠ assembly.expected
        · rw [if_pos hgap, if_pos hgap]
        · rw [if_neg hgap, if_neg hgap]
          exact hlater _

end LongValue

end EseReader
