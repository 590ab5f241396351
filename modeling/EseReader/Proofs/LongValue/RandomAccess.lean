import EseReader.Proofs.Guarded
import EseReader.Proofs.LongValue.Segments
import EseReader.Proofs.Page.Image

/-!
# `EseReader/Proofs/LongValue/RandomAccess.lean` — reading a stretch of a long value

A long value can be read as a whole (`LongValue.toBytes`) or piece by piece into a buffer
(`LongValue.readInto`). The second way finds the segment that the position lies in, and then copies
from one segment after the other until the buffer is full. It takes differences and cuts bytes out
all the way, and the tests that would be needed for them are not there: what covers them is that the
segments **follow each other from the beginning on**.

That is what the assembly makes sure of, on any source and whatever else is wrong with the tree
(`runsFrom_of_longValue`). Segments without bytes are among them: several may start at the same
offset, also at the very end.

The copying loop keeps to one condition on the place where it stands: it is not in front of the next
segment and not behind its end, unless the buffer is full (`gather_eq_field`, `copySegments_eq`).
-/

set_option autoImplicit false

namespace EseReader

/-! ## What the assembly makes sure of -/

namespace Flow

variable {β : Type}

/-- What has been made of the items so far. -/
def state : Flow β → β
  | more state => state
  | enough state => state

/-- What one item keeps true is true in the end. -/
theorem consume_induction {take : β → Except Error LeafValue → Flow β} {P : β → Prop}
    (hstep : ∀ state item, P state → P (take state item).state) {state : β} (h : P state)
    (items : List (Except Error LeafValue)) : P (consume take state items) := by
  induction items generalizing state with
  | nil => exact h
  | cons item items ih =>
    have hnext := hstep state item h
    rw [consume]
    cases htake : take state item with
    | enough after =>
      rw [htake] at hnext
      exact hnext
    | more after =>
      rw [htake] at hnext
      exact ih hnext

end Flow

namespace LongValue

variable {start position count : Nat} {segment : Segment} {segments before later : List Segment}
  {assembly : Assembly} {value : LongValue}

theorem runsFrom_append :
    RunsFrom start (before ++ later) ↔
      RunsFrom start before ∧ RunsFrom (start + extent before) later := by
  induction before generalizing start with
  | nil => exact ⟨fun h => ⟨trivial, h⟩, And.right⟩
  | cons first before ih =>
    rw [List.cons_append, RunsFrom, RunsFrom, ih, extent_cons, and_assoc, Nat.add_assoc]

/-- The segments found so far follow each other, and the next one has to start where they end. -/
structure Assembly.Contiguous (assembly : Assembly) : Prop where
  runs : RunsFrom 0 assembly.segments.reverse
  expected : assembly.expected = extent assembly.segments.reverse

theorem Assembly.Contiguous.push (h : assembly.Contiguous)
    (hoffset : segment.offset.toNat = assembly.expected) :
    Contiguous ⟨segment :: assembly.segments, assembly.expected + segment.data.length⟩ where
  runs := by
    rw [List.reverse_cons]
    refine runsFrom_append.mpr ⟨h.runs, ?_, trivial⟩
    rw [hoffset, h.expected, Nat.zero_add]
  expected := by
    rw [List.reverse_cons, extent, List.map_append, List.sum_append, h.expected]
    rfl

/-- One item of the tree leaves an assembly contiguous. -/
theorem contiguous_assemble (key : LongValueKey) (found : Except Error Assembly)
    (item : Except Error LeafValue) (h : ∀ assembly, found = .ok assembly → assembly.Contiguous)
    (hassemble : (assemble key found item).state = .ok assembly) : assembly.Contiguous := by
  unfold assemble at hassemble
  split at hassemble
  · cases hassemble
  · cases hassemble
  case h_3 before value =>
    have hbefore := h before rfl
    split at hassemble
    · cases hassemble
      exact hbefore
    · split at hassemble
      · cases hassemble
        exact hbefore
      · simp only at hassemble
        split at hassemble
        · cases hassemble
        case isFalse hoffset =>
          cases hassemble
          exact hbefore.push (not_not.mp hoffset)

end LongValue

namespace Forest

variable {forest : Forest} {root : PageNumber} {key : LongValueKey} {value : LongValue}
  {segments : List Segment} {cursor : LeafCursor} {assembly : LongValue.Assembly}

theorem value_longValueSegments_seek
    (h : (forest.seek root (key.segment 0)).value = .ok cursor) :
    (forest.longValueSegments root key).value =
      (Flow.consume (LongValue.assemble key) (.ok ⟨[], 0⟩) (forest.allItems cursor).value).map
        (·.segments.reverse) := by
  simp only [longValueSegments, Walk.value_bind, h, Walk.value_pure, value_fold]

theorem value_longValue_found {anchor : LeafValue}
    (h : (forest.find root key.anchor .forward).value = .ok (some anchor))
    (hsize : anchor.data.length = 8) :
    (forest.longValue root key).value =
      (forest.longValueSegments root key).value.map fun segments =>
        some ⟨key, anchor.data.u32At 4, segments⟩ := by
  have hexact : anchor.data.exactly 8 = .ok anchor.data := if_pos hsize
  simp only [longValue, Walk.value_bind, h, hexact, Walk.value_pure]

theorem contiguous_consume (items : List (Except Error LeafValue))
    (h : Flow.consume (LongValue.assemble key) (.ok ⟨[], 0⟩) items = .ok assembly) :
    assembly.Contiguous := by
  refine Flow.consume_induction
    (P := fun found => ∀ assembly, found = .ok assembly → assembly.Contiguous)
    (fun found item hfound _ => LongValue.contiguous_assemble key found item hfound) ?_ items _ h
  intro empty hempty
  cases hempty
  exact ⟨trivial, rfl⟩

theorem runsFrom_of_longValueSegments
    (h : (forest.longValueSegments root key).value = .ok segments) :
    LongValue.RunsFrom 0 segments := by
  cases hseek : (forest.seek root (key.segment 0)).value with
  | error e =>
    simp only [longValueSegments, Walk.value_bind, hseek] at h
    cases h
  | ok cursor =>
    rw [value_longValueSegments_seek hseek] at h
    cases hconsume :
      Flow.consume (LongValue.assemble key) (.ok ⟨[], 0⟩) (forest.allItems cursor).value with
    | error e =>
      rw [hconsume] at h
      cases h
    | ok assembly =>
      rw [hconsume] at h
      cases h
      exact (contiguous_consume _ hconsume).runs

/-- **The segments of a long value follow each other from the beginning on**, on any source. -/
theorem runsFrom_of_longValue (h : (forest.longValue root key).value = .ok (some value)) :
    LongValue.RunsFrom 0 value.segments := by
  simp only [longValue, Walk.value_bind] at h
  split at h
  · cases h
  · cases h
  · split at h
    · cases h
    · simp only [Walk.value_bind, Walk.value_pure] at h
      cases hsegments : (forest.longValueSegments root key).value with
      | error e =>
        rw [hsegments] at h
        cases h
      | ok segments =>
        rw [hsegments] at h
        cases h
        exact runsFrom_of_longValueSegments hsegments

end Forest

/-! ## The bytes from a position on -/

namespace LongValue

variable {start position count : Nat} {segment : Segment} {segments later : List Segment}
  {value : LongValue}

/-- The first of some segments, if there is one, does not end in front of the position. -/
def Reaches (position : Nat) (segments : List Segment) : Prop :=
  ∀ segment ∈ segments.head?, position ≤ segment.stop

theorem reaches_of_runsFrom (h : RunsFrom start segments) : Reaches start segments := by
  cases segments with
  | nil => exact fun _ h => by cases h
  | cons segment later =>
    rintro _ ⟨⟩
    rw [Segment.stop, h.1]
    exact Nat.le_add_right _ _

theorem stop_of_cons (h : RunsFrom start (segment :: later)) :
    segment.stop = start + segment.data.length := by
  rw [Segment.stop, h.1]

/-- The segments in front of a position end in front of it together. -/
theorem extent_takeWhile_le (hruns : RunsFrom start segments) (hlow : start ≤ position) :
    start + extent (segments.takeWhile (·.stop ≤ position)) ≤ position := by
  induction segments generalizing start with
  | nil => exact hlow
  | cons segment later ih =>
    rw [List.takeWhile_cons]
    split
    case isTrue hstop =>
      rw [decide_eq_true_eq, stop_of_cons hruns] at hstop
      rw [extent_cons, ← Nat.add_assoc]
      exact ih hruns.2 hstop
    case isFalse => exact hlow

theorem runsFrom_dropWhile (h : RunsFrom start segments) (position : Nat) :
    RunsFrom (start + extent (segments.takeWhile (·.stop ≤ position)))
      (segments.dropWhile (·.stop ≤ position)) := by
  rw [← List.takeWhile_append_dropWhile (p := fun segment : Segment => segment.stop ≤ position)
    (l := segments)] at h
  exact (runsFrom_append.mp h).2

theorem le_stop_of_mem (h : RunsFrom start segments) (hmem : segment ∈ segments) :
    start ≤ segment.stop := by
  induction segments generalizing start with
  | nil => exact absurd hmem List.not_mem_nil
  | cons first later ih =>
    rcases List.mem_cons.mp hmem with rfl | hmem
    · exact stop_of_cons h ▸ Nat.le_add_right _ _
    · exact Nat.le_trans (Nat.le_add_right _ _) (ih h.2 hmem)

/-- **The ends of the segments are in order**: behind the first one that ends behind a position, all
of them do. -/
theorem lt_stop_of_mem_dropWhile (h : RunsFrom start segments)
    (hmem : segment ∈ segments.dropWhile (·.stop ≤ position)) : position < segment.stop := by
  induction segments generalizing start with
  | nil => exact absurd hmem List.not_mem_nil
  | cons first later ih =>
    rw [List.dropWhile_cons] at hmem
    split at hmem
    case isTrue => exact ih h.2 hmem
    case isFalse hfirst =>
      have hlt : position < first.stop := by simpa using hfirst
      rcases List.mem_cons.mp hmem with rfl | hmem
      · exact hlt
      · rw [stop_of_cons h] at hlt
        exact Nat.lt_of_lt_of_le hlt (le_stop_of_mem h.2 hmem)

theorem reaches_dropWhile (h : RunsFrom start segments) (position : Nat) :
    Reaches position (segments.dropWhile (·.stop ≤ position)) :=
  fun _ hsegment => Nat.le_of_lt (lt_stop_of_mem_dropWhile h (List.mem_of_mem_head? hsegment))

theorem gather_zero (segments : List Segment) (position : Nat) : gather segments position 0 = [] := by
  cases segments <;> rfl

/-- **Gathering cuts out of all the bytes**, from a position that the first segment reaches. -/
theorem gather_eq_field (hruns : RunsFrom start segments) (hlow : start ≤ position)
    (hreach : Reaches position segments) :
    gather segments position count =
      Bytes.field (segments.flatMap (·.data)) (position - start) count := by
  induction segments generalizing start position count with
  | nil => rw [gather, List.flatMap_nil, Bytes.field, List.drop_nil, List.take_nil]
  | cons segment later ih =>
    by_cases hzero : count = 0
    · rw [hzero, gather_zero, Bytes.field, List.take_zero]
    have hstop := hreach segment rfl
    rw [stop_of_cons hruns] at hstop
    have hwithin : position - start ≤ segment.data.length := by omega
    rw [gather, if_neg hzero, hruns.1, List.flatMap_cons, Bytes.field,
      List.drop_append_of_le_length hwithin, List.take_append, List.length_drop]
    simp only [List.length_take, List.length_drop]
    congr 1
    rcases Nat.le_total count (segment.data.length - (position - start)) with hle | hle
    · rw [Nat.min_eq_left hle, Nat.sub_self, gather_zero, Nat.sub_eq_zero_of_le hle, List.take_zero]
    · -- The segment is used up, so the next one starts at the position.
      have hnext : position + (segment.data.length - (position - start)) =
          start + segment.data.length := by omega
      rw [Nat.min_eq_right hle, hnext,
        ih hruns.2 (Nat.le_refl _) (reaches_of_runsFrom hruns.2), Bytes.field, Nat.sub_self,
        List.drop_zero]

/-- The segments from a position on give the bytes from there on. -/
theorem gather_dropWhile (h : RunsFrom 0 value.segments) (position count : Nat) :
    gather (value.segments.dropWhile (·.stop ≤ position)) position count =
      value.toBytes.field position count := by
  have hlow := extent_takeWhile_le h (Nat.zero_le position)
  have hbytes : value.toBytes =
      (value.segments.takeWhile (·.stop ≤ position)).flatMap (·.data) ++
        (value.segments.dropWhile (·.stop ≤ position)).flatMap (·.data) := by
    rw [← List.flatMap_append, List.takeWhile_append_dropWhile, toBytes]
  rw [Nat.zero_add] at hlow
  have hlength :
      ((value.segments.takeWhile (·.stop ≤ position)).flatMap (·.data)).length ≤ position := by
    rw [List.length_flatMap]
    exact hlow
  rw [gather_eq_field (runsFrom_dropWhile h position) (by rwa [Nat.zero_add])
      (reaches_dropWhile h position), hbytes, Bytes.field, Bytes.field, List.drop_append, List.drop_of_length_le hlength,
    List.nil_append, List.length_flatMap, Nat.zero_add, extent]

theorem bytesAt_eq_field (h : RunsFrom 0 value.segments) (offset count : Nat) :
    value.bytesAt offset count = value.toBytes.field offset count := by
  rw [bytesAt]
  split
  case isTrue hnone =>
    rw [size_of_runsFrom h] at hnone
    rcases hnone with hend | rfl
    · rw [Bytes.field, List.drop_of_length_le hend, List.take_nil]
    · rw [Bytes.field, List.take_zero]
  case isFalse => exact gather_dropWhile h offset count

end LongValue

/-! ## The copying loop, guarded -/

namespace Guarded

variable {α : Type}

/-- The number of items in front of the first one that does not satisfy `p`, provided that no item
behind it does. That is what a binary search finds; on other lists it may find anything. -/
def partitionPoint (p : α → Bool) (items : List α) : Guarded Nat :=
  ExceptT.lift (if (items.dropWhile p).all (!p ·) then some (items.takeWhile p).length else none)

/-- The buffer with `piece` in it from `start` on, if there is room for it. -/
def overwrite (buffer : Bytes) (start : Nat) (piece : Bytes) : Guarded Bytes :=
  ExceptT.lift (if start + piece.length ≤ buffer.length then
    some (buffer.take start ++ piece ++ buffer.drop (start + piece.length)) else none)

/-- Copies from `position` of the value on behind the first `copied` bytes of the buffer. -/
def copySegments : List Segment → (position copied : Nat) → (buffer : Bytes) → Guarded (Nat × Bytes)
  | [], _, copied, buffer => return (copied, buffer)
  | segment :: later, position, copied, buffer =>
    if copied = buffer.length then return (copied, buffer)
    else do
      let within ← minus position segment.offset.toNat
      let available ← drop segment.data within
      let room ← minus buffer.length copied
      let count := min available.length room
      let piece ← cut available 0 count
      let buffer ← overwrite buffer copied piece
      copySegments later (position + count) (copied + count) buffer

/-- `LongValue.readInto`, guarded. -/
def readInto (value : LongValue) (offset : Nat) (buffer : Bytes) : Guarded (Nat × Bytes) :=
  if value.size ≤ offset ∨ buffer = [] then return (0, buffer)
  else do
    let first ← partitionPoint (·.stop ≤ offset) value.segments
    let segments ← drop value.segments first
    copySegments segments offset 0 buffer

variable {start position offset : Nat} {segment : Segment} {segments later : List Segment}
  {value : LongValue} {written rest : Bytes}

theorem partitionPoint_eq {p : α → Bool} {items : List α}
    (h : ∀ item ∈ items.dropWhile p, p item = false) :
    partitionPoint p items = ofExcept (.ok (items.takeWhile p).length) := by
  have hall : (items.dropWhile p).all (!p ·) = true := by
    rw [List.all_eq_true]
    exact fun item hitem => by rw [h item hitem]; rfl
  rw [partitionPoint, if_pos hall]
  rfl

theorem drop_length_takeWhile (p : α → Bool) (items : List α) :
    drop items (items.takeWhile p).length = ofExcept (.ok (items.dropWhile p)) := by
  have hsplit := List.takeWhile_append_dropWhile (p := p) (l := items)
  have hbehind : items.drop (items.takeWhile p).length = items.dropWhile p :=
    calc items.drop (items.takeWhile p).length
      _ = (items.takeWhile p ++ items.dropWhile p).drop (items.takeWhile p).length := by rw [hsplit]
      _ = items.dropWhile p := List.drop_left
  rw [drop_eq (List.takeWhile_prefix p).length_le, hbehind]

theorem overwrite_eq {piece : Bytes} (h : piece.length ≤ rest.length) :
    overwrite (written ++ rest) written.length piece =
      ofExcept (.ok (written ++ piece ++ rest.drop piece.length)) := by
  have hroom : written.length + piece.length ≤ (written ++ rest).length := by
    rw [List.length_append]
    omega
  rw [overwrite, if_pos hroom, List.take_left, List.drop_append, List.drop_eq_nil_of_le (by omega),
    Nat.add_sub_cancel_left, List.nil_append]
  rfl

theorem copySegments_full (segments : List Segment) (position : Nat) (buffer : Bytes) :
    copySegments segments position buffer.length buffer = ofExcept (.ok (buffer.length, buffer)) := by
  cases segments with
  | nil => rfl
  | cons segment later =>
    rw [copySegments, if_pos rfl]
    rfl

/-- One round of the loop: no guard is hit if the position lies in the segment. -/
theorem copySegments_cons (later : List Segment) (written : Bytes) (hroom : rest ≠ [])
    (hlow : segment.offset.toNat ≤ position) (hhigh : position ≤ segment.stop) :
    let piece := (segment.data.drop (position - segment.offset.toNat)).take rest.length
    copySegments (segment :: later) position written.length (written ++ rest) =
      copySegments later (position + piece.length) (written ++ piece).length
        (written ++ piece ++ rest.drop piece.length) := by
  intro piece
  have hwithin : position - segment.offset.toNat ≤ segment.data.length := by
    rw [Segment.stop] at hhigh
    omega
  have hnotFull : written.length ≠ (written ++ rest).length := by
    rw [List.length_append]
    exact fun h => hroom (List.length_eq_zero_iff.mp (by omega))
  have hcount : min (segment.data.drop (position - segment.offset.toNat)).length rest.length =
      piece.length := by
    rw [List.length_take, Nat.min_comm]
  have hcut : Bytes.field (segment.data.drop (position - segment.offset.toNat)) 0 piece.length =
      piece := by
    rw [Bytes.field, List.drop_zero, ← hcount, Nat.min_comm, ← List.take_eq_take_min]
  have hfits : piece.length ≤ rest.length := List.length_take_le _ _
  rw [copySegments, if_neg hnotFull, minus_eq hlow, ok_bind, drop_eq hwithin, ok_bind,
    minus_eq (List.length_append ▸ Nat.le_add_right _ _), ok_bind]
  simp only [List.length_append, Nat.add_sub_cancel_left, hcount]
  rw [cut_eq (Nat.zero_le _) (hcount ▸ Nat.min_le_left _ _), ok_bind, Nat.sub_zero, hcut,
    overwrite_eq hfits, ok_bind]

/-- **The loop copies what there is to gather**, and no guard is hit on the way. -/
theorem copySegments_eq (written rest : Bytes) (hruns : LongValue.RunsFrom start segments)
    (hlow : start ≤ position)
    (hreach : LongValue.Reaches position segments) :
    let piece := LongValue.gather segments position rest.length
    copySegments segments position written.length (written ++ rest) =
      ofExcept (.ok (written.length + piece.length, written ++ piece ++ rest.drop piece.length)) := by
  induction segments generalizing start position written rest with
  | nil => simp [copySegments, LongValue.gather]
  | cons segment later ih =>
    intro piece
    by_cases hrest : rest = []
    · subst hrest
      have hpiece : piece = [] := LongValue.gather_zero _ _
      rw [hpiece, List.append_nil, copySegments_full]
      simp only [List.length_nil, Nat.add_zero, List.drop_nil, List.append_nil]
    have hstop := hreach segment rfl
    have hround := copySegments_cons later written hrest (hruns.1.symm ▸ hlow) hstop
    have hpiece : piece = LongValue.gather (segment :: later) position rest.length := rfl
    rw [LongValue.gather, if_neg (fun h => hrest (List.length_eq_zero_iff.mp h))] at hpiece
    generalize htaken : (segment.data.drop (position - segment.offset.toNat)).take rest.length =
      taken at hround hpiece
    simp only at hround hpiece
    have hlength := congrArg List.length htaken
    rw [List.length_take, List.length_drop, hruns.1] at hlength
    rw [LongValue.stop_of_cons hruns] at hstop
    rw [hround]
    by_cases hfull : rest.length ≤ taken.length
    · rw [Nat.sub_eq_zero_of_le hfull, LongValue.gather_zero, List.append_nil] at hpiece
      rw [hpiece, List.drop_of_length_le hfull, List.append_nil, copySegments_full,
        List.length_append]
    · -- The segment is used up, so the next one starts at the position.
      have hnext : position + taken.length = start + segment.data.length := by omega
      rw [hnext] at hpiece ⊢
      rw [ih _ _ hruns.2 (Nat.le_refl _) (LongValue.reaches_of_runsFrom hruns.2), List.length_drop,
        hpiece]
      simp only [List.length_append, List.append_assoc, Nat.add_assoc, List.drop_drop]

theorem readInto_eq (h : LongValue.RunsFrom 0 value.segments) (offset : Nat) (buffer : Bytes) :
    readInto value offset buffer = ofExcept (.ok (value.readInto offset buffer)) := by
  simp only [readInto, LongValue.readInto, LongValue.bytesAt, List.length_eq_zero_iff]
  by_cases hnone : value.size ≤ offset ∨ buffer = []
  · rw [if_pos hnone, if_pos hnone]
    rfl
  · have hbehind (segment : Segment)
        (hmem : segment ∈ value.segments.dropWhile (·.stop ≤ offset)) :
        decide (segment.stop ≤ offset) = false :=
      decide_eq_false (Nat.not_le_of_lt (LongValue.lt_stop_of_mem_dropWhile h hmem))
    have hlow := LongValue.extent_takeWhile_le h (Nat.zero_le offset)
    have hcopy := copySegments_eq [] buffer (LongValue.runsFrom_dropWhile h offset) hlow
      (LongValue.reaches_dropWhile h offset)
    simp only [List.length_nil, List.nil_append, Nat.zero_add] at hcopy
    rw [if_neg hnone, if_neg hnone, partitionPoint_eq hbehind, ok_bind, drop_length_takeWhile,
      ok_bind, hcopy]

/-- A segment that starts behind the place where it should: the difference is not covered. -/
example : readInto ⟨⟨[]⟩, 0, [⟨1, [0x61], ⟨0, 0, 0, 0⟩⟩]⟩ 0 [0] = ExceptT.mk none := rfl

end Guarded

namespace Forest

variable {forest : Forest} {root : PageNumber} {key : LongValueKey} {value : LongValue}

/-- **Reading into a buffer agrees with reading the whole value**, for every long value that has been
opened, every offset and every buffer: no difference and no cut on the way goes out of range, what
is written are the bytes from the offset on, as many as there are and the buffer has room for, and
the rest of the buffer stays as it was. -/
theorem readInto_eq_toBytes (h : (forest.longValue root key).value = .ok (some value)) (offset : Nat)
    (buffer : Bytes) :
    let count := if offset < value.size then min buffer.length (value.size - offset) else 0
    let read := value.readInto offset buffer
    value.toBytes.length = value.size ∧
      Guarded.readInto value offset buffer = .ofExcept (.ok read) ∧ read.1 = count ∧
      read.2.take count = value.toBytes.field offset count ∧
      read.2.drop count = buffer.drop count ∧ read.2.length = buffer.length := by
  intro count read
  have hruns := runsFrom_of_longValue h
  have hsize := LongValue.size_of_runsFrom hruns
  have hbytes := LongValue.bytesAt_eq_field hruns offset buffer.length
  have hcount : min buffer.length (value.toBytes.drop offset).length = count := by
    rw [List.length_drop, ← hsize]
    simp only [count]
    split <;> omega
  have hlength : (value.bytesAt offset buffer.length).length = count := by
    rw [hbytes, Bytes.field, List.length_take, hcount]
  have hread : read = (count, value.bytesAt offset buffer.length ++ buffer.drop count) := by
    rw [← hlength]
    rfl
  refine ⟨hsize.symm, Guarded.readInto_eq hruns offset buffer, congrArg Prod.fst hread, ?_, ?_, ?_⟩
  · rw [hread, List.take_left' hlength, hbytes, Bytes.field, List.take_eq_take_min, hcount,
      Bytes.field]
  · rw [hread, List.drop_left' hlength]
  · rw [hread, List.length_append, hlength, List.length_drop,
      Nat.add_sub_of_le (hcount ▸ Nat.min_le_left _ _)]

/-! ### Segments without bytes -/

/-- One leaf with a long value of five bytes. Its first, third and last segment have none. -/
def sparseForest : Forest where
  source :=
    { pageSize := 144
      pageCount := 10
      page := fun _ => .ok (PageImage.bytes
        { size := 144
          extended := false
          flags := 0x82
          previous := 0
          next := 0
          values := [
            ⟨0, []⟩,
            .plain [0, 0, 0, 7] (leBytes 4 1 ++ leBytes 4 5),
            .plain [0, 0, 0, 7, 0, 0, 0, 0] [],
            .plain [0, 0, 0, 7, 0, 0, 0, 0] [0x61, 0x62, 0x63],
            .plain [0, 0, 0, 7, 0, 0, 0, 3] [],
            .plain [0, 0, 0, 7, 0, 0, 0, 3] [0x64, 0x65],
            .plain [0, 0, 0, 7, 0, 0, 0, 5] []] }) }
  format := .standard

/-- The leaf as it is read. -/
def sparseLeaf : Node :=
  let value (offset tag : Nat) (key data : Bytes) : LeafValue :=
    ⟨⟨⟨key⟩, data, ⟨9, offset, tag, 2 + key.length⟩⟩, .longValue⟩
  ⟨9, false, 0, 0, .leaf [
    value 40 1 [0, 0, 0, 7] (leBytes 4 1 ++ leBytes 4 5),
    value 54 2 [0, 0, 0, 7, 0, 0, 0, 0] [],
    value 64 3 [0, 0, 0, 7, 0, 0, 0, 0] [0x61, 0x62, 0x63],
    value 77 4 [0, 0, 0, 7, 0, 0, 0, 3] [],
    value 87 5 [0, 0, 0, 7, 0, 0, 0, 3] [0x64, 0x65],
    value 99 6 [0, 0, 0, 7, 0, 0, 0, 5] []]⟩

theorem readInto_eq_toBytes_sparse :
    ∃ value, (sparseForest.longValue 9 ⟨[0, 0, 0, 7]⟩).value = .ok (some value) ∧
      value.segments.map (·.data.length) = [0, 3, 0, 2, 0] ∧
      Guarded.readInto value 1 [0, 0, 0] = .ofExcept (.ok (value.readInto 1 [0, 0, 0])) ∧
      (value.readInto 1 [0, 0, 0]).2.take 3 = [0x62, 0x63, 0x64] ∧
      (value.readInto 4 [0, 0, 0]).1 = 1 ∧ (value.readInto 4 [0, 0, 0]).2.drop 1 = [0, 0] ∧
      (value.readInto 5 [0, 0, 0]).1 = 0 := by
  let key : LongValueKey := ⟨[0, 0, 0, 7]⟩
  have hfind : (sparseForest.find 9 key.anchor .forward).value = .ok sparseLeaf.values.head? := by
    decide +kernel
  have hseek : (sparseForest.seek 9 (key.segment 0)).value =
      .ok (inLeaf (some (key.segment 0)) sparseLeaf 10) := by decide +kernel
  have hchain : sparseForest.Chain sparseLeaf.next [] := .nil
  have hsegments : (sparseForest.longValueSegments 9 key).value =
      .ok (key.segmentsIn sparseLeaf.values) := by
    rw [value_longValueSegments_seek hseek, allItems_inLeaf hchain (Nat.zero_le 10)]
    decide +kernel
  have hvalue : (sparseForest.longValue 9 key).value =
      .ok (some ⟨key, 5, key.segmentsIn sparseLeaf.values⟩) := by
    rw [value_longValue_found hfind rfl, hsegments]
    rfl
  obtain ⟨-, hguarded, -, hwritten, -, -⟩ := readInto_eq_toBytes hvalue 1 [0, 0, 0]
  obtain ⟨-, -, hfirst, -, hrest, -⟩ := readInto_eq_toBytes hvalue 4 [0, 0, 0]
  obtain ⟨-, -, hend, -, -, -⟩ := readInto_eq_toBytes hvalue 5 [0, 0, 0]
  refine ⟨_, hvalue, ?_, hguarded, hwritten.trans ?_, hfirst.trans ?_, hrest, hend.trans ?_⟩ <;>
    decide +kernel

end Forest

end EseReader
