import EseReader.Proofs.Compression.Size
import EseReader.Proofs.Guarded
import EseReader.Proofs.Text.Length

/-!
# `EseReader/Proofs/Compression/Guarded.lean` — expanding a value reaches for nothing outside it

A stream is read here by **places**: the place of the next byte and, where one half of a length byte
is still to be used, the place of that byte. It may be a long way back, in a group that is over. A
match is copied by places as well, each byte from a place of the value that is being produced. The
test comes first and the place is used later, so what covers it has to be carried along: a place
that is kept stays inside the data, and the place that a match copies from stays **as far behind the
end of the value as it was** when the match was tested.

The readers of the library keep what is left of the stream and the half itself. That a place belongs
to what is left is `Place.Locates`; every step keeps it.
-/

set_option autoImplicit false

namespace EseReader

namespace Xpress

/-- Where a reader of a stream is that goes by places. -/
structure Place where
  /-- The place of the next byte. -/
  next : Nat
  /-- The place of the length byte whose high half no match has used. -/
  spare : Option Nat

/-- The same as `Progress`, by places. -/
structure PlacedProgress where
  place : Place
  group : List Bool
  out : Array UInt8

end Xpress

namespace Guarded

open Xpress

/-! ## The readers -/

def take (data : Bytes) (place : Place) (width : Nat) (what : String) : Guarded (Nat × Place) := do
  let n ← number width data place.next what
  return (n, { place with next := place.next + width })

def half (data : Bytes) (place : Place) : Guarded (Nat × Place) :=
  match place.spare with
  | some index => do
    let byte ← byte data index
    return (byte.toNat / 16, { place with spare := none })
  | none => do
    let (byte, behind) ← take data place 1 "xpress length nibble"
    return (byte % 16, { behind with spare := some place.next })

def longLength (data : Bytes) (place : Place) (length : Nat) : Guarded (Nat × Place) :=
  if length = 7 + 15 then do
    let (byte, place) ← take data place 1 "xpress length byte"
    let length := length + byte
    if length = 7 + 15 + 255 then take data place 2 "xpress length word" else return (length, place)
  else return (length, place)

def matchLength (data : Bytes) (place : Place) (code : Nat) : Guarded (Nat × Place) :=
  if code = 7 then do
    let (n, place) ← half data place
    longLength data place (7 + n)
  else return (code, place)

def matchItem (data : Bytes) (place : Place) : Guarded ((Nat × Nat) × Place) := do
  let (word, place) ← take data place 2 "xpress match"
  let (length, place) ← matchLength data place (word % 8)
  return ((word / 8 + 1, length + 3), place)

/-- Copies the bytes behind `start`, `done` of which have been copied, until there are `length` more
or the value is complete. -/
def copyFrom (start size : Nat) : (length done : Nat) → Array UInt8 → Guarded (Array UInt8)
  | 0, _, out => return out
  | length + 1, done, out =>
    if size ≤ out.size then return out
    else do
      let byte ← item out (start + done)
      copyFrom start size length (done + 1) (out.push byte)

def applyMatch (out : Array UInt8) (distance length size : Nat) : Guarded (Array UInt8) :=
  if maxMatch < length then throw (.unsupported (.matchLength length))
  else if out.size < distance then
    throw (.outOfBounds "xpress match offset" distance length out.size)
  else do
    let start ← minus out.size distance
    copyFrom start size length 0 out

def advance (data : Bytes) (size : Nat) (p : PlacedProgress) : Guarded PlacedProgress :=
  match p.group with
  | [] => do
    let (word, place) ← take data p.place 4 "xpress indicator"
    return ⟨place, indicatorBits word, p.out⟩
  | false :: group => do
    let byte ← byte data p.place.next
    return ⟨{ p.place with next := p.place.next + 1 }, group, p.out.push byte⟩
  | true :: group => do
    let ((distance, length), place) ← matchItem data p.place
    let out ← applyMatch p.out distance length size
    return ⟨place, group, out⟩

/-- Reads on until the stream or the value is at its end. To need more than `turns` words and items
is to go on without end, which has no result either. -/
def produce (data : Bytes) (size turns : Nat) (p : PlacedProgress) : Guarded (Array UInt8) :=
  if data.length ≤ p.place.next ∨ size ≤ p.out.size then return p.out
  else match turns with
    | 0 => ExceptT.mk none
    | turns + 1 => do
      let p ← advance data size p
      produce data size turns p

end Guarded

/-! ## Places belong to streams -/

namespace Xpress

/-- What is left of the stream is what is behind the next place, and the spare half is that of the
byte at the spare place, which is a byte of the data. -/
structure Place.Locates (data : Bytes) (place : Place) (s : Stream) : Prop where
  inside : place.next ≤ data.length
  position : s.position = place.next
  rest : s.rest = data.drop place.next
  spareHalf : Option.Rel (fun index n => ∃ h : index < data.length, data[index].toNat / 16 = n)
    place.spare s.spareHalf

/-- The same value, and a place that is that of the stream. -/
def Found (data : Bytes) {α : Type} (a : α × Place) (b : α × Stream) : Prop :=
  a.1 = b.1 ∧ a.2.Locates data b.2

/-- The same group and output, and a place that is that of the stream. -/
structure PlacedProgress.Follows (data : Bytes) (p : PlacedProgress) (q : Progress) : Prop where
  locates : p.place.Locates data q.stream
  group : p.group = q.group
  out : p.out = q.out

theorem exists_of_drop_eq_cons {data rest : Bytes} {index : Nat} {byte : UInt8}
    (h : data.drop index = byte :: rest) :
    ∃ hindex : index < data.length, data[index] = byte ∧ data.drop (index + 1) = rest := by
  have hindex : index < data.length := by
    by_contra hover
    rw [List.drop_of_length_le (Nat.le_of_not_lt hover)] at h
    cases h
  rw [List.drop_eq_getElem_cons hindex] at h
  obtain ⟨hbyte, hrest⟩ := List.cons.inj h
  exact ⟨hindex, hbyte, hrest⟩

theorem Stream.exists_of_number_one {s s' : Stream} {n : Nat} {what : String}
    (h : s.number 1 what = .ok (n, s')) : ∃ byte, s.rest = byte :: s'.rest ∧ n = byte.toNat := by
  obtain ⟨rest, position, spareHalf⟩ := s
  cases rest with
  | nil => cases h
  | cons byte rest =>
    cases h
    refine ⟨byte, rfl, ?_⟩
    simp only [List.take_succ_cons, List.take_zero, littleEndian, Nat.mul_zero, Nat.add_zero]

theorem Stream.matchItem_distance_pos {s s' : Stream} {distance length : Nat}
    (h : s.matchItem = .ok ((distance, length), s')) : 0 < distance := by
  obtain ⟨r, -, h⟩ := bind_eq_ok_iff.mp h
  obtain ⟨q, -, h⟩ := bind_eq_ok_iff.mp h
  cases h
  exact Nat.succ_pos _

end Xpress

namespace Guarded

open Xpress

variable {data : Bytes} {place : Place} {s : Stream}

theorem take_agrees (h : place.Locates data s) (width : Nat) (what : String) :
    Agrees (Found data) (take data place width what) (s.number width what) := by
  obtain ⟨rest, position, spareHalf⟩ := s
  obtain ⟨hinside, rfl, rfl, hspare⟩ := h
  have hlength : (data.drop place.next).length = data.length - place.next := List.length_drop
  rw [take, number_eq, Bytes.slice, Stream.number]
  simp only [List.length_take, hlength]
  by_cases hwidth : place.next + width ≤ data.length
  · rw [if_pos hwidth, if_pos (by omega)]
    exact .ok ⟨rfl, hwidth, rfl, List.drop_drop, hspare⟩
  · rw [if_neg hwidth, if_neg (by omega), Nat.add_sub_cancel' hinside]
    exact .error _

theorem half_agrees (h : place.Locates data s) :
    Agrees (Found data) (half data place) s.half := by
  obtain ⟨next, spare⟩ := place
  obtain ⟨rest, position, spareHalf⟩ := s
  obtain ⟨hinside, hposition, hrest, hspare⟩ := h
  cases hspare with
  | some hbyte =>
    -- The byte was inside when its place was kept, and the data has not changed since.
    obtain ⟨hindex, rfl⟩ := hbyte
    simp only [half, Stream.half, byte_eq hindex]
    exact .ok ⟨rfl, hinside, hposition, hrest, .none⟩
  | none =>
    refine Agrees.bind (take_agrees ⟨hinside, hposition, hrest, .none⟩ 1 _) ?_
    rintro ⟨n, behind⟩ ⟨_, s⟩ hread ⟨rfl, hbehind⟩
    obtain ⟨byte, hfirst, rfl⟩ := Stream.exists_of_number_one hread
    obtain ⟨hindex, hbyte, -⟩ := exists_of_drop_eq_cons (hrest.symm.trans hfirst)
    refine .ok ⟨rfl, hbehind.inside, hbehind.position, hbehind.rest, .some ⟨hindex, ?_⟩⟩
    rw [hbyte]

theorem longLength_agrees (h : place.Locates data s) (length : Nat) :
    Agrees (Found data) (longLength data place length) (s.longLength length) := by
  unfold longLength Stream.longLength
  split
  · refine Agrees.bind (take_agrees h 1 _) ?_
    rintro ⟨byte, place⟩ ⟨_, s⟩ _ ⟨rfl, hplace⟩
    simp only
    split
    · exact take_agrees hplace 2 _
    · exact .ok ⟨rfl, hplace⟩
  · exact .ok ⟨rfl, h⟩

theorem matchLength_agrees (h : place.Locates data s) (code : Nat) :
    Agrees (Found data) (matchLength data place code) (s.matchLength code) := by
  unfold matchLength Stream.matchLength
  split
  · refine Agrees.bind (half_agrees h) ?_
    rintro ⟨n, place⟩ ⟨_, s⟩ _ ⟨rfl, hplace⟩
    exact longLength_agrees hplace _
  · exact .ok ⟨rfl, h⟩

theorem matchItem_agrees (h : place.Locates data s) :
    Agrees (Found data) (matchItem data place) s.matchItem := by
  refine Agrees.bind (take_agrees h 2 _) ?_
  rintro ⟨word, place⟩ ⟨_, s⟩ _ ⟨rfl, hplace⟩
  refine Agrees.bind (matchLength_agrees hplace _) ?_
  rintro ⟨length, place⟩ ⟨_, s⟩ _ ⟨rfl, hplace⟩
  exact .ok ⟨rfl, hplace⟩

/-! ## Matches are copied out of what is there -/

/-- **The place to copy from stays `distance` behind the end**: both go on by one with each byte. -/
theorem copyFrom_eq {out : Array UInt8} {distance start done : Nat}
    (h : 0 < distance ∧ distance ≤ out.size) (hplace : start + done = out.size - distance)
    (size length : Nat) :
    copyFrom start size length done out =
      ofExcept (.ok (copyBack out distance (min length (size - out.size)) h)) := by
  induction length generalizing done out with
  | zero =>
    simp only [Nat.zero_min]
    rfl
  | succ length ih =>
    rw [copyFrom]
    by_cases hcomplete : size ≤ out.size
    · rw [if_pos hcomplete]
      simp only [Nat.sub_eq_zero_of_le hcomplete, Nat.min_zero]
      rfl
    · have hfewer : min (length + 1) (size - out.size) =
          min length (size - (out.size + 1)) + 1 := by omega
      simp only [hfewer]
      rw [if_neg hcomplete, item_eq (show start + done < out.size by omega), ok_bind, copyBack]
      simp only [hplace]
      have hsize : (out.push out[out.size - distance]).size = out.size + 1 := Array.size_push _
      have hnear : 0 < distance ∧ distance ≤ (out.push out[out.size - distance]).size :=
        ⟨h.1, by omega⟩
      rw [ih hnear (by omega)]
      simp only [hsize]

theorem applyMatch_eq {out : Array UInt8} {distance : Nat} (h : 0 < distance) (length size : Nat) :
    applyMatch out distance length size =
      ofExcept (Xpress.applyMatch out distance length size) := by
  unfold applyMatch Xpress.applyMatch
  by_cases hlong : maxMatch < length
  · rw [if_pos hlong, if_pos hlong, throw_eq]
  rw [if_neg hlong, if_neg hlong]
  by_cases hfar : out.size < distance
  · rw [if_pos hfar, dif_neg fun hnear => Nat.not_le.mpr hfar hnear.2, throw_eq]
  · have hnear : 0 < distance ∧ distance ≤ out.size := ⟨h, Nat.le_of_not_lt hfar⟩
    rw [if_neg hfar, dif_pos hnear, minus_eq hnear.2, ok_bind]
    exact copyFrom_eq hnear (Nat.add_zero _) size length

/-! ## A run -/

theorem advance_agrees {size : Nat} {p : PlacedProgress} {q : Progress} (h : p.Follows data q)
    (hover : ¬ q.Over size) :
    Agrees (PlacedProgress.Follows data) (advance data size p) (q.advance size) := by
  obtain ⟨place, group, out⟩ := p
  obtain ⟨s, _, _⟩ := q
  obtain ⟨hplace, hgroup, hout⟩ := h
  simp only at hplace hgroup hout
  subst hgroup hout
  rcases group with _ | ⟨_ | _, group⟩
  · refine Agrees.bind (take_agrees hplace 4 _) ?_
    rintro ⟨word, place⟩ ⟨_, s⟩ _ ⟨rfl, hplace⟩
    exact .ok ⟨hplace, rfl, rfl⟩
  · obtain ⟨rest, position, spareHalf⟩ := s
    obtain ⟨-, rfl, hrest, hspare⟩ := hplace
    cases rest with
    | nil => exact absurd (.inl rfl) hover
    | cons byte rest =>
      obtain ⟨hindex, hbyte, hbehind⟩ := exists_of_drop_eq_cons hrest.symm
      simp only [advance, Progress.advance, byte_eq hindex, hbyte]
      exact .ok ⟨⟨hindex, rfl, hbehind.symm, hspare⟩, rfl, rfl⟩
  · refine Agrees.bind (matchItem_agrees hplace) ?_
    rintro ⟨⟨distance, length⟩, place⟩ ⟨_, s⟩ hread ⟨rfl, hplace⟩
    have hdistance := Stream.matchItem_distance_pos hread
    refine Agrees.bind (agrees_eq_iff.mpr (applyMatch_eq hdistance length size)) ?_
    rintro _ out _ rfl
    exact .ok ⟨hplace, rfl, rfl⟩

/-- **Reading comes to an end**, after as many words and items as there are bytes or before. -/
theorem produce_eq {size turns : Nat} {p : PlacedProgress} {q : Progress} (h : p.Follows data q)
    (hturns : q.stream.rest.length ≤ turns) :
    produce data size turns p = ofExcept (q.result size) := by
  have hover_iff : (data.length ≤ p.place.next ∨ size ≤ p.out.size) ↔ q.Over size := by
    rw [Progress.Over, h.locates.rest, h.out, List.drop_eq_nil_iff]
  induction turns generalizing p q with
  | zero =>
    have hover : q.Over size := .inl (List.eq_nil_of_length_eq_zero (Nat.le_zero.mp hturns))
    rw [produce, if_pos (hover_iff.mpr hover), Progress.result_of_over hover, h.out, pure_eq]
  | succ turns ih =>
    rw [produce]
    by_cases hover : q.Over size
    · rw [if_pos (hover_iff.mpr hover), Progress.result_of_over hover, h.out, pure_eq]
    · rw [if_neg (mt hover_iff.mp hover), Progress.result_eq hover]
      refine agrees_eq_iff.mp (Agrees.bind (advance_agrees h hover) ?_)
      intro p' q' hadvance hfollows
      have hless := Progress.length_rest_lt hover hadvance
      refine agrees_eq_iff.mpr (ih hfollows (by omega) ?_)
      rw [Progress.Over, hfollows.locates.rest, hfollows.out, List.drop_eq_nil_iff]

/-! ## Values -/

open Compression SevenBit

/-- Shifts a word to the left by less than its width. -/
def shiftLeft (bits count : UInt16) : Guarded UInt16 :=
  ExceptT.lift (if count.toNat < 16 then some (bits <<< count) else none)

def step (state : Pending × Array UInt8) (byte : UInt8) : Guarded (Pending × Array UInt8) := do
  let (pending, out) := state
  let shifted ← shiftLeft byte.toUInt16 pending.count
  let bits := pending.bits ||| shifted
  let out := out.push (bits &&& 0x7f).toUInt8
  if pending.count = 6 then return (⟨bits >>> 14, 0⟩, out.push ((bits >>> 7) &&& 0x7f).toUInt8)
  else return (⟨bits >>> 7, pending.count + 1⟩, out)

def marker (data : Bytes) : Guarded UInt8 := octet data 0 "compressed value marker"

def decompressedSize (data : Bytes) : Guarded Nat := do
  if (← marker data) = matchMarker then
    return (← word data 1 "xpress uncompressed size").toNat
  else return (← minus data.length 1) * 8 / 7

def unpackSevenBit (data : Bytes) : Guarded Bytes := do
  if (← octet data 0 "7-bit value marker") = matchMarker then
    throw (.unsupported .packedMarker)
  -- The room that the value will need is taken at once.
  let _ ← minus data.length 1
  let stored ← drop data 1
  let (_, out) ← stored.foldlM step (⟨0, 0⟩, #[])
  return out.toList

def expandXpress (data : Bytes) : Guarded Bytes := do
  let found ← octet data 0 "xpress marker"
  if found ≠ matchMarker then throw (.unsupported (.matchMarker found))
  let size ← word data 1 "xpress uncompressed size"
  let out ← produce data size.toNat data.length ⟨⟨3, none⟩, [], #[]⟩
  return out.toList

def decompress (data : Bytes) : Guarded Bytes := do
  if (← marker data) = matchMarker then expandXpress data else unpackSevenBit data

/-- The unit that the pair of bytes with that number makes. -/
def unit (data : Bytes) (index : Nat) : Guarded UInt16 := do
  let pair ← cut data (2 * index) (2 * index + 2)
  let low ← byte pair 0
  let high ← byte pair 1
  return .ofNat (littleEndian [low, high])

/-- The units of as many pairs of bytes as there are. -/
def units (data : Bytes) : Guarded (List UInt16) :=
  (List.range (data.length / 2)).mapM (unit data)

def decompressText (data : Bytes) : Guarded String := do
  let found ← marker data
  let bytes ← decompress data
  let wide ←
    if allowsWide found && bytes.length % 2 == 0 then do
      let units ← units bytes
      pure ((Utf16.chars units).mapM id)
    else pure none
  return String.ofList (trimNuls (wide.getD (Utf8.decode bytes)))

/-- Fewer than seven bits are pending, so the next byte is shifted by less than the width of the
word. -/
theorem step_eq {state : Pending × Array UInt8} (h : state.1.count.toNat < 7) (byte : UInt8) :
    step state byte = ofExcept (.ok (SevenBit.step state byte)) := by
  have hcount : state.1.count.toNat < 16 := by omega
  simp only [step, shiftLeft, if_pos hcount, SevenBit.step]
  show (if state.1.count = 6 then _ else _) = _
  split <;> rfl

theorem foldlM_step_eq (stored : Bytes) :
    stored.foldlM step (⟨0, 0⟩, #[]) = ofExcept (.ok (after stored)) := by
  induction stored using List.reverseRecOn with
  | nil => rfl
  | append_singleton stored byte ih =>
    have hafter : after (stored ++ [byte]) = SevenBit.step (after stored) byte := List.foldl_append
    rw [List.foldlM_append, ih, ok_bind, List.foldlM_cons, hafter,
      step_eq (balanced_after stored).count_lt]
    rfl

theorem inside_of_map_slice {α : Type} {f : Bytes → α} {value : α} {offset size : Nat}
    {what : String} (h : (data.slice offset size what).map f = .ok value) :
    offset + size ≤ data.length := by
  obtain ⟨_, hslice, -⟩ := map_eq_ok_iff.mp h
  exact (Bytes.slice_eq_ok_iff.mp hslice).1

theorem decompressedSize_eq (data : Bytes) :
    decompressedSize data = ofExcept (Compression.decompressedSize data) := by
  refine bind_ofExcept (octet_eq data 0 _) ?_
  intro found hfound
  split
  · exact bind_ofExcept (word_eq data 1 _) fun _ _ => rfl
  · rw [minus_eq (inside_of_map_slice hfound)]
    rfl

theorem unpackSevenBit_eq (data : Bytes) :
    unpackSevenBit data = ofExcept (Compression.unpackSevenBit data) := by
  refine bind_ofExcept (octet_eq data 0 _) ?_
  intro found hfound
  split
  · rfl
  · have hpos : 1 ≤ data.length := inside_of_map_slice hfound
    show (minus data.length 1 >>= fun _ => drop data 1 >>= _) = _
    rw [minus_eq hpos, ok_bind, drop_eq hpos, ok_bind, foldlM_step_eq, List.drop_one]
    rfl

theorem expandXpress_eq (data : Bytes) :
    expandXpress data = ofExcept (Compression.expandXpress data) := by
  refine bind_ofExcept (octet_eq data 0 _) ?_
  intro found hfound
  split
  · rfl
  · refine bind_ofExcept (word_eq data 1 _) ?_
    intro size hsize
    have hfollows : PlacedProgress.Follows data ⟨⟨3, none⟩, [], #[]⟩ (.start data) :=
      ⟨⟨inside_of_map_slice hsize, rfl, rfl, .none⟩, rfl, rfl⟩
    have hturns : (data.drop 3).length ≤ data.length := by
      rw [List.length_drop]
      exact Nat.sub_le _ _
    exact bind_ofExcept (produce_eq hfollows hturns) fun _ _ => rfl

theorem decompress_eq (data : Bytes) :
    decompress data = ofExcept (Compression.decompress data) := by
  refine bind_ofExcept (octet_eq data 0 _) ?_
  intro found _
  split
  · exact expandXpress_eq data
  · exact unpackSevenBit_eq data

theorem unit_cons_cons (a b : UInt8) (data : Bytes) (index : Nat) :
    unit (a :: b :: data) (index + 1) = unit data index := by
  have hcut : cut (a :: b :: data) (2 * (index + 1)) (2 * (index + 1) + 2) =
      cut data (2 * index) (2 * index + 2) := by
    simp only [cut, Bytes.field, List.length_cons, Nat.mul_add, Nat.mul_one, List.drop_succ_cons,
      Nat.add_le_add_iff_right, Nat.add_sub_add_right]
  rw [unit, unit, hcut]

theorem units_eq (data : Bytes) : units data = ofExcept (.ok (Utf16.units data)) := by
  unfold units
  induction data using List.twoStepInduction with
  | nil => rfl
  | singleton a =>
    rw [List.length_singleton]
    rfl
  | cons_cons a b data ih _ =>
    have hcount : (a :: b :: data).length / 2 = data.length / 2 + 1 := by
      rw [List.length_cons, List.length_cons]
      omega
    have hfirst : unit (a :: b :: data) 0 = ofExcept (.ok (.ofNat (littleEndian [a, b]))) := by
      rw [unit, cut_eq (by decide) (Nat.le_add_left _ _)]
      rfl
    rw [hcount, List.range_succ_eq_map, List.mapM_cons, hfirst, ok_bind, List.mapM_map,
      Utf16.units_cons_cons]
    simp only [unit_cons_cons, Function.comp_def]
    rw [ih, ok_bind, pure_eq]

theorem decompressText_eq (data : Bytes) :
    decompressText data = ofExcept (Compression.decompressText data) := by
  refine bind_ofExcept (octet_eq data 0 _) ?_
  intro found _
  refine bind_ofExcept (decompress_eq data) ?_
  intro bytes _
  by_cases hwide : (allowsWide found && bytes.length % 2 == 0) = true
  · simp only [if_pos hwide, units_eq, ok_bind]
    rfl
  · simp only [if_neg hwide]
    rfl

end Guarded

end EseReader
