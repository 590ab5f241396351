import EseReader.Proofs.Compression.Guarded

/-!
# `EseReader/Proofs/Compression/Bounds.lean` — expanding a value stays in it

A match names bytes that have been produced before by their distance from the end. It may name fewer
than it repeats, and then it goes on with those that it has just written. Which byte of the finished
value repeats which is what `Repeats` says, and none of them stands in front of the value. Together
with the guarded readers this is the main result, `Compression.decompression_in_bounds`.
-/

set_option autoImplicit false

namespace EseReader

namespace Xpress

/-! ## What a match repeats -/

/-- A value grows by a match: behind what was there come bytes each of which repeats the byte that
is `distance` in front of it, and the first of these is not in front of the value. -/
structure Repeats (distance : Nat) (before after : Array UInt8) : Prop where
  distance_pos : 0 < distance
  inside : distance ≤ before.size
  kept : ∀ index < before.size, after[index]? = before[index]?
  repeated : ∀ index, before.size ≤ index → index < after.size →
    after[index]? = after[index - distance]?

/-- The byte that is written first repeats one as well. -/
theorem Repeats.of_push {out after : Array UInt8} {distance : Nat} {byte : UInt8}
    (h : 0 < distance ∧ distance ≤ out.size) (hbyte : out[out.size - distance]? = some byte)
    (hlater : Repeats distance (out.push byte) after) : Repeats distance out after := by
  have hsize : (out.push byte).size = out.size + 1 := Array.size_push byte
  have hkept : ∀ index < out.size, after[index]? = out[index]? := by
    intro index hindex
    rw [hlater.kept index (by omega), Array.getElem?_push_lt hindex,
      Array.getElem?_eq_getElem hindex]
  refine ⟨h.1, h.2, hkept, ?_⟩
  intro index hbehind hinside
  rcases Nat.eq_or_lt_of_le hbehind with rfl | hbehind
  · rw [hlater.kept _ (by omega), Array.getElem?_push_size, hkept _ (by omega), hbyte]
  · exact hlater.repeated index (by omega) hinside

theorem repeats_copyBack {out : Array UInt8} {distance : Nat} (length : Nat)
    (h : 0 < distance ∧ distance ≤ out.size) :
    Repeats distance out (copyBack out distance length h) := by
  induction length generalizing out with
  | zero =>
    refine ⟨h.1, h.2, fun _ _ => rfl, ?_⟩
    intro index hbehind hinside
    exact absurd hinside (Nat.not_lt.mpr hbehind)
  | succ length ih => exact .of_push h (Array.getElem?_eq_getElem _) (ih _)

theorem Progress.Step.of_cons {size position : Nat} {byte : UInt8} {rest : Bytes}
    {spareHalf : Option Nat} {group : List Bool} {out : Array UInt8} {q : Progress}
    (hlacks : out.size < size)
    (h : advance size ⟨⟨byte :: rest, position, spareHalf⟩, group, out⟩ = .ok q) :
    Progress.Step size ⟨⟨byte :: rest, position, spareHalf⟩, group, out⟩ q := by
  refine ⟨?_, h⟩
  rintro (hempty | hcomplete)
  · cases hempty
  · exact absurd hlacks (Nat.not_lt.mpr hcomplete)

/-- **A match repeats what has been produced**, and no more of it than the value lacks. -/
theorem Progress.Step.repeats {size : Nat} {p q : Progress} {group : List Bool}
    (h : Progress.Step size p q) (hgroup : p.group = true :: group) :
    ∃ distance length stream, p.stream.matchItem = .ok ((distance, length), stream) ∧
      Repeats distance p.out q.out ∧ q.out.size = min size (p.out.size + length) := by
  obtain ⟨hover, hadvance⟩ := h
  obtain ⟨-, hlacks⟩ := not_or.mp hover
  rw [advance, hgroup] at hadvance
  obtain ⟨⟨⟨distance, length⟩, stream⟩, hread, hq⟩ := bind_eq_ok_iff.mp hadvance
  obtain ⟨out, happly, hq⟩ := bind_eq_ok_iff.mp hq
  cases hq
  obtain ⟨hnear, rfl⟩ := exists_of_applyMatch happly
  refine ⟨distance, length, stream, hread, repeats_copyBack _ hnear, ?_⟩
  rw [size_copyBack]
  omega

end Xpress

namespace Compression

open Xpress

/-- **Expanding a value never reaches out of it**, whatever its bytes are. Every reading ends, after
no more words and items than there are bytes, with a value or an error, and on the way no byte of
the stream or of the value is used that is not there. In particular a match repeats bytes of the
value only, none in front of it; those that it has just written are among them if it is long. -/
theorem decompression_in_bounds (data : Bytes) :
    Guarded.decompressedSize data = .ofExcept (decompressedSize data) ∧
    Guarded.decompress data = .ofExcept (decompress data) ∧
    Guarded.unpackSevenBit data = .ofExcept (unpackSevenBit data) ∧
    Guarded.expandXpress data = .ofExcept (expandXpress data) ∧
    Guarded.decompressText data = .ofExcept (decompressText data) ∧
    ∀ (size : Nat) (p q : Progress) (group : List Bool), Progress.Steps size (.start data) p →
      Progress.Step size p q → p.group = true :: group →
        ∃ distance length stream, p.stream.matchItem = .ok ((distance, length), stream) ∧
          Repeats distance p.out q.out ∧ q.out.size = min size (p.out.size + length) := by
  refine ⟨Guarded.decompressedSize_eq data, Guarded.decompress_eq data,
    Guarded.unpackSevenBit_eq data, Guarded.expandXpress_eq data, Guarded.decompressText_eq data,
    ?_⟩
  intro size p q group _ hstep hgroup
  exact hstep.repeats hgroup

/-- A literal byte and two matches that use the two halves of one length byte. -/
def sharedHalf : Bytes := [0x18, 22, 0, 0, 0, 0, 0x60, 0x61, 7, 0, 0x10, 7, 0]

/-- Both matches repeat the bytes that they write, and the second one uses the half byte that the
first one has left. -/
theorem decompression_in_bounds_sample :
    Guarded.expandXpress sharedHalf = .ofExcept (.ok (List.replicate 22 0x61)) ∧
      ∃ p q : Progress, Progress.Steps 22 (.start sharedHalf) p ∧ p.stream.spareHalf = some 1 ∧
        Progress.Step 22 p q ∧ q.out = .replicate 22 0x61 ∧ Repeats 1 p.out q.out := by
  obtain ⟨-, -, -, hexpand, -, hmatch⟩ := decompression_in_bounds sharedHalf
  have hvalue : expandXpress sharedHalf = .ok (List.replicate 22 0x61) := by decide +kernel
  refine ⟨hexpand.trans (congrArg _ hvalue), ?_⟩
  have hword : Progress.Step 22 (.start sharedHalf)
      ⟨⟨sharedHalf.drop 7, 7, none⟩, indicatorBits 0x60000000, #[]⟩ := .of_cons (by decide) rfl
  have hliteral : Progress.Step 22 ⟨⟨sharedHalf.drop 7, 7, none⟩, indicatorBits 0x60000000, #[]⟩
      ⟨⟨sharedHalf.drop 8, 8, none⟩, true :: true :: List.replicate 29 false, #[0x61]⟩ :=
    .of_cons (by decide) rfl
  have hfirst : Progress.Step 22
      ⟨⟨sharedHalf.drop 8, 8, none⟩, true :: true :: List.replicate 29 false, #[0x61]⟩
      ⟨⟨[7, 0], 11, some 1⟩, true :: List.replicate 29 false, .replicate 11 0x61⟩ :=
    .of_cons (by decide) rfl
  have hsecond : Progress.Step 22
      ⟨⟨[7, 0], 11, some 1⟩, true :: List.replicate 29 false, .replicate 11 0x61⟩
      ⟨⟨[], 13, none⟩, List.replicate 29 false, .replicate 22 0x61⟩ := .of_cons (by decide) rfl
  have hsteps := ((Relation.ReflTransGen.single hword).tail hliteral).tail hfirst
  obtain ⟨distance, length, stream, hread, hrepeats, -⟩ := hmatch 22 _ _ _ hsteps hsecond rfl
  cases hread
  exact ⟨_, _, hsteps, rfl, hsecond, rfl, hrepeats⟩

end Compression

end EseReader
