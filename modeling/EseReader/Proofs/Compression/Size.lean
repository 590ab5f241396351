import EseReader.Proofs.Compression.SevenBit
import EseReader.Proofs.Compression.Xpress

/-!
# `EseReader/Proofs/Compression/Size.lean` — the announced size and the size that comes out

A compressed value tells its size before it is expanded, packed bytes by their number and a stream by
a word of its own. For packed bytes that is the size which comes out. A stream, though, may end
early. Where it ends inside an indicator word or a match, that is an error; but **where it ends
between two items, what has been produced so far is taken as the value**, although it is shorter
than announced (`decompress_size`).
-/

set_option autoImplicit false

namespace EseReader

namespace Xpress

theorem size_copyBack (out : Array UInt8) (distance length : Nat)
    (h : 0 < distance ∧ distance ≤ out.size) :
    (copyBack out distance length h).size = out.size + length := by
  rw [← Array.length_toList, toList_copyBack, length_repeatBack, Array.length_toList]

theorem exists_of_applyMatch {out out' : Array UInt8} {distance length size : Nat}
    (h : applyMatch out distance length size = .ok out') :
    ∃ hnear : 0 < distance ∧ distance ≤ out.size,
      out' = copyBack out distance (min length (size - out.size)) hnear := by
  unfold applyMatch at h
  split at h
  · cases h
  · split at h
    · cases h
      exact ⟨_, rfl⟩
    · cases h

namespace Progress

variable {size : Nat} {p q : Progress}

/-- No step produces more than the value lacks. -/
theorem Step.size_le (h : Step size p q) (hp : p.out.size ≤ size) : q.out.size ≤ size := by
  obtain ⟨hover, hadvance⟩ := h
  obtain ⟨-, hlacks⟩ := not_or.mp hover
  obtain ⟨⟨rest, position, spareHalf⟩, group, out⟩ := p
  simp only at hp hlacks
  rcases group with _ | ⟨_ | _, group⟩
  · obtain ⟨_, -, hq⟩ := bind_eq_ok_iff.mp hadvance
    cases hq
    exact hp
  · cases rest with
    | nil => exact absurd (.inl rfl) hover
    | cons byte rest =>
      cases hadvance
      show (out.push byte).size ≤ size
      rw [Array.size_push]
      omega
  · obtain ⟨⟨⟨distance, length⟩, stream⟩, -, hq⟩ := bind_eq_ok_iff.mp hadvance
    obtain ⟨out', happly, hq⟩ := bind_eq_ok_iff.mp hq
    cases hq
    obtain ⟨hnear, rfl⟩ := exists_of_applyMatch happly
    show (copyBack out distance _ hnear).size ≤ size
    rw [size_copyBack]
    show out.size + min length (size - out.size) ≤ size
    omega

theorem Steps.size_le (h : Steps size p q) (hp : p.out.size ≤ size) : q.out.size ≤ size := by
  induction h with
  | refl => exact hp
  | tail _ step ih => exact step.size_le ih

end Progress

/-- Whether the bytes of a stream come to an end between two items, before a value of `size` bytes is
complete. -/
def RunsOut (data : Bytes) (size : Nat) : Prop :=
  ∃ q, Progress.Steps size (.start data) q ∧ q.stream.rest = [] ∧ q.out.size < size

/-- A value is complete, or the stream has run out. -/
theorem size_lt_iff_runsOut {data : Bytes} {size : Nat} {out : Array UInt8}
    (h : (Progress.start data).result size = .ok out) : out.size < size ↔ RunsOut data size := by
  constructor
  · intro hlt
    obtain ⟨q, hsteps, hover, rfl⟩ := Progress.result_eq_ok_iff.mp h
    exact ⟨q, hsteps, hover.resolve_right (Nat.not_le.mpr hlt), hlt⟩
  · rintro ⟨q, hsteps, hrest, hlt⟩
    rw [hsteps.result_eq, Progress.result_of_over (.inl hrest)] at h
    cases h
    exact hlt

theorem size_le_of_result_eq_ok {data : Bytes} {size : Nat} {out : Array UInt8}
    (h : (Progress.start data).result size = .ok out) : out.size ≤ size := by
  obtain ⟨q, hsteps, -, rfl⟩ := Progress.result_eq_ok_iff.mp h
  exact hsteps.size_le (Nat.zero_le size)

end Xpress

namespace Compression

open Xpress

theorem marker_cons (found : UInt8) (rest : Bytes) : marker (found :: rest) = .ok found :=
  Bytes.readU8_cons found rest _

theorem decompress_cons (found : UInt8) (rest : Bytes) :
    decompress (found :: rest) =
      if found = matchMarker then expandXpress (found :: rest)
      else unpackSevenBit (found :: rest) := by
  rw [decompress, marker_cons]
  rfl

theorem decompressedSize_cons (found : UInt8) (rest : Bytes) :
    decompressedSize (found :: rest) =
      if found = matchMarker then
        (Bytes.readU16 (found :: rest) 1 "xpress uncompressed size").map UInt16.toNat
      else .ok (rest.length * 8 / 7) := by
  rw [decompressedSize, marker_cons]
  show (if found = matchMarker then _ else _) = _
  cases Bytes.readU16 (found :: rest) 1 "xpress uncompressed size" <;> rfl

/-- A stream whose size can be read is expanded to that size. -/
theorem decompress_stream {rest : Bytes} {size : Nat}
    (h : decompressedSize (matchMarker :: rest) = .ok size) :
    decompress (matchMarker :: rest) =
      ((Progress.start (matchMarker :: rest)).result size).map Array.toList := by
  rw [decompressedSize_cons, if_pos rfl] at h
  obtain ⟨word, hword, rfl⟩ := map_eq_ok_iff.mp h
  rw [decompress_cons, if_pos rfl, expandXpress_cons, hword]
  rfl

theorem exists_size_of_decompress_eq_ok {rest out : Bytes}
    (h : decompress (matchMarker :: rest) = .ok out) :
    ∃ size, decompressedSize (matchMarker :: rest) = .ok size := by
  rw [decompress_cons, if_pos rfl, expandXpress_cons] at h
  obtain ⟨word, hword, -⟩ := bind_eq_ok_iff.mp h
  exact ⟨word.toNat, by rw [decompressedSize_cons, if_pos rfl, hword]; rfl⟩

/-- **The size that comes out is at most the announced one, and it is less exactly if a stream runs
out between two items.** Such a stream is no error. One that breaks off inside a word or a match, or
whose next match cannot be, is. -/
theorem decompress_size :
    (∀ data out : Bytes, decompress data = .ok out →
      ∃ size, decompressedSize data = .ok size ∧ out.length ≤ size ∧
        (out.length < size ↔ data.head? = some matchMarker ∧ RunsOut data size)) ∧
    (∀ (data : Bytes) (size : Nat), data.head? = some matchMarker →
      decompressedSize data = .ok size → RunsOut data size →
      ∃ out, decompress data = .ok out ∧ out.length < size) ∧
    ∀ (data : Bytes) (size : Nat) (q : Progress) (e : Error), data.head? = some matchMarker →
      decompressedSize data = .ok size → Progress.Steps size (.start data) q → ¬ q.Over size →
      q.advance size = .error e → decompress data = .error e := by
  refine ⟨?_, ?_, ?_⟩
  · intro data out h
    cases data with
    | nil => cases h
    | cons found rest =>
      by_cases hfound : found = matchMarker
      · subst hfound
        obtain ⟨size, hsize⟩ := exists_size_of_decompress_eq_ok h
        rw [decompress_stream hsize] at h
        obtain ⟨produced, hresult, rfl⟩ := map_eq_ok_iff.mp h
        refine ⟨size, hsize, size_le_of_result_eq_ok hresult, ?_⟩
        rw [Array.length_toList, size_lt_iff_runsOut hresult]
        exact ⟨fun hruns => ⟨rfl, hruns⟩, And.right⟩
      · have hpacked : decompress (found :: rest) = .ok (SevenBit.unpack rest) := by
          rw [decompress_cons, if_neg hfound, unpackSevenBit_cons hfound]
        have hlength := SevenBit.length_unpack rest
        rw [hpacked] at h
        cases h
        refine ⟨_, by rw [decompressedSize_cons, if_neg hfound], Nat.le_of_eq hlength, ?_⟩
        rw [hlength]
        exact ⟨fun hlt => absurd hlt (Nat.lt_irrefl _),
          fun hmarker => absurd (Option.some.inj hmarker.1) hfound⟩
  · rintro data size hmarker hsize ⟨q, hsteps, hrest, hlt⟩
    obtain ⟨rest, rfl⟩ := List.head?_eq_some_iff.mp hmarker
    refine ⟨q.out.toList, ?_, hlt⟩
    rw [decompress_stream hsize, hsteps.result_eq, Progress.result_of_over (.inl hrest)]
    rfl
  · intro data size q e hmarker hsize hsteps hover herror
    obtain ⟨rest, rfl⟩ := List.head?_eq_some_iff.mp hmarker
    rw [decompress_stream hsize, hsteps.result_eq_error hover herror]
    rfl

/-- A stream that announces five bytes runs out behind two. -/
theorem decompress_size_short :
    decompress [0x18, 5, 0, 0, 0, 0, 0, 0x61, 0x62] = .ok [0x61, 0x62] ∧
      RunsOut [0x18, 5, 0, 0, 0, 0, 0, 0x61, 0x62] 5 := by
  have hvalue : decompress [0x18, 5, 0, 0, 0, 0, 0, 0x61, 0x62] = .ok [0x61, 0x62] := by
    decide +kernel
  obtain ⟨size, hsize, -, hless⟩ := decompress_size.1 _ _ hvalue
  cases hsize
  exact ⟨hvalue, (hless.mp (by decide)).2⟩

/-- The two bytes are the value, although they are fewer than announced. -/
theorem decompress_short :
    decompress [0x18, 5, 0, 0, 0, 0, 0, 0x61, 0x62] = .ok [0x61, 0x62] ∧
      decompressedSize [0x18, 5, 0, 0, 0, 0, 0, 0x61, 0x62] = .ok 5 ∧
      ¬ ∀ data out : Bytes, decompress data = .ok out → decompressedSize data = .ok out.length := by
  have hvalue : decompress [0x18, 5, 0, 0, 0, 0, 0, 0x61, 0x62] = .ok [0x61, 0x62] := by
    decide +kernel
  have hsize : decompressedSize [0x18, 5, 0, 0, 0, 0, 0, 0x61, 0x62] = .ok 5 := by rfl
  refine ⟨hvalue, hsize, fun h => ?_⟩
  have hlength := h _ _ hvalue
  rw [hsize] at hlength
  cases hlength

end Compression

end EseReader
