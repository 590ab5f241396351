import EseReader.Compression
import EseReader.Proofs.Bytes
import Mathlib.Logic.Relation

/-!
# `EseReader/Proofs/Compression/Run.lean` — the reading of a stream, step by step

Reading a stream means taking indicator words and items off it, one at a time, until it is **over**:
no byte is left, or the value is complete. `Progress.advance` is what is done for one word or item
and `Progress.Steps` a run of such steps. A reading gives a value exactly if a run leads to where it
is over (`result_eq_ok_iff`); what is to be shown of all results is shown of one step, and carried
along the run.
-/

set_option autoImplicit false

namespace EseReader

namespace Xpress

/-- Where the reading of a stream is. -/
structure Progress where
  stream : Stream
  /-- The bits of the items that the current group still has. -/
  group : List Bool
  out : Array UInt8

namespace Progress

/-- What is made of the rest of the stream. -/
def result (size : Nat) (p : Progress) : Except Error (Array UInt8) :=
  produce size p.stream p.group p.out

/-- Whether nothing is left to be read, or to be produced. -/
def Over (size : Nat) (p : Progress) : Prop := p.stream.rest = [] ∨ size ≤ p.out.size

/-- Takes the next indicator word, literal byte or match from the stream. -/
def advance (size : Nat) (p : Progress) : Except Error Progress :=
  match p.group with
  | [] => do
    let (word, stream) ← p.stream.number 4 "xpress indicator"
    return ⟨stream, indicatorBits word, p.out⟩
  | false :: group =>
    match p.stream.rest with
    | [] => .ok p
    | byte :: rest =>
      .ok ⟨{ p.stream with rest := rest, position := p.stream.position + 1 }, group,
        p.out.push byte⟩
  | true :: group => do
    let ((distance, length), stream) ← p.stream.matchItem
    let out ← applyMatch p.out distance length size
    return ⟨stream, group, out⟩

variable {size : Nat} {p q : Progress}

theorem result_of_over (h : p.Over size) : p.result size = .ok p.out := by
  obtain ⟨⟨rest, position, spareHalf⟩, group, out⟩ := p
  unfold result produce
  split
  · rfl
  · next hrest => exact if_pos (h.resolve_left (by rw [hrest]; exact List.cons_ne_nil _ _))

/-- **One word or item at a time.** -/
theorem result_eq (h : ¬ p.Over size) :
    p.result size = p.advance size >>= fun q => q.result size := by
  obtain ⟨⟨rest, position, spareHalf⟩, group, out⟩ := p
  obtain ⟨hrest, hsize⟩ := not_or.mp h
  cases rest with
  | nil => exact absurd rfl hrest
  | cons byte rest =>
    simp only at hsize
    rw [result, produce, advance]
    split
    · next hnil => cases hnil
    · next hcons =>
      cases hcons
      rw [if_neg hsize]
      rcases group with _ | ⟨_ | _, group⟩
      · simp only
        split <;> next hread => rw [hread]; rfl
      · rfl
      · simp only
        split
        · next hread => rw [hread]; rfl
        · next distance length stream hread =>
          rw [hread]
          show _ = (applyMatch out distance length size >>= _) >>= _
          cases applyMatch out distance length size <;> rfl

theorem length_rest_lt (h : ¬ p.Over size) (hadvance : p.advance size = .ok q) :
    q.stream.rest.length < p.stream.rest.length := by
  obtain ⟨⟨rest, position, spareHalf⟩, group, out⟩ := p
  cases rest with
  | nil => exact absurd (.inl rfl) h
  | cons byte rest =>
    rcases group with _ | ⟨_ | _, group⟩
    · obtain ⟨⟨word, stream⟩, hread, hq⟩ := bind_eq_ok_iff.mp hadvance
      cases hq
      have := Stream.number_rest_length hread
      exact Nat.lt_of_lt_of_eq (Nat.lt_add_of_pos_right (by decide)) this
    · cases hadvance
      exact Nat.lt_succ_self _
    · obtain ⟨⟨⟨distance, length⟩, stream⟩, hread, hq⟩ := bind_eq_ok_iff.mp hadvance
      obtain ⟨out', -, hq⟩ := bind_eq_ok_iff.mp hq
      cases hq
      exact Stream.matchItem_rest_lt hread

/-- One step of a reading that is not over. -/
def Step (size : Nat) (p q : Progress) : Prop := ¬ p.Over size ∧ p.advance size = .ok q

/-- A run of steps. -/
abbrev Steps (size : Nat) : Progress → Progress → Prop := Relation.ReflTransGen (Step size)

theorem Steps.result_eq (h : Steps size p q) : p.result size = q.result size := by
  induction h with
  | refl => rfl
  | tail _ step ih =>
    rw [ih, Progress.result_eq step.1, step.2]
    rfl

/-- **A reading has a result exactly if a run leads to where it is over.** -/
theorem result_eq_ok_iff {out : Array UInt8} :
    p.result size = .ok out ↔ ∃ q, Steps size p q ∧ q.Over size ∧ q.out = out := by
  constructor
  · intro h
    -- The stream gets shorter with each step.
    induction hlength : p.stream.rest.length using Nat.strongRecOn generalizing p with
    | ind length ih =>
      by_cases hover : p.Over size
      · rw [result_of_over hover] at h
        cases h
        exact ⟨p, .refl, hover, rfl⟩
      · rw [Progress.result_eq hover] at h
        obtain ⟨next, hadvance, h⟩ := bind_eq_ok_iff.mp h
        obtain ⟨q, hsteps, hq⟩ := ih _ (hlength ▸ length_rest_lt hover hadvance) h rfl
        exact ⟨q, .head ⟨hover, hadvance⟩ hsteps, hq⟩
  · rintro ⟨q, hsteps, hover, rfl⟩
    rw [hsteps.result_eq, result_of_over hover]

/-- What cannot be read makes the whole reading an error. -/
theorem Steps.result_eq_error {e : Error} (h : Steps size p q) (hover : ¬ q.Over size)
    (herror : q.advance size = .error e) : p.result size = .error e := by
  rw [h.result_eq, Progress.result_eq hover, herror]
  rfl

/-- The beginning of a stream: the marker and the size have been read. -/
def start (data : Bytes) : Progress := ⟨⟨data.drop 3, 3, none⟩, [], #[]⟩

end Progress

end Xpress

namespace Compression

open Xpress

theorem expandXpress_cons (rest : Bytes) :
    expandXpress (matchMarker :: rest) =
      Bytes.readU16 (matchMarker :: rest) 1 "xpress uncompressed size" >>= fun size =>
        ((Progress.start (matchMarker :: rest)).result size.toNat).map Array.toList := by
  rw [expandXpress, Bytes.readU8_cons]
  show (do if matchMarker ≠ matchMarker then throw (.unsupported (.matchMarker matchMarker))
           let size ← Bytes.readU16 (matchMarker :: rest) 1 "xpress uncompressed size"
           let out ← Progress.result size.toNat (Progress.start (matchMarker :: rest))
           return out.toList : Except Error Bytes) = _
  rw [if_neg (not_not_intro rfl)]
  cases Bytes.readU16 (matchMarker :: rest) 1 "xpress uncompressed size" with
  | error e => rfl
  | ok size =>
    show (Progress.result size.toNat (Progress.start (matchMarker :: rest)) >>= _) =
      Except.map _ (Progress.result size.toNat (Progress.start (matchMarker :: rest)))
    cases Progress.result size.toNat (Progress.start (matchMarker :: rest)) <;> rfl

end Compression

end EseReader
