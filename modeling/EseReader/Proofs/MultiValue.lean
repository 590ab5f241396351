import EseReader.Proofs.Guarded
import EseReader.Proofs.MultiValue.Splitting

/-!
# `EseReader/Proofs/MultiValue.lean` — the values of a multi-value stay inside

Splitting a column into its values and taking one of them out are two different readings. The first
tests the table of offsets: none lies behind the end and none goes back (`StartsWithin`). The second
tests nothing. It takes the bytes between two offsets, so **what it relies on is the outcome of the
first one**, and only for multi-values that come out of `parse` is it covered.
-/

set_option autoImplicit false

namespace EseReader

namespace Guarded

/-- The offsets from the one at `index` on, each checked against the one before. -/
def startsFrom (data : Bytes) : (count index : Nat) → (previous : Option Nat) → Guarded (List Nat)
  | 0, _, _ => return []
  | count + 1, index, previous => do
    let word ← word data (2 * index) "multi-value offset table"
    let start := word.toNat % 0x8000
    match previous with
    | some earlier => if start < earlier then throw (.taggedOffsets earlier start)
    | none => pure ()
    if data.length < start then throw (.outOfBounds "multi-value entry" start 0 data.length)
    return start :: (← startsFrom data count (index + 1) (some start))

def multiValue (data : Bytes) (flags : ValueFlags) : Guarded MultiValue := do
  if !flags.isMultiValue then throw (.request (.notAMultiValue flags.bits))
  if flags.isLongValue || flags.isIndirect then
    throw (.unsupported (.multiValueFlags flags.bits))
  let first ← word data 0 "multi-value offset table"
  let count := first.toNat % 0x8000 / 2
  if count = 0 then throw .emptyMultiValue
  return ⟨data, ← startsFrom data count 0 none⟩

/-- The value at `index`. It runs to the next start, the last one to the end of the data. -/
def valueAt (values : MultiValue) (index : Nat) : Guarded (Option Bytes) :=
  match values.starts[index]? with
  | none => return none
  | some start => some <$> cut values.data start (values.starts[index + 1]?.getD values.data.length)

theorem startsFrom_eq (data : Bytes) (count index : Nat) (previous : Option Nat) :
    startsFrom data count index previous =
      ofExcept (MultiValue.readStarts data.length count (2 * index) previous
        (data.drop (2 * index))) := by
  induction count generalizing index previous with
  | zero => rfl
  | succ count ih =>
    rw [startsFrom]
    match hrest : data.drop (2 * index) with
    | [] =>
      rw [word_eq_error (by rw [hrest]; exact Nat.two_pos)]
      rfl
    | [_] =>
      rw [word_eq_error (by rw [hrest]; exact Nat.one_lt_two)]
      rfl
    | low :: high :: table =>
      -- What is left of the table is what stands from the next position on.
      have hnext : data.drop (2 * (index + 1)) = table := by
        rw [Nat.mul_succ, ← List.drop_drop, hrest]
        rfl
      have htail : ∀ start, startsFrom data count (index + 1) (some start) =
          ofExcept (MultiValue.readStarts data.length count (2 * index + 2) (some start) table) := by
        intro start
        rw [ih, hnext]
        rfl
      rw [word_eq_pair hrest, ok_bind, toNat_ofNat_pair]
      have hchecked : ∀ start, (do
          if data.length < start then throw (.outOfBounds "multi-value entry" start 0 data.length)
          return start :: (← startsFrom data count (index + 1) (some start)) : Guarded (List Nat)) =
          ofExcept (do
            if data.length < start then
              throw (.outOfBounds "multi-value entry" start 0 data.length)
            return start :: (← MultiValue.readStarts data.length count (2 * index + 2) (some start)
              table)) := by
        intro start
        by_cases hbehind : data.length < start
        · simp only [if_pos hbehind]
          rfl
        · simp only [if_neg hbehind]
          exact bind_ofExcept (htail start) fun _ _ => rfl
      cases previous with
      | none => exact hchecked _
      | some earlier =>
        by_cases hback : littleEndian [low, high] % 0x8000 < earlier
        · simp only [MultiValue.readStarts, if_pos hback]
          rfl
        · simp only [MultiValue.readStarts, if_neg hback]
          exact hchecked _

theorem multiValue_eq (data : Bytes) (flags : ValueFlags) :
    multiValue data flags = ofExcept (MultiValue.parse data flags) := by
  unfold multiValue MultiValue.parse
  by_cases hmulti : (!flags.isMultiValue) = true
  · simp only [if_pos hmulti]
    rfl
  by_cases hkind : (flags.isLongValue || flags.isIndirect) = true
  · simp only [if_neg hmulti, if_pos hkind]
    rfl
  simp only [if_neg hmulti, if_neg hkind]
  refine bind_ofExcept (word_eq data 0 _) ?_
  intro first _
  by_cases hcount : first.toNat % 0x8000 / 2 = 0
  · simp only [if_pos hcount]
    rfl
  · simp only [if_neg hcount]
    exact bind_ofExcept (startsFrom_eq data _ 0 none) fun _ _ => rfl

/-- The value at an index is covered wherever the starts are within the data. -/
theorem valueAt_eq {values : MultiValue}
    (h : MultiValue.StartsWithin values.data.length values.starts) (index : Nat) :
    valueAt values index = ofExcept (.ok (values.get? index)) := by
  unfold valueAt MultiValue.get?
  cases hstart : values.starts[index]? with
  | none => rfl
  | some start =>
    have hinside := h.inside start (List.mem_of_getElem? hstart)
    cases hstop : values.starts[index + 1]? with
    | none =>
      show some <$> cut values.data start values.data.length = _
      rw [cut_eq hinside (Nat.le_refl _)]
      rfl
    | some stop =>
      have horder : start ≤ stop := by
        obtain ⟨hindex, rfl⟩ := List.getElem?_eq_some_iff.mp hstart
        obtain ⟨hnext, rfl⟩ := List.getElem?_eq_some_iff.mp hstop
        exact List.pairwise_iff_getElem.mp h.ordered index (index + 1) hindex hnext
          (Nat.lt_succ_self index)
      show some <$> cut values.data start stop = _
      rw [cut_eq horder (h.inside stop (List.mem_of_getElem? hstop))]
      rfl

/-- **Splitting a column and taking one of its values out stay in its data**, whatever the data, the
flags and the index. -/
theorem multiValue_valueAt_eq (data : Bytes) (flags : ValueFlags) (index : Nat) :
    (do valueAt (← multiValue data flags) index) =
      ofExcept ((MultiValue.parse data flags).map (·.get? index)) := by
  have hsteps : (do valueAt (← multiValue data flags) index) =
      ofExcept (do return (← MultiValue.parse data flags).get? index) := by
    refine bind_ofExcept (multiValue_eq data flags) ?_
    intro values hvalues
    obtain ⟨hdata, hwithin⟩ := MultiValue.startsWithin_of_parse hvalues
    rw [← hdata] at hwithin
    exact valueAt_eq hwithin index
  rw [hsteps]
  cases MultiValue.parse data flags <;> rfl

end Guarded

end EseReader
