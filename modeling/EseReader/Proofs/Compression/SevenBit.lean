import EseReader.Compression
import EseReader.Proofs.Bytes
import Mathlib.Data.List.Induction
import Mathlib.Tactic.Ring

/-!
# `EseReader/Proofs/Compression/SevenBit.lean` — unpacking undoes packing

Stored bytes and value bytes are the digits of one number, to the bases 256 and 128. The reader goes
through the stored digits and keeps what has not filled a value digit yet in a word of 16 bits. Its
invariant is `Holds`: **the number read so far is the number put out and, above it, the pending
bits**. Taking a byte in and putting a digit out both keep it. Fewer than seven bits are pending
between two bytes, so one more byte always fits the word, and no bit is lost at either end of it.

The packed form does not say how many bytes it holds, and behind a value of 7, 15, 23, … bytes there
is room for one more. A zero byte then comes out behind the value (`pack_unpack_lossless`).
-/

set_option autoImplicit false

namespace EseReader

namespace SevenBit

/-! ## Seven-bit digits -/

theorem ofSeptets_append (front rest : Bytes) :
    ofSeptets (front ++ rest) = ofSeptets front + 128 ^ front.length * ofSeptets rest := by
  induction front with
  | nil => simp [ofSeptets]
  | cons byte front ih =>
    rw [List.cons_append, ofSeptets, ofSeptets, ih, List.length_cons, Nat.pow_succ]
    ring

theorem ofSeptets_lt (value : Bytes) : ofSeptets value < 128 ^ value.length := by
  induction value with
  | nil => exact Nat.one_pos
  | cons byte value ih =>
    have hbyte : byte.toNat % 128 < 128 := Nat.mod_lt _ (by decide)
    rw [ofSeptets, List.length_cons, Nat.pow_succ]
    omega

theorem ofSeptets_zeros (count : Nat) : ofSeptets (List.replicate count 0) = 0 := by
  induction count with
  | zero => rfl
  | succ count ih => rw [List.replicate_succ, ofSeptets, ih]; rfl

/-- Strings of seven-bit bytes of one length that spell the same number are the same. -/
theorem eq_of_ofSeptets_eq {a b : Bytes} (hlength : a.length = b.length) (ha : ∀ x ∈ a, x < 0x80)
    (hb : ∀ x ∈ b, x < 0x80) (h : ofSeptets a = ofSeptets b) : a = b := by
  induction a generalizing b with
  | nil => exact (List.eq_nil_of_length_eq_zero hlength.symm).symm
  | cons x a ih =>
    cases b with
    | nil => cases hlength
    | cons y b =>
      obtain ⟨hx, ha⟩ := List.forall_mem_cons.mp ha
      obtain ⟨hy, hb⟩ := List.forall_mem_cons.mp hb
      have hx : x.toNat < 128 := UInt8.lt_iff_toNat_lt.mp hx
      have hy : y.toNat < 128 := UInt8.lt_iff_toNat_lt.mp hy
      rw [ofSeptets, ofSeptets, Nat.mod_eq_of_lt hx, Nat.mod_eq_of_lt hy] at h
      have hdigit : x = y := UInt8.toNat_inj.mp (by omega)
      rw [hdigit, ih (Nat.succ_inj.mp hlength) ha hb (by omega)]

/-! ## The word of pending bits -/

theorem toNat_septet (bits : UInt16) : (bits &&& 0x7f).toUInt8.toNat = bits.toNat % 128 := by
  have hmask : bits.toNat &&& 0x7f = bits.toNat % 128 := Nat.and_two_pow_sub_one_eq_mod _ 7
  rw [UInt16.toNat_toUInt8, UInt16.toNat_and]
  show (bits.toNat &&& 0x7f) % 256 = _
  rw [hmask]
  omega

theorem toNat_shiftRight_seven (bits : UInt16) : (bits >>> 7).toNat = bits.toNat / 128 := by
  rw [UInt16.toNat_shiftRight]
  exact Nat.shiftRight_eq_div_pow _ 7

theorem shiftRight_fourteen (bits : UInt16) : bits >>> 14 = bits >>> 7 >>> 7 := by
  rw [← UInt16.toNat_inj, toNat_shiftRight_seven, toNat_shiftRight_seven, UInt16.toNat_shiftRight,
    Nat.div_div_eq_div_mul]
  exact Nat.shiftRight_eq_div_pow _ 14

/-- The word with the bits of one more stored byte above those that are pending. -/
def Pending.accumulated (pending : Pending) (byte : UInt8) : UInt16 :=
  pending.bits ||| (byte.toUInt16 <<< pending.count)

/-- **The word has room for one more byte** when fewer than seven bits are pending: no bit is shifted
out at its top, and none of the pending bits is covered. -/
theorem Pending.toNat_accumulated {pending : Pending} (hcount : pending.count.toNat < 7)
    (hbits : pending.bits.toNat < 2 ^ pending.count.toNat) (byte : UInt8) :
    (pending.accumulated byte).toNat = pending.bits.toNat + 2 ^ pending.count.toNat * byte.toNat := by
  have hbyte := byte.toNat_lt
  have hpow : 2 ^ pending.count.toNat ≤ 2 ^ 6 := Nat.pow_le_pow_right (by decide) (by omega)
  have hroom : 2 ^ pending.count.toNat * byte.toNat < 2 ^ 16 :=
    Nat.lt_of_le_of_lt (Nat.mul_le_mul hpow (Nat.le_of_lt_succ hbyte)) (by decide)
  rw [accumulated, UInt16.toNat_or, UInt16.toNat_shiftLeft, UInt8.toNat_toUInt16,
    Nat.mod_eq_of_lt (show pending.count.toNat < 16 by omega), Nat.shiftLeft_eq, Nat.mul_comm,
    Nat.mod_eq_of_lt hroom, Nat.or_comm, ← Nat.two_pow_add_eq_or_of_lt hbits, Nat.add_comm]

/-! ## What is true while reading -/

/-- When `stored` has been read and `out` put out, `count` bits are pending, those of `bits`: every
stored bit is in its place in one of the two. -/
structure Holds (stored : Bytes) (out : Array UInt8) (bits : UInt16) (count : Nat) : Prop where
  bits_lt : bits.toNat < 2 ^ count
  length : 8 * stored.length = 7 * out.size + count
  number : littleEndian stored = ofSeptets out.toList + 128 ^ out.size * bits.toNat

variable {stored : Bytes} {out : Array UInt8} {bits : UInt16} {count : Nat}

/-- A byte is taken in above the pending bits. -/
theorem Holds.takeIn {pending : Pending} (h : Holds stored out pending.bits pending.count.toNat)
    (hcount : pending.count.toNat < 7) (byte : UInt8) :
    Holds (stored ++ [byte]) out (pending.accumulated byte) (pending.count.toNat + 8) := by
  have hword := Pending.toNat_accumulated hcount h.bits_lt byte
  have hbits := h.bits_lt
  have hlength := h.length
  refine ⟨?_, ?_, ?_⟩
  · have hbyte : 2 ^ pending.count.toNat * byte.toNat ≤ 2 ^ pending.count.toNat * 255 :=
      Nat.mul_le_mul_left _ (Nat.le_of_lt_succ byte.toNat_lt)
    rw [hword, Nat.pow_add]
    omega
  · rw [List.length_append, List.length_singleton]
    omega
  · have hbyte : littleEndian [byte] = byte.toNat := by simp only [littleEndian]; omega
    have hpow : 256 ^ stored.length = 128 ^ out.size * 2 ^ pending.count.toNat := by
      rw [show (256 : Nat) = 2 ^ 8 from rfl, show (128 : Nat) = 2 ^ 7 from rfl, ← Nat.pow_mul,
        ← Nat.pow_mul, ← Nat.pow_add, hlength]
    rw [littleEndian_append, hbyte, h.number, hpow, hword]
    ring

/-- The seven lowest pending bits are put out. -/
theorem Holds.putOut (h : Holds stored out bits (count + 7)) :
    Holds stored (out.push (bits &&& 0x7f).toUInt8) (bits >>> 7) count := by
  have hbits := h.bits_lt
  have hlength := h.length
  refine ⟨?_, ?_, ?_⟩
  · rw [Nat.pow_add] at hbits
    rw [toNat_shiftRight_seven]
    exact Nat.div_lt_of_lt_mul (by rw [Nat.mul_comm]; exact hbits)
  · rw [Array.size_push]
    omega
  · have hsplit := Nat.mod_add_div bits.toNat 128
    rw [h.number, Array.toList_push, ofSeptets_append, Array.size_push, Array.length_toList,
      toNat_shiftRight_seven, ofSeptets, ofSeptets, toNat_septet, Nat.mod_mod, Nat.pow_succ]
    calc ofSeptets out.toList + 128 ^ out.size * bits.toNat
        = ofSeptets out.toList + 128 ^ out.size * (bits.toNat % 128 + 128 * (bits.toNat / 128)) := by
          rw [hsplit]
      _ = _ := by ring

/-- Where a reader is when it has read `stored`. -/
def after (stored : Bytes) : Pending × Array UInt8 := stored.foldl step (⟨0, 0⟩, #[])

/-- Between two stored bytes: fewer than seven bits are pending. -/
structure Balanced (stored : Bytes) (state : Pending × Array UInt8) : Prop where
  count_lt : state.1.count.toNat < 7
  holds : Holds stored state.2 state.1.bits state.1.count.toNat

theorem Balanced.step {state : Pending × Array UInt8} (h : Balanced stored state) (byte : UInt8) :
    Balanced (stored ++ [byte]) (step state byte) := by
  obtain ⟨pending, out⟩ := state
  obtain ⟨hcount, hholds⟩ := h
  have hloaded := hholds.takeIn hcount byte
  simp only at hcount hloaded
  unfold SevenBit.step
  by_cases hsix : pending.count = 6
  · -- Fourteen bits are there now, which are put out both.
    have htwo : pending.count.toNat + 8 = 0 + 7 + 7 := by rw [hsix]; rfl
    rw [htwo] at hloaded
    simp only [if_pos hsix, shiftRight_fourteen]
    exact ⟨(by decide : (0 : UInt16).toNat < 7), hloaded.putOut.putOut⟩
  · have hnot : pending.count.toNat ≠ 6 := fun h => hsix (UInt16.toNat_inj.mp h)
    have hsucc : (pending.count + 1).toNat = pending.count.toNat + 1 :=
      (UInt16.toNat_add _ _).trans
        (Nat.mod_eq_of_lt (show pending.count.toNat + 1 < 2 ^ 16 by omega))
    simp only [if_neg hsix]
    refine ⟨?_, ?_⟩
    · show (pending.count + 1).toNat < 7
      omega
    · show Holds _ _ _ (pending.count + 1).toNat
      rw [hsucc]
      exact hloaded.putOut

theorem balanced_after (stored : Bytes) : Balanced stored (after stored) := by
  induction stored using List.reverseRecOn with
  | nil => exact ⟨by decide, by decide, rfl, rfl⟩
  | append_singleton stored byte ih =>
    rw [after, List.foldl_append]
    exact ih.step byte

/-! ## The whole value -/

/-- The number of bytes that come out. -/
theorem length_unpack (stored : Bytes) : (unpack stored).length = stored.length * 8 / 7 := by
  have h := balanced_after stored
  have hlength := h.holds.length
  have hcount := h.count_lt
  show (after stored).2.toList.length = _
  rw [Array.length_toList]
  omega

theorem littleEndian_pack (value : Bytes) : littleEndian (pack value) = ofSeptets value := by
  refine littleEndian_leBytes _ _ (Nat.lt_of_lt_of_le (ofSeptets_lt value) ?_)
  show 128 ^ value.length ≤ 256 ^ ((7 * value.length + 7) / 8)
  rw [show (256 : Nat) = 2 ^ 8 from rfl, show (128 : Nat) = 2 ^ 7 from rfl, ← Nat.pow_mul,
    ← Nat.pow_mul]
  exact Nat.pow_le_pow_right (by decide) (by omega)

/-- The room for one more byte that is left behind a value. -/
def spare (value : Bytes) : Bytes := if value.length % 8 = 7 then [0] else []

theorem unpack_pack {value : Bytes} (hvalue : ∀ b ∈ value, b < 0x80) :
    unpack (pack value) = value ++ spare value := by
  have hspare : spare value = List.replicate (spare value).length 0 := by
    unfold spare
    split <;> rfl
  have hlength : (unpack (pack value)).length = (value ++ spare value).length := by
    have hround : (7 * value.length + 7) / 8 * 8 = 7 * value.length + value.length % 8 := by omega
    rw [length_unpack, length_pack, hround, List.length_append, spare]
    split
    · rw [List.length_singleton]
      omega
    · rw [List.length_nil]
      omega
  refine eq_of_ofSeptets_eq hlength (fun b => lt_of_mem_unpack) ?_ ?_
  · intro b hb
    rcases List.mem_append.mp hb with hb | hb
    · exact hvalue b hb
    · rw [hspare] at hb
      rw [List.eq_of_mem_replicate hb]
      decide
  · -- The number has no more digits than the value, so nothing of it is pending.
    have hnumber := (balanced_after (pack value)).holds.number
    have hsize : (after (pack value)).2.size = (unpack (pack value)).length :=
      Array.length_toList.symm
    have hle : 128 ^ value.length ≤ 128 ^ (unpack (pack value)).length := by
      refine Nat.pow_le_pow_right (by decide) ?_
      rw [hlength, List.length_append]
      exact Nat.le_add_right _ _
    have hlt := Nat.lt_of_lt_of_le (ofSeptets_lt value) hle
    rw [littleEndian_pack, hsize] at hnumber
    have hbits : (after (pack value)).1.bits.toNat = 0 := by
      by_contra hbits
      have := Nat.le_mul_of_pos_right (128 ^ (unpack (pack value)).length)
        (Nat.pos_of_ne_zero hbits)
      omega
    rw [hbits, Nat.mul_zero, Nat.add_zero] at hnumber
    rw [ofSeptets_append, hspare, ofSeptets_zeros, Nat.mul_zero, Nat.add_zero]
    exact hnumber.symm

end SevenBit

namespace Compression

open SevenBit

theorem unpackSevenBit_cons {found : UInt8} (hfound : found ≠ matchMarker) (stored : Bytes) :
    unpackSevenBit (found :: stored) = .ok (unpack stored) := by
  rw [unpackSevenBit, Bytes.readU8_cons]
  show (do if found = matchMarker then throw (.unsupported .packedMarker)
           return unpack stored : Except Error Bytes) = _
  rw [if_neg hfound]
  rfl

theorem exists_of_unpackSevenBit_eq_ok {data out : Bytes} (h : unpackSevenBit data = .ok out) :
    ∃ found stored, data = found :: stored ∧ found ≠ matchMarker ∧ out = unpack stored := by
  cases data with
  | nil => cases h
  | cons found stored =>
    by_cases hfound : found = matchMarker
    · subst hfound
      cases h
    · rw [unpackSevenBit_cons hfound] at h
      cases h
      exact ⟨found, stored, rfl, hfound, rfl⟩

/-- **Unpacking undoes packing**, but for a zero byte that comes out where there is room for it.
Whatever is unpacked, seven-bit bytes come out; and from each byte to the next no bit is lost: fewer
than seven are pending, the new ones have room above them, and what has been read is what has been
put out with the pending bits above it. -/
theorem pack_unpack_lossless :
    (∀ (found : UInt8) (value : Bytes), found ≠ matchMarker → (∀ b ∈ value, b < 0x80) →
      unpackSevenBit (found :: pack value) =
        .ok (if value.length % 8 = 7 then value ++ [0] else value)) ∧
    (∀ data out : Bytes, unpackSevenBit data = .ok out → ∀ b ∈ out, b < 0x80) ∧
    ∀ (stored : Bytes) (byte : UInt8),
      let (pending, out) := stored.foldl step (⟨0, 0⟩, #[])
      pending.count.toNat < 7 ∧ pending.bits.toNat < 2 ^ pending.count.toNat ∧
        (pending.bits ||| (byte.toUInt16 <<< pending.count)).toNat =
          pending.bits.toNat + 2 ^ pending.count.toNat * byte.toNat ∧
        8 * stored.length = 7 * out.size + pending.count.toNat ∧
        littleEndian stored = ofSeptets out.toList + 128 ^ out.size * pending.bits.toNat := by
  refine ⟨?_, ?_, ?_⟩
  · intro found value hfound hvalue
    rw [unpackSevenBit_cons hfound, unpack_pack hvalue, spare]
    split
    · rfl
    · rw [List.append_nil]
  · intro data out h b hb
    obtain ⟨found, stored, -, -, rfl⟩ := exists_of_unpackSevenBit_eq_ok h
    exact lt_of_mem_unpack hb
  · intro stored byte
    have h := balanced_after stored
    exact ⟨h.count_lt, h.holds.bits_lt, Pending.toNat_accumulated h.count_lt h.holds.bits_lt byte,
      h.holds.length, h.holds.number⟩

/-- Seven bytes leave room for an eighth. -/
theorem pack_unpack_lossless_seven :
    unpackSevenBit (0x10 :: pack [0x61, 0x62, 0x63, 0x64, 0x65, 0x66, 0x67]) =
      .ok [0x61, 0x62, 0x63, 0x64, 0x65, 0x66, 0x67, 0] := by
  refine pack_unpack_lossless.1 0x10 [0x61, 0x62, 0x63, 0x64, 0x65, 0x66, 0x67] (by decide) ?_
  simp only [List.forall_mem_cons, List.not_mem_nil, false_implies, implies_true]
  decide

end Compression

end EseReader
