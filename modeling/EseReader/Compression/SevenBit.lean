import EseReader.Bytes

/-!
# `EseReader/Compression/SevenBit.lean` — packed 7-bit values

A value all of whose bytes are below 0x80 can be stored with seven bits a byte. The bits follow
each other without gaps, the lowest first, so seven stored bytes hold eight. The packed form does
not say how many bytes it holds: bits at the end that fill another seven come out as one more byte.

`unpack` is the reader, `pack` the writer it belongs to. Whatever was packed, **every byte that comes
out is below 0x80**.
-/

set_option autoImplicit false

namespace EseReader.SevenBit

/-- What is left of the stored bits between two bytes: fewer than seven bits, the lowest first. -/
structure Pending where
  bits : UInt16
  count : UInt16

/-- Takes one stored byte: one value byte comes out, and a second one when seven bits are left. -/
def step (state : Pending × Array UInt8) (byte : UInt8) : Pending × Array UInt8 :=
  let (pending, out) := state
  let bits := pending.bits ||| (byte.toUInt16 <<< pending.count)
  let out := out.push (bits &&& 0x7f).toUInt8
  if pending.count = 6 then (⟨bits >>> 14, 0⟩, out.push ((bits >>> 7) &&& 0x7f).toUInt8)
  else (⟨bits >>> 7, pending.count + 1⟩, out)

/-- The bytes that `stored` holds. -/
def unpack (stored : Bytes) : Bytes := (stored.foldl step (⟨0, 0⟩, #[])).2.toList

/-! ## Packing -/

/-- Reads seven-bit digits as a number, the lowest digit first. -/
def ofSeptets : Bytes → Nat
  | [] => 0
  | b :: rest => b.toNat % 128 + 128 * ofSeptets rest

/-- The stored form of `value`: its seven-bit digits as one number, written in as many bytes as
hold them. The unused high bits of the last byte are zero. -/
def pack (value : Bytes) : Bytes := leBytes ((7 * value.length + 7) / 8) (ofSeptets value)

theorem length_pack (value : Bytes) : (pack value).length = (7 * value.length + 7) / 8 :=
  length_leBytes _ _

/-! ## What comes out -/

theorem septet_lt (bits : UInt16) : (bits &&& 0x7f).toUInt8 < 0x80 := by
  rw [UInt8.lt_iff_toNat_lt, UInt16.toNat_toUInt8, UInt16.toNat_and]
  have : bits.toNat &&& 0x7f ≤ 0x7f := Nat.and_le_right
  exact Nat.lt_of_le_of_lt (Nat.mod_le _ _) (Nat.lt_succ_of_le this)

theorem step_lt {state : Pending × Array UInt8} {byte : UInt8}
    (h : ∀ b ∈ state.2, b < 0x80) : ∀ b ∈ (step state byte).2, b < 0x80 := by
  intro b hb
  simp only [step] at hb
  split at hb
  · rcases Array.mem_push.mp hb with hb | rfl
    · rcases Array.mem_push.mp hb with hb | rfl
      · exact h b hb
      · exact septet_lt _
    · exact septet_lt _
  · rcases Array.mem_push.mp hb with hb | rfl
    · exact h b hb
    · exact septet_lt _

theorem foldl_step_lt (stored : Bytes) {state : Pending × Array UInt8}
    (h : ∀ b ∈ state.2, b < 0x80) : ∀ b ∈ (stored.foldl step state).2, b < 0x80 := by
  induction stored generalizing state with
  | nil => exact h
  | cons byte stored ih => exact ih (step_lt h)

/-- Unpacked bytes have seven bits. -/
theorem lt_of_mem_unpack {stored : Bytes} {b : UInt8} (h : b ∈ unpack stored) : b < 0x80 :=
  foldl_step_lt stored (by simp) b (Array.mem_toList_iff.mp h)

end EseReader.SevenBit
