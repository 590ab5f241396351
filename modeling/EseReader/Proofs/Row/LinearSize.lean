import EseReader.Proofs.Row.Tagged

/-!
# `EseReader/Proofs/Row/LinearSize.lean` — sizes that the linear layout loses

A linear value says its size in one word, whose top bit is for the flags. That leaves fifteen bits
for sizes up to 0x7fff, and a value without flags can have any of them. With flags the reader takes
the size through a mask that has **no bit 13**, so it takes a size with that bit for one that is
0x2000 less.

A list of values that were written with sizes of fifteen bits comes back exactly if no flagged one
among them has a size with bit 13 (`readLinear_linearBytes_eq_ok_iff`). What else comes back is
known as well: all values in front of the first such one, that one without its last 0x2000 bytes,
and then **whatever these bytes are read as**. If it has no other bytes there is none for the flags,
and the reader stops.
-/

set_option autoImplicit false

namespace EseReader

namespace TaggedValue

/-! ## The mask -/

theorem and_mask_eq {size : Nat} (h : size < 0x8000) :
    size &&& 0x5fff = if size.testBit 13 then size - 0x2000 else size := by
  have hlow : (size &&& 0x5fff) % 2 ^ 13 = size % 2 ^ 13 := by
    rw [Nat.and_mod_two_pow]
    exact (Nat.and_two_pow_sub_one_eq_mod _ 13).trans (Nat.mod_mod _ _)
  have hhigh : (size &&& 0x5fff) / 2 ^ 13 = size / 2 ^ 13 &&& 2 := Nat.and_div_two_pow
  -- Two bits are left above the low ones, and of these the mask keeps the higher one.
  have htwo : ∀ bits < 4, bits &&& 2 = if bits % 2 = 1 then bits - 1 else bits := by decide
  rw [htwo _ (by omega)] at hhigh
  rw [Nat.testBit_eq_decide_div_mod_eq]
  simp only [decide_eq_true_eq]
  split at hhigh
  case isTrue hbit => rw [if_pos hbit]; omega
  case isFalse hbit => rw [if_neg hbit]; omega

/-- A flagged value whose size has the bit that the mask does not have. -/
def LosesBytes (value : StoredValue) : Prop :=
  value.flags.isSome = true ∧ value.span.length.testBit 13 = true

instance (value : StoredValue) : Decidable (LosesBytes value) :=
  inferInstanceAs (Decidable (_ ∧ _))

variable {value : StoredValue}

theorem fitsLinear_iff (h : value.span.length < 0x8000) : FitsLinear value ↔ ¬LosesBytes value := by
  rw [FitsLinear, and_mask_eq h, LosesBytes, not_and]
  constructor
  · rintro ⟨-, hmask⟩ hflags hbit
    have hle := Nat.ge_two_pow_of_testBit hbit
    have hsame := hmask hflags
    rw [if_pos hbit] at hsame
    omega
  · intro hkept
    exact ⟨h, fun hflags => if_neg (hkept hflags)⟩

theorem linearSize_of_losesBytes (h : value.span.length < 0x8000) (hloses : LosesBytes value) :
    linearSize (linearWord value) = value.span.length - 0x2000 := by
  rw [linearSize_of_isSome h hloses.1, and_mask_eq h, if_pos hloses.2]

/-! ## Which lists come back -/

/-- If the blocks of a region are those that were written, each was written with its own size. -/
theorem fitsLinear_of_blockBytes_eq {blocks : List LinearBlock}
    (hsizes : ∀ block ∈ blocks, block.value.value.span.length < 0x8000)
    (h : blockBytes blocks = linearBytes (blocks.map LinearBlock.value)) :
    ∀ block ∈ blocks, FitsLinear block.value.value := by
  induction blocks with
  | nil =>
    intro block hblock
    cases hblock
  | cons block blocks ih =>
    obtain ⟨hsize, hsizes⟩ := List.forall_mem_cons.mp hsizes
    have hspan : block.value.value.span = block.payload := by
      rw [← block.ofSpan_payload, StoredValue.span_ofSpan]
    rw [blockBytes_cons, LinearBlock.bytes, List.map_cons, linearBytes, List.flatMap_cons, hspan,
      List.append_assoc, List.append_assoc, List.append_assoc, List.append_assoc] at h
    obtain ⟨-, h⟩ := List.append_inj h rfl
    obtain ⟨hword, h⟩ := List.append_inj h rfl
    obtain ⟨-, hrest⟩ := List.append_inj h rfl
    refine List.forall_mem_cons.mpr ⟨⟨hsize, ?_⟩, ih hsizes hrest⟩
    intro hflags
    rw [← linearSize_of_isSome hsize hflags, ← wordBytes_injective hword, linearSize_eq, hspan,
      block.length_payload]

theorem readLinear_linearBytes_eq_ok_iff {values : List TaggedValue}
    (hsizes : ∀ value ∈ values, value.value.span.length < 0x8000) (offset rowLength : Nat) :
    readLinear offset rowLength (linearBytes values) = .ok values ↔
      ∀ value ∈ values, ¬LosesBytes value.value := by
  have hfits : (∀ value ∈ values, ¬LosesBytes value.value) ↔
      ∀ value ∈ values, FitsLinear value.value :=
    forall₂_congr fun value hvalue => (fitsLinear_iff (hsizes value hvalue)).symm
  rw [hfits]
  constructor
  · intro h
    obtain ⟨blocks, hblocks, rfl⟩ := readLinear_eq_ok_iff.mp h
    rw [List.forall_mem_map] at hsizes ⊢
    exact fitsLinear_of_blockBytes_eq hsizes hblocks
  · intro h
    exact readLinear_linearBytes h offset rowLength

/-! ## What comes back instead -/

section Losing

variable {value : TaggedValue} (h : value.value.span.length < 0x8000)
  (hloses : LosesBytes value.value)

include h hloses

/-- Flags with no byte for them. -/
theorem readLinear_append_of_none_kept (hnone : value.value.span.length - 0x2000 = 0) (rest : Bytes)
    (offset rowLength : Nat) :
    readLinear offset rowLength (linearBytes [value] ++ rest) =
      .error (.truncatedRow value.column.toNat (offset + 4) 0 rowLength) := by
  have hflags : hasFlags (linearWord value.value) = true := by
    rw [hasFlags_linearWord h, hloses.1]
  have hsize : linearSize (linearWord value.value) = 0 := by
    rw [linearSize_of_losesBytes h hloses, hnone]
  obtain ⟨a, b, hab, hcolumn⟩ := wordBytes_eq_pair value.column
  obtain ⟨c, d, hcd, hword⟩ := wordBytes_eq_pair (linearWord value.value)
  have hbytes : linearBytes [value] ++ rest = a :: b :: c :: d :: (value.value.span ++ rest) := by
    simp [linearBytes, hab, hcd]
  rw [hbytes, readLinear]
  simp only [hcolumn, hword, hsize, decide_eq_hasFlags, hflags]
  rw [if_pos (.inr ⟨trivial, trivial⟩)]

/-- Without the lost bytes the value is a block, and these stand behind it. -/
theorem exists_block_of_losesBytes {kept : Nat} (hkept : value.value.span.length - 0x2000 = kept)
    (hsome : kept ≠ 0) :
    ∃ block : LinearBlock,
      block.value = ⟨value.column, .ofSpan true (value.value.span.take kept)⟩ ∧
      block.bytes.length = 4 + kept ∧
      linearBytes [value] = block.bytes ++ value.value.span.drop kept := by
  have hflags : hasFlags (linearWord value.value) = true := by
    rw [hasFlags_linearWord h, hloses.1]
  have hlength : (value.value.span.take kept).length = kept :=
    List.length_take_of_le (hkept ▸ Nat.sub_le _ _)
  let block : LinearBlock :=
    { column := value.column
      word := linearWord value.value
      payload := value.value.span.take kept
      length_payload := by rw [hlength, ← linearSize_eq, linearSize_of_losesBytes h hloses, hkept]
      filled := fun _ => List.ne_nil_of_length_pos (by omega) }
  have hvalue : block.value = ⟨value.column, .ofSpan true block.payload⟩ := by
    rw [← hflags, block.ofSpan_payload]
    rfl
  refine ⟨block, hvalue, by rw [block.length_bytes, hlength], ?_⟩
  rw [LinearBlock.bytes, List.append_assoc, List.append_assoc, List.take_append_drop]
  exact List.flatMap_singleton _ _

/-- A value that loses bytes, and what stands behind it: the reader takes the bytes that are left,
and goes on with the lost ones. -/
theorem readLinear_append_of_losesBytes (rest : Bytes) (offset rowLength : Nat) :
    readLinear offset rowLength (linearBytes [value] ++ rest) =
      let kept := value.value.span.length - 0x2000
      if kept = 0 then .error (.truncatedRow value.column.toNat (offset + 4) 0 rowLength)
      else (readLinear (offset + 4 + kept) rowLength (value.value.span.drop kept ++ rest)).map
        (⟨value.column, .ofSpan true (value.value.span.take kept)⟩ :: ·) := by
  simp only []
  split
  case isTrue hnone => exact readLinear_append_of_none_kept h hloses hnone rest offset rowLength
  case isFalse hsome =>
    obtain ⟨block, hvalue, hlength, hbytes⟩ := exists_block_of_losesBytes h hloses rfl hsome
    rw [hbytes, List.append_assoc, readLinear_block_append, hvalue, hlength, Nat.add_assoc]

end Losing

/-- **Linear values come back exactly if no flagged one has a size with bit 13**, whatever other
sizes of fifteen bits there are. Otherwise the values in front of the first one that has come back,
that one without its last 0x2000 bytes, and what these bytes are read as. -/
theorem linear_values_come_back_iff {values : List TaggedValue}
    (hsizes : ∀ value ∈ values, value.value.span.length ≤ 0x7fff) (offset rowLength : Nat) :
    (readLinear offset rowLength (linearBytes values) = .ok values ↔
        ∀ value ∈ values, value.value.flags.isSome = true →
          value.value.span.length.testBit 13 = false) ∧
      ∀ front value rest, values = front ++ value :: rest →
        (∀ value ∈ front, ¬LosesBytes value.value) → LosesBytes value.value →
        readLinear offset rowLength (linearBytes values) =
          let position := offset + (linearBytes front).length + 4
          let kept := value.value.span.length - 0x2000
          if kept = 0 then .error (.truncatedRow value.column.toNat position 0 rowLength)
          else (readLinear (position + kept) rowLength
            (value.value.span.drop kept ++ linearBytes rest)).map
              (front ++ ⟨value.column, .ofSpan true (value.value.span.take kept)⟩ :: ·) := by
  have hsizes' : ∀ value ∈ values, value.value.span.length < 0x8000 :=
    fun value hvalue => Nat.lt_succ_of_le (hsizes value hvalue)
  constructor
  · rw [readLinear_linearBytes_eq_ok_iff hsizes' offset rowLength]
    simp only [LosesBytes, not_and, Bool.not_eq_true]
  · rintro front value rest rfl hfront hloses
    obtain ⟨hsizesFront, hbehind⟩ := List.forall_mem_append.mp hsizes'
    have hread := (readLinear_linearBytes_eq_ok_iff hsizesFront offset rowLength).mpr hfront
    obtain ⟨blocks, hblocks, hvalues⟩ := readLinear_eq_ok_iff.mp hread
    have hsplit : linearBytes (front ++ value :: rest) =
        blockBytes blocks ++ (linearBytes [value] ++ linearBytes rest) := by
      rw [hblocks]
      simp only [linearBytes, List.flatMap_append, List.flatMap_cons, List.flatMap_nil,
        List.append_nil]
    rw [hsplit, readLinear_append, hblocks, hvalues,
      readLinear_append_of_losesBytes (hbehind value List.mem_cons_self) hloses]
    simp only []
    split
    · rfl
    · cases readLinear _ rowLength _ <;> rfl

/-- A value of 0x2000 bytes without flags. -/
def plainLong : TaggedValue := ⟨256, List.replicate 0x2000 0x61, none⟩

/-- A value that takes 0x2000 bytes with its flags. -/
def flaggedLong : TaggedValue := ⟨257, List.replicate 0x1fff 0x62, some ⟨0⟩⟩

theorem length_span_plainLong : plainLong.value.span.length = 0x2000 := List.length_replicate

theorem length_span_flaggedLong : flaggedLong.value.span.length = 0x2000 :=
  congrArg (· + 1) List.length_replicate

/-- The same size is read with no flags and lost with them. -/
theorem linear_values_come_back_iff_sample :
    readLinear 4 0x4010 (linearBytes [plainLong]) = .ok [plainLong] ∧
      readLinear 4 0x4010 (linearBytes [plainLong, flaggedLong]) =
        .error (.truncatedRow 257 0x200c 0 0x4010) := by
  have hplain : ∀ value ∈ [plainLong], value.value.span.length ≤ 0x7fff :=
    List.forall_mem_singleton.mpr (by rw [length_span_plainLong]; decide)
  have hboth : ∀ value ∈ [plainLong, flaggedLong], value.value.span.length ≤ 0x7fff :=
    List.forall_mem_cons.mpr ⟨hplain _ List.mem_cons_self,
      List.forall_mem_singleton.mpr (by rw [length_span_flaggedLong]; decide)⟩
  have hbytes : (linearBytes [plainLong]).length = 0x2004 := by
    simp [linearBytes, length_span_plainLong]
  have hloses : LosesBytes flaggedLong.value :=
    ⟨rfl, by rw [length_span_flaggedLong]; decide⟩
  constructor
  · exact (linear_values_come_back_iff hplain 4 0x4010).1.mpr
      (List.forall_mem_singleton.mpr fun hflags => absurd hflags Bool.false_ne_true)
  · rw [(linear_values_come_back_iff hboth 4 0x4010).2 [plainLong] flaggedLong [] rfl
      (List.forall_mem_singleton.mpr fun h => absurd h.1 Bool.false_ne_true) hloses]
    simp only [length_span_flaggedLong, hbytes]
    rfl

end TaggedValue

end EseReader
