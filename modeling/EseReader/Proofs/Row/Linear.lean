import EseReader.Proofs.Row.Guarded
import EseReader.Proofs.Row.Image

/-!
# `EseReader/Proofs/Row/Linear.lean` — which regions are read as linear values

The linear layout has no table and no count. Where a value ends is said in front of it and nowhere
else, so one wrong size would shift all that follows. The grammar is short: a region is blocks, one
after the other, and a block is a column, a word and as many bytes as the word asks for
(`LinearBlock`).

At the front of a region that is not empty there is either a block or a defect, and the reader tells
which of the two it is from these bytes alone. So it takes off one block after the other, whatever
follows (`readLinear_append`), and stops where there is none: at the end of the region with all its
blocks, or **at the first defect with an error**. And there is only one way to divide a region, since
no block is the front of another one (`LinearBlock.eq_of_append_eq`).
-/

set_option autoImplicit false

namespace EseReader

namespace TaggedValue

/-! ## Blocks -/

/-- The top bit of a word says that the first byte of the value is its flags. -/
def hasFlags (word : UInt16) : Bool := word &&& 0x8000 != 0

/-- The number of bytes that a word asks for. -/
def blockSize (word : UInt16) : Nat :=
  if hasFlags word then (word &&& 0x5fff).toNat else word.toNat

/-- A value with what stands in front of it. -/
structure LinearBlock where
  column : UInt16
  word : UInt16
  payload : Bytes
  length_payload : payload.length = blockSize word
  /-- There is a byte for the flags. -/
  filled : hasFlags word = true → payload ≠ []

namespace LinearBlock

def bytes (block : LinearBlock) : Bytes :=
  wordBytes block.column ++ (wordBytes block.word ++ block.payload)

/-- What is stored in a block. -/
def value (block : LinearBlock) : TaggedValue where
  column := block.column
  value :=
    if hasFlags block.word then ⟨block.payload.tail, block.payload.head?.map ValueFlags.mk⟩
    else ⟨block.payload, none⟩

theorem ofSpan_payload (block : LinearBlock) :
    StoredValue.ofSpan (hasFlags block.word) block.payload = block.value.value := by
  rw [value]
  cases hflags : hasFlags block.word with
  | false => rfl
  | true =>
    obtain ⟨first, data, hpayload⟩ := List.exists_cons_of_ne_nil (block.filled hflags)
    rw [hpayload]
    rfl

/-- A flagged block has flags, and no other one has. -/
theorem isSome_flags_value_iff (block : LinearBlock) :
    block.value.value.flags.isSome = true ↔ hasFlags block.word = true := by
  rw [← ofSpan_payload, StoredValue.isSome_flags_ofSpan_iff, and_iff_right_iff_imp]
  exact block.filled

theorem length_bytes (block : LinearBlock) : block.bytes.length = 4 + block.payload.length := by
  rw [bytes, List.length_append, List.length_append, length_wordBytes, length_wordBytes,
    ← Nat.add_assoc]

/-- **No block is the front of another one**: where a block ends can be told from its own bytes. -/
theorem eq_of_append_eq {block other : LinearBlock} {rest later : Bytes}
    (h : block.bytes ++ rest = other.bytes ++ later) : block = other ∧ rest = later := by
  obtain ⟨column, word, payload, hlength, hfilled⟩ := block
  obtain ⟨column', word', payload', hlength', hfilled'⟩ := other
  simp only [bytes, List.append_assoc] at h
  obtain ⟨hcolumn, hbehind⟩ := List.append_inj h (by rw [length_wordBytes, length_wordBytes])
  obtain ⟨hword, hpayload⟩ := List.append_inj hbehind (by rw [length_wordBytes, length_wordBytes])
  obtain rfl := wordBytes_injective hcolumn
  obtain rfl := wordBytes_injective hword
  obtain ⟨rfl, rfl⟩ := List.append_inj hpayload (hlength.trans hlength'.symm)
  exact ⟨rfl, rfl⟩

end LinearBlock

/-- Blocks one after the other. -/
def blockBytes (blocks : List LinearBlock) : Bytes := blocks.flatMap LinearBlock.bytes

theorem blockBytes_cons (block : LinearBlock) (blocks : List LinearBlock) :
    blockBytes (block :: blocks) = block.bytes ++ blockBytes blocks := rfl

/-- **There is only one way to divide a region into blocks.** -/
theorem blockBytes_injective : Function.Injective blockBytes := by
  intro blocks
  induction blocks with
  | nil =>
    intro others h
    cases others with
    | nil => rfl
    | cons other others =>
      have hlength := congrArg List.length h
      rw [blockBytes_cons, List.length_append, LinearBlock.length_bytes] at hlength
      change 0 = _ at hlength
      omega
  | cons block blocks ih =>
    intro others h
    cases others with
    | nil =>
      have hlength := congrArg List.length h
      rw [blockBytes_cons, List.length_append, LinearBlock.length_bytes] at hlength
      change _ = 0 at hlength
      omega
    | cons other others =>
      obtain ⟨rfl, hrest⟩ := LinearBlock.eq_of_append_eq h
      rw [ih hrest]

/-! ## What the reader does at the front of a region -/

theorem decide_eq_hasFlags (word : UInt16) : decide (0x8000 ≤ word.toNat) = hasFlags word := by
  rw [Bool.eq_iff_iff, decide_eq_true_iff]
  exact (topBit_iff word).symm

theorem linearSize_eq (word : UInt16) : linearSize word = blockSize word := by
  rw [linearSize, blockSize, ← decide_eq_hasFlags]
  simp only [decide_eq_true_eq]

/-- A block is taken off, and reading goes on behind it. -/
theorem readLinear_block_append (block : LinearBlock) (rest : Bytes) (offset rowLength : Nat) :
    readLinear offset rowLength (block.bytes ++ rest) =
      (readLinear (offset + block.bytes.length) rowLength rest).map (block.value :: ·) := by
  obtain ⟨a, b, hab, hcolumn⟩ := wordBytes_eq_pair block.column
  obtain ⟨c, d, hcd, hword⟩ := wordBytes_eq_pair block.word
  have hbytes : block.bytes ++ rest = a :: b :: c :: d :: (block.payload ++ rest) := by
    simp [LinearBlock.bytes, hab, hcd]
  have hinside : ¬((block.payload ++ rest).length < blockSize block.word ∨
      (hasFlags block.word = true ∧ blockSize block.word = 0)) := by
    rw [← block.length_payload, List.length_append]
    rintro (hshort | ⟨hflags, hempty⟩)
    · omega
    · exact block.filled hflags (List.length_eq_zero_iff.mp hempty)
  rw [hbytes, readLinear]
  simp only [hcolumn, hword, linearSize_eq, decide_eq_hasFlags]
  rw [if_neg hinside, ← block.length_payload, List.take_left, List.drop_left, block.ofSpan_payload,
    block.length_bytes, Nat.add_assoc]
  rfl

/-- A block or a defect: either the front is read and what follows does not matter, or it is refused
and where the region stands does not matter. -/
theorem exists_block_or_defect {region : Bytes} (hregion : region ≠ []) :
    (∃ block : LinearBlock, ∃ rest, block.bytes ++ rest = region) ∨
      ∃ column position size, ∀ offset rowLength, readLinear offset rowLength region =
        .error (.truncatedRow column (offset + position) size rowLength) := by
  by_cases hshort : region.length < 4
  · right
    exact ⟨256, 0, 4, Guarded.readLinear_short (List.length_pos_iff.mpr hregion) hshort⟩
  match region, Nat.le_of_not_lt hshort with
  | a :: b :: c :: d :: rest, _ =>
    obtain ⟨column, hcolumn⟩ : ∃ column, UInt16.ofNat (littleEndian [a, b]) = column := ⟨_, rfl⟩
    obtain ⟨word, hword⟩ : ∃ word, UInt16.ofNat (littleEndian [c, d]) = word := ⟨_, rfl⟩
    by_cases hdefect : rest.length < blockSize word ∨ (hasFlags word = true ∧ blockSize word = 0)
    · right
      refine ⟨column.toNat, 4, blockSize word, fun offset rowLength => ?_⟩
      rw [readLinear]
      simp only [hcolumn, hword, linearSize_eq, decide_eq_hasFlags]
      rw [if_pos hdefect]
    · left
      obtain ⟨hinside, hfilled⟩ := not_or.mp hdefect
      have hlength := List.length_take_of_le (Nat.le_of_not_lt hinside)
      refine ⟨⟨column, word, rest.take (blockSize word), hlength, ?_⟩, rest.drop (blockSize word), ?_⟩
      · intro hflags hempty
        rw [hempty] at hlength
        exact hfilled ⟨hflags, hlength.symm⟩
      · have ha : wordBytes column = [a, b] := by rw [← hcolumn, wordBytes_ofNat_pair]
        have hc : wordBytes word = [c, d] := by rw [← hword, wordBytes_ofNat_pair]
        rw [LinearBlock.bytes, ha, hc, List.append_assoc, List.append_assoc, List.take_append_drop]
        rfl

/-! ## What the reader does with a region -/

theorem readLinear_append (blocks : List LinearBlock) (rest : Bytes) (offset rowLength : Nat) :
    readLinear offset rowLength (blockBytes blocks ++ rest) =
      (readLinear (offset + (blockBytes blocks).length) rowLength rest).map
        (blocks.map LinearBlock.value ++ ·) := by
  induction blocks generalizing offset with
  | nil => exact (congrFun Except.map_id _).symm
  | cons block blocks ih =>
    rw [blockBytes_cons, List.append_assoc, readLinear_block_append, ih, List.length_append,
      Nat.add_assoc]
    cases readLinear _ rowLength rest <;> rfl

/-- Blocks are taken off until there is no block in front. -/
theorem exists_blocks_append (region : Bytes) :
    ∃ blocks rest, blockBytes blocks ++ rest = region ∧
      (rest ≠ [] → ∃ column position size, ∀ offset rowLength, readLinear offset rowLength rest =
        .error (.truncatedRow column (offset + position) size rowLength)) := by
  -- A block takes at least four bytes, so less is left behind it.
  induction hlength : region.length using Nat.strongRecOn generalizing region with
  | _ length ih =>
    by_cases hregion : region = []
    · exact ⟨[], [], hregion.symm, fun h => absurd rfl h⟩
    rcases exists_block_or_defect hregion with ⟨block, rest, rfl⟩ | hdefect
    · rw [List.length_append, block.length_bytes] at hlength
      obtain ⟨blocks, last, rfl, hlast⟩ := ih rest.length (by omega) rest rfl
      refine ⟨block :: blocks, last, ?_, hlast⟩
      rw [blockBytes_cons, List.append_assoc]
    · exact ⟨[], region, rfl, fun _ => hdefect⟩

theorem readLinear_blockBytes (blocks : List LinearBlock) (offset rowLength : Nat) :
    readLinear offset rowLength (blockBytes blocks) = .ok (blocks.map LinearBlock.value) := by
  have h := readLinear_append blocks [] offset rowLength
  rwa [List.append_nil, readLinear, Except.map, List.append_nil] at h

theorem readLinear_eq_ok_iff {region : Bytes} {offset rowLength : Nat} {values : List TaggedValue} :
    readLinear offset rowLength region = .ok values ↔
      ∃ blocks, blockBytes blocks = region ∧ blocks.map LinearBlock.value = values := by
  constructor
  · intro h
    obtain ⟨blocks, rest, rfl, hdefect⟩ := exists_blocks_append region
    by_cases hrest : rest = []
    · subst hrest
      rw [List.append_nil, readLinear_blockBytes] at h
      exact ⟨blocks, (List.append_nil _).symm, Except.ok.inj h⟩
    · obtain ⟨column, position, size, herror⟩ := hdefect hrest
      rw [readLinear_append, herror] at h
      cases h
  · rintro ⟨blocks, rfl, rfl⟩
    exact readLinear_blockBytes blocks offset rowLength

theorem exists_error_of_not_blocks {region : Bytes} (h : ∀ blocks, blockBytes blocks ≠ region) :
    ∃ column position size, ∀ offset rowLength (front : List LinearBlock),
      readLinear offset rowLength (blockBytes front ++ region) =
        .error (.truncatedRow column (offset + (blockBytes front).length + position) size
          rowLength) := by
  obtain ⟨blocks, rest, rfl, hdefect⟩ := exists_blocks_append region
  have hrest : rest ≠ [] := by
    rintro rfl
    exact h blocks (List.append_nil _).symm
  obtain ⟨column, position, size, herror⟩ := hdefect hrest
  refine ⟨column, (blockBytes blocks).length + position, size, fun offset rowLength front => ?_⟩
  rw [readLinear_append, readLinear_append, herror, Nat.add_assoc _ _ position]
  rfl

/-- **A region is read exactly if it is blocks one after the other**, and then the values are what is
stored in them. There is only one way to divide a region. A value has its payload as its span, and it
has flags exactly if the word of its block says so. A region that is no sequence of blocks is refused
as a row that is too short, and wherever it stands and whatever blocks are in front of it, the error
is the same but for the position, which moves with them. -/
theorem readLinear_reads_blocks (region : Bytes) :
    (∀ offset rowLength values, readLinear offset rowLength region = .ok values ↔
        ∃ blocks, blockBytes blocks = region ∧ blocks.map LinearBlock.value = values) ∧
      (∀ blocks others, blockBytes blocks = region → blockBytes others = region →
        blocks = others) ∧
      (∀ block : LinearBlock, block.value.value.span = block.payload ∧
        (block.value.value.flags.isSome = true ↔ hasFlags block.word = true)) ∧
      ((∀ blocks, blockBytes blocks ≠ region) →
        ∃ column position size, ∀ offset rowLength (front : List LinearBlock),
          readLinear offset rowLength (blockBytes front ++ region) =
            .error (.truncatedRow column (offset + (blockBytes front).length + position) size
              rowLength)) := by
  refine ⟨fun _ _ _ => readLinear_eq_ok_iff, ?_, ?_, exists_error_of_not_blocks⟩
  · intro blocks others hblocks hothers
    exact blockBytes_injective (hblocks.trans hothers.symm)
  · intro block
    refine ⟨?_, block.isSome_flags_value_iff⟩
    rw [← block.ofSpan_payload, StoredValue.span_ofSpan]

/-- A flagged block whose word has bit 13, which is not part of the size, and an empty block. -/
def twoBlocks : List LinearBlock :=
  [⟨256, 0xa002, [4, 0x61], rfl, by decide⟩, ⟨257, 0, [], rfl, by decide⟩]

/-- Behind them a block that calls for flags and has no byte for them is refused. -/
theorem readLinear_reads_blocks_sample :
    blockBytes twoBlocks = [0, 1, 2, 0xa0, 4, 0x61, 1, 1, 0, 0] ∧
      readLinear 9 33 (blockBytes twoBlocks) =
        .ok [⟨256, [0x61], some ⟨4⟩⟩, ⟨257, [], none⟩] ∧
      readLinear 9 33 (blockBytes twoBlocks ++ [2, 1, 0, 0x80]) =
        .error (.truncatedRow 258 23 0 33) := by
  have hdefect : ∀ offset rowLength, readLinear offset rowLength [2, 1, 0, 0x80] =
      .error (.truncatedRow 258 (offset + 4) 0 rowLength) := by
    intro offset rowLength
    rw [readLinear]
    rfl
  obtain ⟨hvalues, -, -, -⟩ := readLinear_reads_blocks (blockBytes twoBlocks)
  obtain ⟨hnone, -, -, herror⟩ := readLinear_reads_blocks [2, 1, 0, 0x80]
  refine ⟨rfl, (hvalues 9 33 _).mpr ⟨twoBlocks, rfl, rfl⟩, ?_⟩
  obtain ⟨column, position, size, hrefused⟩ := herror fun blocks hblocks => by
    have hread := (hnone 0 0 _).mpr ⟨blocks, hblocks, rfl⟩
    rw [hdefect] at hread
    cases hread
  -- With nothing in front this is the error of the defect alone.
  have halone := (hrefused 0 0 []).symm.trans (hdefect 0 0)
  obtain ⟨rfl, hposition, rfl, -⟩ := Error.truncatedRow.inj (Except.error.inj halone)
  obtain rfl : position = 4 := (Nat.zero_add position).symm.trans hposition
  exact hrefused 9 33 twoBlocks

end TaggedValue

end EseReader
