import EseReader.Checksum
import EseReader.Proofs.Bytes

/-!
# `EseReader/Proofs/Checksum/Words.lean` — one word decides the exclusive or

The checksum is an exclusive or of whole words, so each of them can be got back from the checksum
and the others. That is all there is to what it catches: of two strings that differ in **one word
and nothing else** (`OneWordApart`) the checksums differ, whatever the seed
(`OneWordApart.xor32_ne`). And it tells seeds apart, whatever the bytes (`xor32_seed_injective`).

Words are counted from the start of what is covered. Two strings one word apart stay so if both are
cut where a word begins, as long as the word is not cut off (`OneWordApart.drop`), and every field
that the word is no part of is the same in both (`OneWordApart.field_eq`).
-/

set_option autoImplicit false

namespace EseReader

/-! ## Seeds and words -/

/-- The seed counts like one more word. -/
theorem xor32_xor (data : Bytes) (seed other : UInt32) :
    xor32 data (seed ^^^ other) = xor32 data seed ^^^ other := by
  induction data, seed using xor32.induct with
  | case1 a b c d rest seed ih =>
    rw [xor32, xor32, ← ih, UInt32.xor_assoc, UInt32.xor_comm other, ← UInt32.xor_assoc]
  | case2 data seed hend => rw [xor32, xor32] <;> exact hend

theorem xor32_seed_injective (data : Bytes) : Function.Injective (xor32 data) := by
  intro seed other h
  have hzero : ∀ seed, xor32 data seed = xor32 data 0 ^^^ seed := by
    intro seed
    rw [← xor32_xor, UInt32.zero_xor]
  rw [hzero seed, hzero other] at h
  exact (UInt32.xor_right_inj _).mp h

theorem xor32_append {front : Bytes} (h : front.length % 4 = 0) (rest : Bytes) (seed : UInt32) :
    xor32 (front ++ rest) seed = xor32 rest (xor32 front seed) := by
  induction front, seed using xor32.induct with
  | case1 a b c d front seed ih =>
    simp only [List.length_cons] at h
    simp only [List.cons_append]
    rw [xor32, xor32, ih (by omega)]
  | case2 front seed hend =>
    -- Less than four bytes and still whole words: there are none.
    match front with
    | [] => rfl
    | [_] | [_, _] | [_, _, _] => simp at h
    | a :: b :: c :: d :: front => exact (hend a b c d front rfl).elim

theorem xor32_word {word : Bytes} (h : word.length = 4) (seed : UInt32) :
    xor32 word seed = seed ^^^ UInt32.ofNat (littleEndian word) := by
  match word with
  | [_, _, _, _] => rfl

theorem eq_of_ofNat_littleEndian_eq {word other : Bytes} (hword : word.length = 4)
    (hother : other.length = 4)
    (h : UInt32.ofNat (littleEndian word) = UInt32.ofNat (littleEndian other)) : word = other := by
  have hlt := littleEndian_lt word
  have hlt' := littleEndian_lt other
  rw [hword] at hlt
  rw [hother] at hlt'
  have hnumber := congrArg UInt32.toNat h
  rw [UInt32.toNat_ofNat_of_lt' hlt, UInt32.toNat_ofNat_of_lt' hlt'] at hnumber
  rw [← leBytes_littleEndian word, ← leBytes_littleEndian other, hword, hother, hnumber]

/-! ## Strings that differ in one word -/

/-- Two strings of one length that differ in the word at `offset`, and nowhere else. -/
structure OneWordApart (data other : Bytes) (offset : Nat) : Prop where
  aligned : offset % 4 = 0
  inside : offset + 4 ≤ data.length
  length : other.length = data.length
  front : other.take offset = data.take offset
  behind : other.drop (offset + 4) = data.drop (offset + 4)
  word : other.field offset 4 ≠ data.field offset 4

instance (data other : Bytes) (offset : Nat) : Decidable (OneWordApart data other offset) :=
  decidable_of_iff
    (offset % 4 = 0 ∧ offset + 4 ≤ data.length ∧ other.length = data.length ∧
      other.take offset = data.take offset ∧ other.drop (offset + 4) = data.drop (offset + 4) ∧
      other.field offset 4 ≠ data.field offset 4)
    ⟨fun ⟨h₁, h₂, h₃, h₄, h₅, h₆⟩ => ⟨h₁, h₂, h₃, h₄, h₅, h₆⟩,
      fun h => ⟨h.aligned, h.inside, h.length, h.front, h.behind, h.word⟩⟩

namespace Bytes

theorem take_field_drop (data : Bytes) (offset size : Nat) :
    data = data.take offset ++ (data.field offset size ++ data.drop (offset + size)) := by
  rw [field, ← List.drop_drop, List.take_append_drop, List.take_append_drop]

theorem field_take {offset size stop : Nat} (data : Bytes) (h : offset + size ≤ stop) :
    field (data.take stop) offset size = data.field offset size := by
  rw [field, field, List.drop_take, List.take_take, Nat.min_eq_left (by omega)]

end Bytes

namespace OneWordApart

variable {data other : Bytes} {offset : Nat}

theorem field_eq (h : OneWordApart data other offset) {start size : Nat}
    (hapart : start + size ≤ offset ∨ offset + 4 ≤ start) :
    other.field start size = data.field start size := by
  rcases hapart with hfront | hbehind
  · rw [← Bytes.field_take other hfront, h.front, Bytes.field_take data hfront]
  · obtain ⟨skipped, rfl⟩ := Nat.exists_eq_add_of_le hbehind
    rw [← Bytes.field_drop, h.behind, Bytes.field_drop]

theorem u32At_eq (h : OneWordApart data other offset) {start : Nat}
    (hapart : start + 4 ≤ offset ∨ offset + 4 ≤ start) : other.u32At start = data.u32At start := by
  rw [Bytes.u32At, Bytes.u32At, h.field_eq hapart]

theorem u32At_ne (h : OneWordApart data other offset) : other.u32At offset ≠ data.u32At offset := by
  intro hsame
  have hinside := h.inside
  have hinside' : offset + 4 ≤ other.length := by rw [h.length]; exact hinside
  exact h.word (eq_of_ofNat_littleEndian_eq (Bytes.length_field hinside')
    (Bytes.length_field hinside) hsame)

/-- Cut off in front of the word, in whole words. -/
theorem drop (h : OneWordApart data other offset) {start : Nat} (hstart : start % 4 = 0)
    (hle : start ≤ offset) : OneWordApart (data.drop start) (other.drop start) (offset - start) := by
  have haligned := h.aligned
  have hinside := h.inside
  have hword : start + (offset - start) = offset := Nat.add_sub_cancel' hle
  have hbehind : start + (offset - start + 4) = offset + 4 := by omega
  constructor
  · omega
  · rw [List.length_drop]
    omega
  · rw [List.length_drop, List.length_drop, h.length]
  · rw [List.take_drop, List.take_drop, hword, h.front]
  · rw [List.drop_drop, List.drop_drop, hbehind, h.behind]
  · rw [Bytes.field_drop, Bytes.field_drop, hword]
    exact h.word

/-- Cut off behind the word. -/
theorem take (h : OneWordApart data other offset) {stop : Nat} (hle : offset + 4 ≤ stop) :
    OneWordApart (data.take stop) (other.take stop) offset := by
  have hinside := h.inside
  constructor
  · exact h.aligned
  · rw [List.length_take]
    omega
  · rw [List.length_take, List.length_take, h.length]
  · rw [List.take_take, List.take_take, Nat.min_eq_left (by omega), h.front]
  · rw [List.drop_take, List.drop_take, h.behind]
  · rw [Bytes.field_take _ hle, Bytes.field_take _ hle]
    exact h.word

/-- **The checksums of strings one word apart differ.** -/
theorem xor32_ne (h : OneWordApart data other offset) (seed : UInt32) :
    xor32 other seed ≠ xor32 data seed := by
  have hinside := h.inside
  have hsplit : ∀ string : Bytes, string.length = data.length →
      xor32 string seed =
        xor32 (string.drop (offset + 4))
          (xor32 (string.take offset) seed ^^^ string.u32At offset) := by
    intro string hlength
    have hfront : (string.take offset).length % 4 = 0 := by
      rw [List.length_take_of_le (by omega)]
      exact h.aligned
    have hword : (string.field offset 4).length = 4 := Bytes.length_field (by omega)
    conv_lhs => rw [Bytes.take_field_drop string offset 4]
    rw [xor32_append hfront, xor32_append (by rw [hword]), xor32_word hword]
    rfl
  rw [hsplit other h.length, hsplit data rfl, h.front, h.behind]
  intro hsame
  exact h.u32At_ne ((UInt32.xor_right_inj _).mp (xor32_seed_injective _ hsame))

end OneWordApart

end EseReader
