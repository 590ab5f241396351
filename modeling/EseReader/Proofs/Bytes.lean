import EseReader.Bytes
import Mathlib.Algebra.Ring.Nat
import Mathlib.Data.Nat.Bitwise

/-!
# `EseReader/Proofs/Bytes.lean` — what was written, and where it stands

A number and the bytes it is written in determine each other: the readers undo the writers on every
number that fits, and the writers undo the readers on every byte string.

A reader knows where a field starts; a writer knows what it has put behind it. `Bytes.RestAt` is
where the two meet: from `offset` on, nothing but `rest` stands in the data. Reading a field off the
front of the rest moves the offset behind the field (`RestAt.append`), so an induction on what was
written follows a reader from field to field.
-/

set_option autoImplicit false

namespace EseReader

/-! ## Numbers and their bytes -/

theorem littleEndian_append (front rest : Bytes) :
    littleEndian (front ++ rest) = littleEndian front + 256 ^ front.length * littleEndian rest := by
  induction front with
  | nil => simp [littleEndian]
  | cons byte front ih =>
    rw [List.cons_append, littleEndian, littleEndian, ih, List.length_cons, Nat.pow_succ,
      Nat.mul_add, Nat.mul_comm _ 256, Nat.mul_assoc, Nat.add_assoc]

theorem leBytes_littleEndian (bytes : Bytes) :
    leBytes bytes.length (littleEndian bytes) = bytes := by
  induction bytes with
  | nil => rfl
  | cons byte bytes ih =>
    have hbyte := byte.toNat_lt
    have hfirst : UInt8.ofNat (byte.toNat + 256 * littleEndian bytes) = byte := by
      rw [← UInt8.toNat_inj, UInt8.toNat_ofNat']
      omega
    have hrest : (byte.toNat + 256 * littleEndian bytes) / 256 = littleEndian bytes := by omega
    rw [List.length_cons, littleEndian, leBytes, hfirst, hrest, ih]

theorem bigEndian_cons (byte : UInt8) (rest : Bytes) :
    bigEndian (byte :: rest) = byte.toNat * 256 ^ rest.length + bigEndian rest := by
  rw [bigEndian, bigEndian, List.reverse_cons, littleEndian_append, List.length_reverse]
  simp only [littleEndian, Nat.mul_zero, Nat.add_zero]
  rw [Nat.mul_comm byte.toNat, Nat.add_comm]

theorem bigEndian_lt (bytes : Bytes) : bigEndian bytes < 256 ^ bytes.length := by
  have h := littleEndian_lt bytes.reverse
  rwa [List.length_reverse] at h

@[simp] theorem length_beBytes (width n : Nat) : (beBytes width n).length = width := by
  rw [beBytes, List.length_reverse, length_leBytes]

theorem bigEndian_beBytes {width n : Nat} (h : n < 256 ^ width) : bigEndian (beBytes width n) = n := by
  rw [bigEndian, beBytes, List.reverse_reverse, littleEndian_leBytes width n h]

theorem beBytes_bigEndian (bytes : Bytes) : beBytes bytes.length (bigEndian bytes) = bytes := by
  have h := leBytes_littleEndian bytes.reverse
  rw [List.length_reverse] at h
  rw [beBytes, bigEndian, h, List.reverse_reverse]

theorem toNat_ofNat_pair (low high : UInt8) :
    (UInt16.ofNat (littleEndian [low, high])).toNat = littleEndian [low, high] := by
  have hlow := low.toNat_lt
  have hhigh := high.toNat_lt
  refine UInt16.toNat_ofNat_of_lt' ?_
  simp only [littleEndian, UInt16.size]
  omega

/-- The two bytes of a word. -/
def wordBytes (word : UInt16) : Bytes := leBytes 2 word.toNat

theorem ofNat_littleEndian_wordBytes (word : UInt16) :
    UInt16.ofNat (littleEndian (wordBytes word)) = word := by
  rw [wordBytes, littleEndian_leBytes 2 word.toNat word.toNat_lt]
  exact UInt16.ofNat_toNat

theorem wordBytes_eq_pair (word : UInt16) :
    ∃ low high, wordBytes word = [low, high] ∧ UInt16.ofNat (littleEndian [low, high]) = word :=
  ⟨_, _, rfl, ofNat_littleEndian_wordBytes word⟩

theorem wordBytes_ofNat_pair (low high : UInt8) :
    wordBytes (UInt16.ofNat (littleEndian [low, high])) = [low, high] := by
  rw [wordBytes, toNat_ofNat_pair]
  exact leBytes_littleEndian [low, high]

theorem wordBytes_injective : Function.Injective wordBytes := by
  intro word other h
  rw [← ofNat_littleEndian_wordBytes word, h, ofNat_littleEndian_wordBytes]

theorem leBytes_eq_wordBytes {n : Nat} (h : n < 0x10000) : leBytes 2 n = wordBytes (.ofNat n) := by
  rw [wordBytes, UInt16.toNat_ofNat_of_lt' h]

@[simp] theorem length_wordBytes (word : UInt16) : (wordBytes word).length = 2 :=
  length_leBytes 2 word.toNat

/-- The bits of a word that are kept by a mask of low bits. -/
theorem toNat_and_low (word : UInt16) {mask : UInt16} (bits : Nat)
    (h : mask.toNat = 2 ^ bits - 1) : (word &&& mask).toNat = word.toNat % 2 ^ bits := by
  rw [UInt16.toNat_and, h, Nat.and_two_pow_sub_one_eq_mod]

theorem topBit_iff (word : UInt16) : (word &&& 0x8000 != 0) = true ↔ 0x8000 ≤ word.toNat := by
  have hbit : (word &&& 0x8000).toNat = (word.toNat.testBit 15).toNat * 2 ^ 15 := by
    rw [UInt16.toNat_and]
    exact Nat.and_two_pow _ 15
  have htest : word.toNat.testBit 15 = decide (0x8000 ≤ word.toNat) := by
    have hlt := word.toNat_lt
    rw [Nat.testBit_eq_decide_div_mod_eq, decide_eq_decide]
    omega
  rw [bne_iff_ne, Ne, ← UInt16.toNat_inj, hbit, htest]
  by_cases hword : 0x8000 ≤ word.toNat
  · exact iff_of_true (by rw [decide_eq_true hword]; decide) hword
  · exact iff_of_false (by rw [decide_eq_false hword]; decide) hword

theorem length_flatMap_of_length {α : Type} {f : α → Bytes} {size : Nat}
    (h : ∀ a, (f a).length = size) (items : List α) :
    (items.flatMap f).length = size * items.length := by
  induction items with
  | nil => rfl
  | cons item items ih =>
    rw [List.flatMap_cons, List.length_append, h, ih, List.length_cons, Nat.mul_succ, Nat.add_comm]

namespace Bytes

/-! ## What stands from an offset on -/

/-- From `offset` on, `data` holds `rest`. -/
def RestAt (data : Bytes) (offset : Nat) (rest : Bytes) : Prop :=
  offset ≤ data.length ∧ data.drop offset = rest

variable {data part rest : Bytes} {offset : Nat}

theorem restAt_append (front rest : Bytes) : RestAt (front ++ rest) front.length rest :=
  ⟨by rw [List.length_append]; omega, List.drop_left⟩

/-- The last part of the data, counted from its end. -/
theorem restAt_end (front rest : Bytes) :
    RestAt (front ++ rest) ((front ++ rest).length - rest.length) rest := by
  rw [List.length_append, Nat.add_sub_cancel]
  exact restAt_append front rest

theorem RestAt.length_eq (h : data.RestAt offset rest) :
    data.length = offset + rest.length := by
  have hlength := congrArg List.length h.2
  rw [List.length_drop] at hlength
  have hle := h.1
  omega

/-- Behind the first part of the rest stands the other. -/
theorem RestAt.append (h : data.RestAt offset (part ++ rest)) :
    data.RestAt (offset + part.length) rest := by
  have hlength := h.length_eq
  rw [List.length_append] at hlength
  refine ⟨by omega, ?_⟩
  rw [← List.drop_drop, h.2, List.drop_left]

theorem RestAt.field (h : data.RestAt offset (part ++ rest)) :
    data.field offset part.length = part := by
  rw [Bytes.field, h.2, List.take_left]

theorem RestAt.u16At {word : UInt16} (h : data.RestAt offset (wordBytes word ++ rest)) :
    data.u16At offset = word := by
  have hfield : data.field offset 2 = wordBytes word := h.field
  rw [Bytes.u16At, hfield, ofNat_littleEndian_wordBytes]

theorem RestAt.slice (h : data.RestAt offset (part ++ rest)) (what : String) :
    data.slice offset part.length what = .ok part := by
  have hlength := h.length_eq
  rw [List.length_append] at hlength
  exact slice_eq_ok_iff.mpr ⟨by omega, h.field⟩

theorem RestAt.u16At_leBytes {n : Nat} (h : data.RestAt offset (leBytes 2 n ++ rest))
    (hn : n < 0x10000) : (data.u16At offset).toNat = n := by
  rw [leBytes_eq_wordBytes hn] at h
  rw [h.u16At, UInt16.toNat_ofNat_of_lt' hn]

theorem RestAt.u32At {n : UInt32} (h : data.RestAt offset (leBytes 4 n.toNat ++ rest)) :
    data.u32At offset = n := by
  have hfield : data.field offset 4 = leBytes 4 n.toNat := by
    simpa using h.field
  rw [Bytes.u32At, hfield, littleEndian_leBytes 4 n.toNat n.toNat_lt, UInt32.ofNat_toNat]

/-! ## Fields of parts -/

theorem u16At_cons (low high : UInt8) (rest : Bytes) :
    (Bytes.u16At (low :: high :: rest) 0).toNat = low.toNat + 256 * high.toNat := by
  have hfield : Bytes.field (low :: high :: rest) 0 2 = [low, high] := rfl
  rw [Bytes.u16At, hfield, toNat_ofNat_pair]
  simp only [littleEndian, Nat.mul_zero, Nat.add_zero]

theorem readU8_cons (byte : UInt8) (rest : Bytes) (what : String) :
    Bytes.readU8 (byte :: rest) 0 what = .ok byte := by
  have hslice : Bytes.slice (byte :: rest) 0 1 what = .ok [byte] :=
    slice_eq_ok_iff.mpr ⟨by rw [List.length_cons]; omega, rfl⟩
  rw [Bytes.readU8, hslice]
  simp [Except.map, littleEndian]

theorem readU16_eq_ok_iff {word : UInt16} {what : String} :
    data.readU16 offset what = .ok word ↔ offset + 2 ≤ data.length ∧ data.u16At offset = word := by
  rw [Bytes.readU16, map_eq_ok_iff]
  constructor
  · rintro ⟨bytes, hslice, rfl⟩
    obtain ⟨hinside, rfl⟩ := slice_eq_ok_iff.mp hslice
    exact ⟨hinside, rfl⟩
  · rintro ⟨hinside, rfl⟩
    exact ⟨_, slice_eq_ok_iff.mpr ⟨hinside, rfl⟩, rfl⟩

theorem field_drop (data : Bytes) (skipped offset size : Nat) :
    Bytes.field (data.drop skipped) offset size = data.field (skipped + offset) size := by
  rw [Bytes.field, Bytes.field, List.drop_drop]

theorem field_isInfix (data : Bytes) (offset size : Nat) : data.field offset size <:+: data :=
  (List.take_prefix size _).isInfix.trans (List.drop_suffix offset data).isInfix

end Bytes

end EseReader
