import EseReader.Proofs.Text.Ascii
import Mathlib.Tactic.IntervalCases

/-!
# `EseReader/Proofs/Text/RoundTrip.lean` — reading text undoes writing it

The readers of UTF-8 and UTF-16 make a text of any bytes, whether somebody wrote a text there or
not. Here are the writers. **What a writer has written, its reader reads**, and no character is lost
or replaced on the way (`Utf8.decode_encode_append`, `Utf16.decode?_encode`): a sequence of UTF-8 has
digits of six bits behind its first byte, and the ranges that a reader asks of the second byte are
those in which the digits of a character lie; a character that two units are needed for is put
together from its halves.

A text is often padded with zeros. They are characters NUL at its end, which no reader keeps.
-/

set_option autoImplicit false

namespace EseReader

/-! ## UTF-8 -/

namespace Utf8

/-- The bytes of a text. -/
def encode (text : List Char) : Bytes := text.flatMap String.utf8EncodeChar

/-- A byte with a digit of six bits is read if it lies in the range. -/
theorem finish_digit {more n : Nat} {low high : UInt8} (hlow : low.toNat ≤ n % 64 + 128)
    (hhigh : n % 64 + 128 ≤ high.toNat) (bits : Nat) (rest : Bytes) :
    finish (more + 1) low high bits (UInt8.ofNat (n % 64 + 128) :: rest) =
      finish more 0x80 0xbf (bits * 64 + n % 64) rest := by
  have hdigit : (UInt8.ofNat (n % 64 + 128)).toNat = n % 64 + 128 := by
    rw [UInt8.toNat_ofNat']
    omega
  have hrange : low ≤ UInt8.ofNat (n % 64 + 128) ∧ UInt8.ofNat (n % 64 + 128) ≤ high := by
    rw [UInt8.le_iff_toNat_le, UInt8.le_iff_toNat_le, hdigit]
    exact ⟨hlow, hhigh⟩
  have hbits : (n % 64 + 128) % 64 = n % 64 := by omega
  rw [finish, if_pos hrange, hdigit, hbits]

theorem finish_lastDigit (n bits : Nat) (rest : Bytes) :
    finish 1 0x80 0xbf bits (UInt8.ofNat (n % 64 + 128) :: rest) =
      (Char.ofNat (bits * 64 + n % 64), rest) := by
  have hlt : n % 64 < 64 := Nat.mod_lt n (by decide)
  have hhigh : n % 64 + 128 ≤ (0xbf : UInt8).toNat := by
    show n % 64 + 128 ≤ 191
    omega
  rw [finish_digit (Nat.le_add_left _ _) hhigh]
  rfl

/-! The first bytes of characters of two, three and four bytes. -/

theorem lead?_two {n : Nat} (h : 2 ≤ n ∧ n < 32) :
    lead? (UInt8.ofNat (n + 192)) = some ⟨1, 0x80, 0xbf, n⟩ := by
  obtain ⟨hlow, hhigh⟩ := h
  interval_cases n <;> rfl

/-- Overlong forms and surrogates are left out. -/
theorem lead?_three {n : Nat} (h : n < 16) :
    lead? (UInt8.ofNat (n + 224)) =
      some ⟨2, if n = 0 then 0xa0 else 0x80, if n = 13 then 0x9f else 0xbf, n⟩ := by
  interval_cases n <;> rfl

/-- Overlong forms are left out, and what lies behind the last character. -/
theorem lead?_four {n : Nat} (h : n < 5) :
    lead? (UInt8.ofNat (n + 240)) =
      some ⟨3, if n = 0 then 0x90 else 0x80, if n = 4 then 0x8f else 0xbf, n⟩ := by
  interval_cases n <;> rfl

theorem next_two {n : Nat} (h : 0x80 ≤ n ∧ n < 0x800) (rest : Bytes) :
    next (UInt8.ofNat (n / 64 % 32 + 192)) (UInt8.ofNat (n % 64 + 128) :: rest) =
      (Char.ofNat n, rest) := by
  have hsplit : n / 64 % 32 * 64 + n % 64 = n := by omega
  rw [next, lead?_two (by omega)]
  simp only []
  rw [finish_lastDigit, hsplit]

theorem next_three {n : Nat} (h : 0x800 ≤ n ∧ n < 0x10000) (hvalid : n < 0xd800 ∨ 0xdfff < n)
    (rest : Bytes) :
    next (UInt8.ofNat (n / 4096 % 16 + 224))
        (UInt8.ofNat (n / 64 % 64 + 128) :: UInt8.ofNat (n % 64 + 128) :: rest) =
      (Char.ofNat n, rest) := by
  have hsplit : (n / 4096 % 16 * 64 + n / 64 % 64) * 64 + n % 64 = n := by omega
  have hlow : (if n / 4096 % 16 = 0 then (0xa0 : UInt8) else 0x80).toNat ≤ n / 64 % 64 + 128 := by
    split
    · show 160 ≤ _
      omega
    · exact Nat.le_add_left _ _
  have hhigh : n / 64 % 64 + 128 ≤ (if n / 4096 % 16 = 13 then (0x9f : UInt8) else 0xbf).toNat := by
    split
    · show _ ≤ 159
      omega
    · show _ ≤ 191
      omega
  rw [next, lead?_three (Nat.mod_lt _ (by decide))]
  simp only []
  rw [finish_digit hlow hhigh, finish_lastDigit, hsplit]

theorem next_four {n : Nat} (h : 0x10000 ≤ n ∧ n < 0x110000) (rest : Bytes) :
    next (UInt8.ofNat (n / 262144 % 8 + 240))
        (UInt8.ofNat (n / 4096 % 64 + 128) :: UInt8.ofNat (n / 64 % 64 + 128) ::
          UInt8.ofNat (n % 64 + 128) :: rest) =
      (Char.ofNat n, rest) := by
  have hsplit :
      ((n / 262144 % 8 * 64 + n / 4096 % 64) * 64 + n / 64 % 64) * 64 + n % 64 = n := by omega
  have hlow : (if n / 262144 % 8 = 0 then (0x90 : UInt8) else 0x80).toNat ≤
      n / 4096 % 64 + 128 := by
    split
    · show 144 ≤ _
      omega
    · exact Nat.le_add_left _ _
  have hhigh : n / 4096 % 64 + 128 ≤
      (if n / 262144 % 8 = 4 then (0x8f : UInt8) else 0xbf).toNat := by
    split
    · show _ ≤ 143
      omega
    · show _ ≤ 191
      omega
  have hmiddle : n / 64 % 64 + 128 ≤ (0xbf : UInt8).toNat := by
    show _ ≤ 191
    omega
  rw [next, lead?_four (by omega)]
  simp only []
  rw [finish_digit hlow hhigh, finish_digit (Nat.le_add_left _ _) hmiddle, finish_lastDigit, hsplit]

/-- **One character**: what is written for it is read, and nothing behind it is touched. -/
theorem next_utf8EncodeChar (c : Char) (rest : Bytes) :
    ∃ b front, String.utf8EncodeChar c = b :: front ∧ next b (front ++ rest) = (c, rest) := by
  have hvalid : c.val.toNat < 0xd800 ∨ 0xdfff < c.val.toNat ∧ c.val.toNat < 0x110000 := c.valid
  have hback : Char.ofNat c.val.toNat = c := Char.ofNat_toNat c
  unfold String.utf8EncodeChar
  generalize c.val.toNat = n at hvalid hback
  subst hback
  simp only []
  split
  · next hone =>
    have hascii : UInt8.ofNat n < 0x80 := by
      rw [UInt8.lt_iff_toNat_lt, UInt8.toNat_ofNat']
      show n % 256 < 128
      omega
    have hbyte : (UInt8.ofNat n).toNat = n := by
      rw [UInt8.toNat_ofNat']
      omega
    refine ⟨_, [], rfl, ?_⟩
    rw [next, lead?_of_ascii hascii]
    simp only [hbyte]
    rfl
  split
  · exact ⟨_, _, rfl, next_two (by omega) rest⟩
  split
  · exact ⟨_, _, rfl, next_three (by omega) (by omega) rest⟩
  · exact ⟨_, _, rfl, next_four (by omega) rest⟩

/-- **Every text is read from its bytes**, and what follows them is read behind it. -/
theorem decode_encode_append (text : List Char) (rest : Bytes) :
    decode (encode text ++ rest) = text ++ decode rest := by
  induction text with
  | nil => rfl
  | cons c text ih =>
    obtain ⟨b, front, hbytes, hnext⟩ := next_utf8EncodeChar c (encode text ++ rest)
    have hencode : encode (c :: text) = b :: front ++ encode text := by
      rw [encode, List.flatMap_cons, hbytes]
      rfl
    rw [hencode, List.append_assoc, List.cons_append, decode_cons, hnext, ih, List.cons_append]

theorem decode_zeros (count : Nat) :
    decode (List.replicate count 0) = List.replicate count '\x00' := by
  have hascii : ∀ b ∈ List.replicate count (0 : UInt8), b < 0x80 := by
    intro b hb
    rw [List.eq_of_mem_replicate hb]
    decide
  rw [decode_of_ascii hascii, List.map_replicate]
  rfl

/-- A text with padding. -/
theorem decode_padded (text : List Char) (count : Nat) :
    decode (encode text ++ List.replicate count 0) = text ++ List.replicate count '\x00' := by
  rw [decode_encode_append, decode_zeros]

theorem utf8EncodeChar_of_ascii {c : Char} (h : c.toNat < 0x80) :
    String.utf8EncodeChar c = [UInt8.ofNat c.toNat] :=
  if_pos (Nat.le_of_lt_succ h)

theorem encode_of_ascii {text : List Char} (h : ∀ c ∈ text, c.toNat < 0x80) :
    ∀ b ∈ encode text, b < 0x80 := by
  intro b hb
  obtain ⟨c, hc, hbyte⟩ := List.mem_flatMap.mp hb
  have hlt := h c hc
  rw [utf8EncodeChar_of_ascii hlt] at hbyte
  rw [List.mem_singleton.mp hbyte, UInt8.lt_iff_toNat_lt, UInt8.toNat_ofNat']
  exact Nat.lt_of_le_of_lt (Nat.mod_le _ _) hlt

theorem ofNat_ne_zero {n : Nat} (h : n % 256 ≠ 0) : UInt8.ofNat n ≠ 0 := by
  intro hzero
  rw [← UInt8.toNat_inj, UInt8.toNat_ofNat'] at hzero
  exact h hzero

theorem ne_zero_of_mem_utf8EncodeChar {c : Char} (h : c ≠ '\x00') :
    ∀ b ∈ String.utf8EncodeChar c, b ≠ 0 := by
  have hvalid : c.val.toNat < 0xd800 ∨ 0xdfff < c.val.toNat ∧ c.val.toNat < 0x110000 := c.valid
  have hback : Char.ofNat c.val.toNat = c := Char.ofNat_toNat c
  have hnul : c.val.toNat ≠ 0 := by
    intro hzero
    rw [hzero] at hback
    exact h hback.symm
  have hdigit (n : Nat) : UInt8.ofNat (n % 64 + 128) ≠ 0 := ofNat_ne_zero (by omega)
  unfold String.utf8EncodeChar
  generalize c.val.toNat = n at hvalid hnul
  simp only []
  split
  · exact List.forall_mem_singleton.mpr (ofNat_ne_zero (by omega))
  split
  · exact List.forall_mem_cons.mpr ⟨ofNat_ne_zero (by omega),
      List.forall_mem_singleton.mpr (hdigit _)⟩
  split
  · exact List.forall_mem_cons.mpr ⟨ofNat_ne_zero (by omega), List.forall_mem_cons.mpr
      ⟨hdigit _, List.forall_mem_singleton.mpr (hdigit _)⟩⟩
  · exact List.forall_mem_cons.mpr ⟨ofNat_ne_zero (by omega), List.forall_mem_cons.mpr
      ⟨hdigit _, List.forall_mem_cons.mpr ⟨hdigit _, List.forall_mem_singleton.mpr (hdigit _)⟩⟩⟩

/-- Zero bytes come from characters NUL only. -/
theorem ne_zero_of_mem_encode {text : List Char} (h : '\x00' ∉ text) :
    ∀ b ∈ encode text, b ≠ 0 := by
  intro b hb
  obtain ⟨c, hc, hbyte⟩ := List.mem_flatMap.mp hb
  refine ne_zero_of_mem_utf8EncodeChar ?_ b hbyte
  rintro rfl
  exact h hc

end Utf8

/-! ## UTF-16 -/

namespace Utf16

/-- The units of a character: the character itself, or two halves. -/
def ofChar (c : Char) : List UInt16 :=
  if c.toNat < 0x10000 then [UInt16.ofNat c.toNat]
  else [UInt16.ofNat (0xd800 + (c.toNat - 0x10000) / 0x400),
    UInt16.ofNat (0xdc00 + (c.toNat - 0x10000) % 0x400)]

/-- The bytes of a text. -/
def encode (text : List Char) : Bytes := (text.flatMap ofChar).flatMap wordBytes

theorem isHighHalf_iff {u : UInt16} :
    isHighHalf u = true ↔ 0xd800 ≤ u.toNat ∧ u.toNat < 0xdc00 := by
  rw [isHighHalf, Bool.and_eq_true, decide_eq_true_iff, decide_eq_true_iff, UInt16.le_iff_toNat_le,
    UInt16.lt_iff_toNat_lt]
  rfl

theorem isLowHalf_iff {u : UInt16} :
    isLowHalf u = true ↔ 0xdc00 ≤ u.toNat ∧ u.toNat < 0xe000 := by
  rw [isLowHalf, Bool.and_eq_true, decide_eq_true_iff, decide_eq_true_iff, UInt16.le_iff_toNat_le,
    UInt16.lt_iff_toNat_lt]
  rfl

theorem next_single {n : Nat} (h : n < 0x10000) (hvalid : n < 0xd800 ∨ 0xdfff < n)
    (units : List UInt16) : next (UInt16.ofNat n) units = (some (Char.ofNat n), units) := by
  have hunit : (UInt16.ofNat n).toNat = n := UInt16.toNat_ofNat_of_lt' h
  have hhigh : ¬ isHighHalf (UInt16.ofNat n) = true := by
    rw [isHighHalf_iff, hunit]
    omega
  have hlow : ¬ isLowHalf (UInt16.ofNat n) = true := by
    rw [isLowHalf_iff, hunit]
    omega
  rw [next.eq_def, if_neg hhigh, if_neg hlow, hunit]

theorem next_halves {n : Nat} (h : 0x10000 ≤ n ∧ n < 0x110000) (units : List UInt16) :
    next (UInt16.ofNat (0xd800 + (n - 0x10000) / 0x400))
        (UInt16.ofNat (0xdc00 + (n - 0x10000) % 0x400) :: units) =
      (some (Char.ofNat n), units) := by
  have hfirst : (UInt16.ofNat (0xd800 + (n - 0x10000) / 0x400)).toNat =
      0xd800 + (n - 0x10000) / 0x400 := by
    rw [UInt16.toNat_ofNat']
    omega
  have hsecond : (UInt16.ofNat (0xdc00 + (n - 0x10000) % 0x400)).toNat =
      0xdc00 + (n - 0x10000) % 0x400 := by
    rw [UInt16.toNat_ofNat']
    omega
  have hhigh : isHighHalf (UInt16.ofNat (0xd800 + (n - 0x10000) / 0x400)) = true := by
    rw [isHighHalf_iff, hfirst]
    omega
  have hlow : isLowHalf (UInt16.ofNat (0xdc00 + (n - 0x10000) % 0x400)) = true := by
    rw [isLowHalf_iff, hsecond]
    omega
  have hjoin : 0x10000 + (0xd800 + (n - 0x10000) / 0x400 - 0xd800) * 0x400 +
      (0xdc00 + (n - 0x10000) % 0x400 - 0xdc00) = n := by omega
  rw [next, if_pos hhigh]
  simp only [if_pos hlow]
  rw [joinHalves, hfirst, hsecond, hjoin]

/-- **One character**: its units are read, and no more. -/
theorem chars_ofChar_append (c : Char) (units : List UInt16) :
    chars (ofChar c ++ units) = some c :: chars units := by
  have hvalid : c.toNat < 0xd800 ∨ 0xdfff < c.toNat ∧ c.toNat < 0x110000 := c.valid
  have hback : Char.ofNat c.toNat = c := Char.ofNat_toNat c
  unfold ofChar
  split
  · next hone =>
    rw [List.singleton_append, chars_cons, next_single hone (by omega), hback]
  · next htwo =>
    rw [List.cons_append, List.singleton_append, chars_cons, next_halves (by omega), hback]

theorem chars_flatMap_ofChar (text : List Char) : chars (text.flatMap ofChar) = text.map some := by
  induction text with
  | nil => rfl
  | cons c text ih => rw [List.flatMap_cons, chars_ofChar_append, ih, List.map_cons]

theorem units_flatMap_wordBytes (words : List UInt16) :
    units (words.flatMap wordBytes) = words := by
  induction words with
  | nil => rfl
  | cons word words ih =>
    obtain ⟨low, high, hbytes, hword⟩ := wordBytes_eq_pair word
    rw [List.flatMap_cons, hbytes, List.cons_append, List.singleton_append, units_cons_cons, hword,
      ih]

/-- **Every text is read from its bytes**, and every half finds its other half. -/
theorem decode?_encode (text : List Char) : decode? (encode text) = some text := by
  rw [decode?, encode, units_flatMap_wordBytes, chars_flatMap_ofChar, mapM_id_map_some]

theorem even_length_encode (text : List Char) : (encode text).length % 2 = 0 := by
  rw [encode, length_flatMap_of_length length_wordBytes]
  exact Nat.mul_mod_right 2 _

theorem encode_append (front rest : List Char) :
    encode (front ++ rest) = encode front ++ encode rest := by
  rw [encode, List.flatMap_append, List.flatMap_append]
  rfl

theorem encode_nuls (count : Nat) :
    encode (List.replicate count '\x00') = List.replicate (2 * count) 0 := by
  induction count with
  | zero => rfl
  | succ count ih =>
    rw [List.replicate_succ, ← List.singleton_append, encode_append, ih, Nat.mul_succ, Nat.add_comm,
      List.replicate_add]
    rfl

/-- A text with padding is a text with characters NUL at its end. -/
theorem encode_padded (text : List Char) (count : Nat) :
    encode text ++ List.replicate (2 * count) 0 = encode (text ++ List.replicate count '\x00') := by
  rw [encode_append, encode_nuls]

/-- The bytes of an ASCII character. -/
theorem encode_cons_of_ascii {c : Char} (h : c.toNat < 0x80) (text : List Char) :
    encode (c :: text) = UInt8.ofNat c.toNat :: 0 :: encode text := by
  have hunits : ofChar c = [UInt16.ofNat c.toNat] := if_pos (Nat.lt_trans h (by decide))
  have hword : (UInt16.ofNat c.toNat).toNat = c.toNat :=
    UInt16.toNat_ofNat_of_lt' (Nat.lt_trans h (by decide))
  have hhigh : c.toNat / 256 = 0 := Nat.div_eq_of_lt (Nat.lt_trans h (by decide))
  rw [encode, List.flatMap_cons, hunits, List.flatMap_append, List.flatMap_singleton, wordBytes,
    hword, leBytes, leBytes, leBytes, hhigh]
  rfl

end Utf16

end EseReader
