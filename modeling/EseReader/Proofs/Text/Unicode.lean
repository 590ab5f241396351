import EseReader.Proofs.Text.Codepage
import EseReader.Proofs.Text.RoundTrip

/-!
# `EseReader/Proofs/Text/Unicode.lean` — the two kinds of text in the Unicode codepage

Some writers store UTF-8 under the Unicode codepage and some UTF-16, and nothing in the value says
which. The reader takes a zero byte that stands in front of a nonzero one for the sign of UTF-16.
For texts without the character NUL this is **never wrong on UTF-8**, whose only zero bytes are
padding. On UTF-16 it is right as soon as the sign is there, and an ASCII text of two or more
characters has it. An ASCII text of one character has not, but its two bytes are those of a padded
UTF-8 text (`toText_encode`).
-/

set_option autoImplicit false

namespace EseReader

/-! ## The sign of UTF-16 -/

/-- A nonzero byte stands somewhere behind a zero byte. -/
def ZeroInside (value : Bytes) : Prop :=
  ∃ front middle rest b, value = front ++ 0 :: middle ++ b :: rest ∧ b ≠ 0

theorem looksWide_cons_of_ne {b : UInt8} (h : b ≠ 0) (rest : Bytes) :
    looksWide (b :: rest) = looksWide rest := by
  simp [looksWide, h]

theorem looksWide_zero_cons (rest : Bytes) : looksWide (0 :: rest) = rest.any (· != 0) := by
  simp [looksWide]

theorem looksWide_iff {value : Bytes} : looksWide value = true ↔ ZeroInside value := by
  constructor
  · intro h
    induction value with
    | nil => cases h
    | cons first value ih =>
      by_cases hfirst : first = 0
      · subst hfirst
        rw [looksWide_zero_cons, List.any_eq_true] at h
        obtain ⟨b, hmem, hb⟩ := h
        obtain ⟨middle, rest, rfl⟩ := List.append_of_mem hmem
        exact ⟨[], middle, rest, b, rfl, bne_iff_ne.mp hb⟩
      · rw [looksWide_cons_of_ne hfirst] at h
        obtain ⟨front, middle, rest, b, rfl, hb⟩ := ih h
        exact ⟨first :: front, middle, rest, b, rfl, hb⟩
  · rintro ⟨front, middle, rest, b, rfl, hb⟩
    have hmem : b ∈ middle ++ b :: rest := List.mem_append_right _ List.mem_cons_self
    induction front with
    | nil =>
      rw [List.nil_append, List.cons_append, looksWide_zero_cons, List.any_eq_true]
      exact ⟨b, hmem, bne_iff_ne.mpr hb⟩
    | cons first front ih =>
      rw [List.append_assoc] at ih ⊢
      by_cases hfirst : first = 0
      · subst hfirst
        rw [List.cons_append, looksWide_zero_cons, List.any_eq_true]
        exact ⟨b, List.mem_append_right _ (List.mem_cons_of_mem _ hmem), bne_iff_ne.mpr hb⟩
      · rw [List.cons_append, looksWide_cons_of_ne hfirst]
        exact ih

/-- Zero bytes that are padding are no sign. -/
theorem looksWide_padded {front : Bytes} (h : ∀ b ∈ front, b ≠ 0) (count : Nat) :
    looksWide (front ++ List.replicate count 0) = false := by
  induction front with
  | nil =>
    cases count with
    | zero => rfl
    | succ count =>
      rw [List.nil_append, List.replicate_succ, looksWide_zero_cons, List.any_eq_false]
      intro b hb
      rw [List.eq_of_mem_replicate hb]
      decide
  | cons b front ih =>
    obtain ⟨hb, hfront⟩ := List.forall_mem_cons.mp h
    rw [List.cons_append, looksWide_cons_of_ne hb, ih hfront]

theorem looksWide_utf8 {text : List Char} (h : '\x00' ∉ text) (count : Nat) :
    looksWide (Utf8.encode text ++ List.replicate count 0) = false :=
  looksWide_padded (Utf8.ne_zero_of_mem_encode h) count

/-- Two ASCII characters are enough. -/
theorem zeroInside_of_two {c d : Char} (hc : c.toNat < 0x80) (hd : d.toNat < 0x80)
    (hnul : d ≠ '\x00') (text : List Char) (padding : Bytes) :
    ZeroInside (Utf16.encode (c :: d :: text) ++ padding) := by
  have hbyte : UInt8.ofNat d.toNat ≠ 0 := by
    refine Utf8.ne_zero_of_mem_utf8EncodeChar hnul _ ?_
    rw [Utf8.utf8EncodeChar_of_ascii hd]
    exact List.mem_singleton_self _
  refine ⟨[UInt8.ofNat c.toNat], [], 0 :: (Utf16.encode text ++ padding), _, ?_, hbyte⟩
  rw [Utf16.encode_cons_of_ascii hc, Utf16.encode_cons_of_ascii hd]
  rfl

/-! ## What is read -/

section Reading

variable {text : List Char}

theorem readWide_utf8 (hend : text.getLast? ≠ some '\x00') (count : Nat) :
    readWide false (Utf8.encode text ++ List.replicate count 0) = String.ofList text := by
  rw [readWide, if_neg Bool.false_ne_true, Utf8.decode_padded, trimNuls_append_replicate hend]

theorem readWide_utf16 (hend : text.getLast? ≠ some '\x00') (count : Nat) :
    readWide true (Utf16.encode text ++ List.replicate (2 * count) 0) = String.ofList text := by
  rw [readWide, if_pos rfl, Utf16.encode_padded, Utf16.decode_of_decode? (Utf16.decode?_encode _),
    trimNuls_append_replicate hend]

variable {codepage : UInt32} {pages : Codepages}

theorem toText_utf8 (hnul : '\x00' ∉ text) (hcodepage : pages.resolve codepage = 1200)
    (count : Nat) :
    toText (Utf8.encode text ++ List.replicate count 0) codepage pages =
      .ok (String.ofList text) := by
  have hend : text.getLast? ≠ some '\x00' := fun h => hnul (List.mem_of_getLast? h)
  rw [toText_of_unicode hcodepage, plainWide, looksWide_utf8 hnul, Bool.and_false,
    readWide_utf8 hend]

theorem toText_utf16 (hnul : '\x00' ∉ text) (hcodepage : pages.resolve codepage = 1200)
    (count : Nat)
    (hwide : ZeroInside (Utf16.encode text ++ List.replicate (2 * count) 0)) :
    toText (Utf16.encode text ++ List.replicate (2 * count) 0) codepage pages =
      .ok (String.ofList text) := by
  have hend : text.getLast? ≠ some '\x00' := fun h => hnul (List.mem_of_getLast? h)
  rw [toText_of_unicode hcodepage, plainWide, looksWide_iff.mpr hwide, Bool.and_true]
  show Except.ok (readWide true _) = _
  rw [readWide_utf16 hend]

/-- An ASCII text has the sign, or it is short enough for both readings to be the same. -/
theorem toText_ascii_utf16 (hnul : '\x00' ∉ text) (hcodepage : pages.resolve codepage = 1200)
    (hascii : ∀ c ∈ text, c.toNat < 0x80) (count : Nat) :
    toText (Utf16.encode text ++ List.replicate (2 * count) 0) codepage pages =
      .ok (String.ofList text) := by
  match text, hnul, hascii with
  | [], hnul, _ => exact toText_utf8 hnul hcodepage (2 * count)
  | [c], hnul, hascii =>
    -- The high byte of the character is one zero more.
    have hbytes : Utf16.encode [c] ++ List.replicate (2 * count) 0 =
        Utf8.encode [c] ++ List.replicate (2 * count + 1) 0 := by
      have hc := hascii c List.mem_cons_self
      rw [Utf16.encode_cons_of_ascii hc, Utf8.encode, List.flatMap_singleton,
        Utf8.utf8EncodeChar_of_ascii hc, List.replicate_succ]
      rfl
    rw [hbytes]
    exact toText_utf8 hnul hcodepage _
  | c :: d :: text, hnul, hascii =>
    obtain ⟨hc, hascii⟩ := List.forall_mem_cons.mp hascii
    obtain ⟨hd, -⟩ := List.forall_mem_cons.mp hascii
    have hd0 : d ≠ '\x00' := by
      rintro rfl
      exact hnul (List.mem_cons_of_mem _ List.mem_cons_self)
    exact toText_utf16 hnul hcodepage count (zeroInside_of_two hc hd hd0 text _)

end Reading

/-- **Under the Unicode codepage both kinds of writers are read.** A text without the character NUL
is read from its UTF-8 bytes, however many zeros pad them; and from its UTF-16 bytes if it is ASCII,
or if the bytes with their padding have a nonzero byte behind a zero byte. -/
theorem toText_encode (text : String) (hnul : '\x00' ∉ text.toList) (count : Nat)
    (codepage : UInt32) (pages : Codepages) (hcodepage : pages.resolve codepage = 1200) :
    toText (Utf8.encode text.toList ++ List.replicate count 0) codepage pages = .ok text ∧
      ((∀ c ∈ text.toList, c.toNat < 0x80) ∨
          ZeroInside (Utf16.encode text.toList ++ List.replicate (2 * count) 0) →
        toText (Utf16.encode text.toList ++ List.replicate (2 * count) 0) codepage pages =
          .ok text) := by
  have htext : String.ofList text.toList = text := String.ofList_toList
  refine ⟨by rw [toText_utf8 hnul hcodepage, htext], ?_⟩
  rintro (hascii | hwide)
  · rw [toText_ascii_utf16 hnul hcodepage hascii, htext]
  · rw [toText_utf16 hnul hcodepage count hwide, htext]

/-- No byte of the euro sign is zero, but the low byte of the second half of the face is. -/
theorem toText_encode_sample :
    toText [0xe2, 0x82, 0xac, 0xf0, 0x9f, 0x98, 0x80, 0, 0, 0] 1200 {} = .ok "€😀" ∧
      toText [0xac, 0x20, 0x3d, 0xd8, 0x00, 0xde, 0, 0] 1200 {} = .ok "€😀" := by
  have hnul : '\x00' ∉ "€😀".toList := by decide
  have hbytes : Utf16.encode "€😀".toList = [0xac, 0x20, 0x3d, 0xd8, 0x00, 0xde] := by decide
  have hwide : ZeroInside (Utf16.encode "€😀".toList ++ List.replicate (2 * 1) 0) :=
    ⟨[0xac, 0x20, 0x3d, 0xd8], [], [0, 0], 0xde, by rw [hbytes]; rfl, by decide⟩
  have hutf8 := (toText_encode "€😀" hnul 3 1200 {} rfl).1
  have hutf16 := (toText_encode "€😀" hnul 1 1200 {} rfl).2 (.inr hwide)
  rw [hbytes] at hutf16
  exact ⟨hutf8, hutf16⟩

end EseReader
