import EseReader.Text.Codepage
import Mathlib.Data.List.Forall2

/-!
# `EseReader/Proofs/Text/Windows1252.lean` — what the bytes of Windows-1252 stand for

The reader has a table from bytes to characters. Here the codepage is written down from the other
side: `encode?` says as which byte a character is stored, and the characters that Latin-1 does not
have are listed **by code point, each with its byte**. A table that is one place off, or has two
characters exchanged, does not fit both. Five bytes are free, since no character is stored as one of
them; they are read as the replacement character.

That is all there is to know. A byte stands for one character (`standsFor_iff`), so a byte string
spells one text (`spells_iff`).
-/

set_option autoImplicit false

namespace EseReader.Windows1252

/-- The characters that Latin-1 does not have. -/
def added : List (Char × UInt8) :=
  [ ('\u0152', 0x8c), ('\u0153', 0x9c), ('\u0160', 0x8a), ('\u0161', 0x9a), ('\u0178', 0x9f),
    ('\u017d', 0x8e), ('\u017e', 0x9e), ('\u0192', 0x83), ('\u02c6', 0x88), ('\u02dc', 0x98),
    ('\u2013', 0x96), ('\u2014', 0x97), ('\u2018', 0x91), ('\u2019', 0x92), ('\u201a', 0x82),
    ('\u201c', 0x93), ('\u201d', 0x94), ('\u201e', 0x84), ('\u2020', 0x86), ('\u2021', 0x87),
    ('\u2022', 0x95), ('\u2026', 0x85), ('\u2030', 0x89), ('\u2039', 0x8b), ('\u203a', 0x9b),
    ('\u20ac', 0x80), ('\u2122', 0x99) ]

/-- The byte that a character is stored as; `none` if the codepage does not have the character. -/
def encode? (c : Char) : Option UInt8 :=
  if c.toNat < 0x80 ∨ 0xa0 ≤ c.toNat ∧ c.toNat < 0x100 then some (UInt8.ofNat c.toNat)
  else added.lookup c

/-- The bytes that no character is stored as. -/
def free : List UInt8 := [0x81, 0x8d, 0x8f, 0x90, 0x9d]

/-- What a byte stands for: the character that is stored as it, if there is one. -/
def StandsFor (b : UInt8) (c : Char) : Prop := encode? c = some b ∨ b ∈ free ∧ c = '\ufffd'

instance (b : UInt8) (c : Char) : Decidable (StandsFor b c) :=
  inferInstanceAs (Decidable (_ ∨ _))

/-- The bytes stand for the characters of the text, one for one. -/
def Spells (bytes : Bytes) (text : String) : Prop := List.Forall₂ StandsFor bytes text.toList

instance (bytes : Bytes) (text : String) : Decidable (Spells bytes text) :=
  inferInstanceAs (Decidable (List.Forall₂ _ _ _))

/-! ## A byte and its character -/

variable {b : UInt8} {c : Char} {bytes : Bytes} {text : String}

/-- Where Windows-1252 and Latin-1 agree, byte and code point are the same number. -/
theorem windows1252Char_ofNat {n : Nat} (h : n < 0x80 ∨ 0xa0 ≤ n ∧ n < 0x100) :
    NarrowPage.windows1252Char (UInt8.ofNat n) = Char.ofNat n := by
  have hn : (UInt8.ofNat n).toNat = n := UInt8.toNat_ofNat_of_lt' (by simp only [UInt8.size]; omega)
  rw [NarrowPage.windows1252Char, if_neg, hn]
  rw [UInt8.le_iff_toNat_le, UInt8.lt_iff_toNat_lt, hn]
  show ¬(0x80 ≤ n ∧ n < 0xa0)
  omega

theorem windows1252Char_of_encode? (h : encode? c = some b) :
    NarrowPage.windows1252Char b = c := by
  rw [encode?] at h
  split at h
  case isTrue hsame =>
    cases h
    rw [windows1252Char_ofNat hsame, Char.ofNat_toNat]
  case isFalse =>
    have hadded : ∀ entry ∈ added, NarrowPage.windows1252Char entry.2 = entry.1 := by decide
    obtain ⟨before, later, hsplit, -⟩ := List.lookup_eq_some_iff.mp h
    exact hadded (c, b) (hsplit ▸ List.mem_append_right before List.mem_cons_self)

theorem windows1252Char_of_free (h : b ∈ free) : NarrowPage.windows1252Char b = '\ufffd' := by
  have hfree : free.map NarrowPage.windows1252Char = List.replicate 5 '\ufffd' := by decide
  have hmem : NarrowPage.windows1252Char b ∈ free.map NarrowPage.windows1252Char :=
    List.mem_map_of_mem h
  rw [hfree] at hmem
  exact List.eq_of_mem_replicate hmem

/-- Each of the 256 bytes stands for something. -/
theorem standsFor_windows1252Char (b : UInt8) : StandsFor b (NarrowPage.windows1252Char b) := by
  have hall : ∀ n < 0x100,
      StandsFor (UInt8.ofNat n) (NarrowPage.windows1252Char (UInt8.ofNat n)) := by
    decide +kernel
  have hb := hall b.toNat b.toNat_lt
  rwa [UInt8.ofNat_toNat] at hb

/-- **A byte stands for one character**, and that is the one it is read as. -/
theorem standsFor_iff : StandsFor b c ↔ NarrowPage.windows1252Char b = c := by
  constructor
  · rintro (hstored | ⟨hfree, rfl⟩)
    · exact windows1252Char_of_encode? hstored
    · exact windows1252Char_of_free hfree
  · rintro rfl
    exact standsFor_windows1252Char b

/-- The list of free bytes is complete. -/
theorem mem_free_iff : b ∈ free ↔ ∀ c, encode? c ≠ some b := by
  constructor
  · intro hfree c hstored
    obtain rfl : '\ufffd' = c :=
      (windows1252Char_of_free hfree).symm.trans (windows1252Char_of_encode? hstored)
    have hnowhere : encode? '\ufffd' = none := by decide
    rw [hnowhere] at hstored
    cases hstored
  · intro hnone
    rcases standsFor_windows1252Char b with hstored | ⟨hfree, -⟩
    · exact absurd hstored (hnone _)
    · exact hfree

/-! ## A byte string and its text -/

/-- **A byte string spells one text**, and that is the one it is read as. -/
theorem spells_iff :
    Spells bytes text ↔ String.ofList (NarrowPage.windows1252.decode bytes) = text := by
  have hstands : StandsFor = fun b c => NarrowPage.windows1252Char b = c := by
    funext b c
    exact propext standsFor_iff
  rw [Spells, hstands, ← List.forall₂_map_left_iff, List.forall₂_eq_eq_eq, NarrowPage.decode,
    ← String.toList_inj, String.toList_ofList]

theorem Spells.unique {other : String} (h : Spells bytes text) (hother : Spells bytes other) :
    text = other :=
  (spells_iff.mp h).symm.trans (spells_iff.mp hother)

theorem spells_nil_iff : Spells [] text ↔ text = "" := by
  rw [spells_iff, eq_comm]
  rfl

end EseReader.Windows1252
