import EseReader.FileHeader
import EseReader.Proofs.Checksum.Words
import EseReader.Proofs.Page.Bounds

/-!
# `EseReader/Proofs/Checksum/Corruption.lean` — what the checksums catch

A page and the header of a file each carry a checksum in their first word, which is not among the
words it covers. So one changed word is either the stored checksum or a covered one, and in both
cases **the two no longer agree**. From the revision on that numbers pages in their checksums, the
number is the seed, and a page that turns up under another number is caught as well.

Two marks turn the test off: a page with the checksum zero was never written, and a header that says
the database was not closed in order may carry an old checksum. What is stated here keeps clear of
the first, and for the second it says that a change gets through exactly if it makes that mark
(`FileHeader.verify_changed_iff`).
-/

set_option autoImplicit false

namespace EseReader

/-! ## Pages -/

/-- The first byte of a page that its checksum covers. -/
def Format.coveredFrom (format : Format) : Nat := if 0x0c ≤ format.revision then 8 else 4

/-- What the checksum of a page starts from. -/
def Format.seed (format : Format) (number : PageNumber) : UInt32 :=
  if 0x0c ≤ format.revision then number else checksumSeed

theorem Format.coveredFrom_mod (format : Format) : format.coveredFrom % 4 = 0 := by
  rw [coveredFrom]
  split <;> rfl

theorem Format.le_coveredFrom (format : Format) : 4 ≤ format.coveredFrom := by
  rw [coveredFrom]
  split <;> omega

namespace Page

/-- Takes `data` as page `number` and compares its checksum. -/
def verify (number : PageNumber) (data : Bytes) (format : Format) : Except Error Unit := do
  (← Page.ofBytes number data format).verifyChecksum format

/-- The page is turned down because its checksum is not the stored one. -/
def Mismatch (number : PageNumber) (data : Bytes) (format : Format) : Prop :=
  let stored := (PageHeader.ofBytes data).checksum
  ∃ calculated, calculated ≠ stored ∧
    verify number data format = .error (.checksum number stored calculated)

variable {number : PageNumber} {data other : Bytes} {format : Format} {offset : Nat}

theorem checksum_eq (page : Page) (format : Format) :
    page.checksum format = xor32 (page.data.drop format.coveredFrom) (format.seed page.number) := by
  rw [checksum, Format.seedsWithPageNumber, Format.coveredFrom, Format.seed]
  simp only [decide_eq_true_eq]
  split <;> rfl

section Legacy

variable (hlegacy : format.extendedHeader = false) (hlength : 44 ≤ data.length)
  (hstored : (PageHeader.ofBytes data).checksum ≠ 0)

include hlegacy hlength hstored

/-- On a page with the short header and a checksum there is nothing else to the test. -/
theorem verify_eq :
    verify number data format =
      let stored := (PageHeader.ofBytes data).checksum
      let calculated := xor32 (data.drop format.coveredFrom) (format.seed number)
      if stored = calculated then .ok () else .error (.checksum number stored calculated) := by
  have hpage : Page.ofBytes number data format = .ok ⟨number, false, data⟩ := by
    rw [ofBytes_eq_ok_iff, hlegacy]
    exact ⟨rfl, hlength⟩
  rw [verify, hpage]
  show verifyChecksum ⟨number, false, data⟩ format = _
  rw [verifyChecksum, checksum_eq]
  simp only [header, hstored, Bool.false_eq_true, or_self, if_false]
  rfl

theorem mismatch_of_ne
    (hne : xor32 (data.drop format.coveredFrom) (format.seed number) ≠
      (PageHeader.ofBytes data).checksum) : Mismatch number data format := by
  refine ⟨_, hne, ?_⟩
  rw [verify_eq hlegacy hlength hstored]
  exact if_neg (Ne.symm hne)

end Legacy

section Verified

variable (hlegacy : format.extendedHeader = false) (hverified : verify number data format = .ok ())

include hlegacy hverified

theorem length_of_verify : 44 ≤ data.length := by
  obtain ⟨page, hpage, -⟩ := bind_eq_ok_iff.mp hverified
  obtain ⟨rfl, hlength⟩ := ofBytes_eq_ok_iff.mp hpage
  rw [headerSize, hlegacy] at hlength
  exact hlength

variable (hstored : (PageHeader.ofBytes data).checksum ≠ 0)

include hstored

theorem stored_eq_of_verify :
    (PageHeader.ofBytes data).checksum =
      xor32 (data.drop format.coveredFrom) (format.seed number) := by
  have hlength := length_of_verify hlegacy hverified
  rw [verify_eq hlegacy hlength hstored] at hverified
  by_contra hne
  simp only [if_neg hne] at hverified
  cases hverified

theorem mismatch_of_covered (hapart : OneWordApart data other offset)
    (hcovered : format.coveredFrom ≤ offset) : Mismatch number other format := by
  have hfour := format.le_coveredFrom
  have hlength := length_of_verify hlegacy hverified
  have hsame : (PageHeader.ofBytes other).checksum = (PageHeader.ofBytes data).checksum :=
    hapart.u32At_eq (.inl (by omega))
  apply mismatch_of_ne hlegacy
  · rw [hapart.length]
    exact hlength
  · rw [hsame]
    exact hstored
  · rw [hsame, stored_eq_of_verify hlegacy hverified hstored]
    exact (hapart.drop format.coveredFrom_mod hcovered).xor32_ne _

theorem mismatch_of_stored (hapart : OneWordApart data other 0)
    (hnew : (PageHeader.ofBytes other).checksum ≠ 0) : Mismatch number other format := by
  have hlength := length_of_verify hlegacy hverified
  have hcovered : other.drop format.coveredFrom = data.drop format.coveredFrom := by
    obtain ⟨skipped, hskipped⟩ := Nat.exists_eq_add_of_le format.le_coveredFrom
    have hbehind := hapart.behind
    rw [Nat.zero_add] at hbehind
    rw [hskipped, ← List.drop_drop, hbehind, List.drop_drop]
  apply mismatch_of_ne hlegacy
  · rw [hapart.length]
    exact hlength
  · exact hnew
  · rw [hcovered, ← stored_eq_of_verify hlegacy hverified hstored]
    exact Ne.symm hapart.u32At_ne

theorem mismatch_of_number (hseeds : 0x0c ≤ format.revision) {another : PageNumber}
    (hne : another ≠ number) : Mismatch another data format := by
  have hlength := length_of_verify hlegacy hverified
  apply mismatch_of_ne hlegacy hlength hstored
  rw [stored_eq_of_verify hlegacy hverified hstored, Format.seed, Format.seed, if_pos hseeds,
    if_pos hseeds]
  exact fun hsame => hne (xor32_seed_injective _ hsame)

end Verified

end Page

/-! ## The header of a file -/

namespace FileHeader

/-- Takes the header at the start of `block` and compares its checksum. -/
def verify (block : Bytes) : Except Error Unit := do
  (← FileHeader.ofBytes block).verifyChecksum block

variable {block other : Bytes} {offset : Nat}

theorem ofBytes_eq_ok_iff {header : FileHeader} :
    FileHeader.ofBytes block = .ok header ↔
      size ≤ block.length ∧ (fields block).signature = fileSignature ∧ header = fields block := by
  simp only [FileHeader.ofBytes]
  split
  case isTrue hshort =>
    constructor
    · intro h
      cases h
    · rintro ⟨hlong, -, -⟩
      omega
  case isFalse hlong =>
    have hle : size ≤ block.length := Nat.le_of_not_lt hlong
    split
    case isTrue hsignature =>
      constructor
      · rintro ⟨⟩
        exact ⟨hle, hsignature, rfl⟩
      · rintro ⟨-, -, rfl⟩
        rfl
    case isFalse hsignature =>
      constructor
      · intro h
        cases h
      · rintro ⟨-, h, -⟩
        exact absurd h hsignature

theorem verifyChecksum_eq_ok_iff {header : FileHeader} (hlength : checksumSize ≤ block.length) :
    header.verifyChecksum block = .ok () ↔
      header.state = .dirtyShutdown ∨
        xor32 (block.field 4 (checksumSize - 4)) checksumSeed = header.checksum := by
  rw [verifyChecksum]
  split
  case isTrue hdirty => exact iff_of_true rfl (.inl hdirty)
  case isFalse hdirty =>
    have hslice : block.slice 4 (checksumSize - 4) "file header block" =
        .ok (block.field 4 (checksumSize - 4)) :=
      Bytes.slice_eq_ok_iff.mpr ⟨by simp only [checksumSize] at hlength ⊢; omega, rfl⟩
    rw [hslice, or_iff_right hdirty]
    show (if _ then _ else _) = _ ↔ _
    split
    case isTrue hsame => exact iff_of_true rfl hsame
    case isFalse hne =>
      refine iff_of_false ?_ hne
      intro h
      cases h

theorem verify_eq_ok_iff (hlength : checksumSize ≤ block.length) :
    verify block = .ok () ↔
      (fields block).signature = fileSignature ∧
        ((fields block).state = .dirtyShutdown ∨
          xor32 (block.field 4 (checksumSize - 4)) checksumSeed = (fields block).checksum) := by
  have hsize : size ≤ block.length := Nat.le_trans (by decide) hlength
  rw [verify, bind_eq_ok_iff]
  constructor
  · rintro ⟨header, hheader, hverify⟩
    obtain ⟨-, hsignature, rfl⟩ := ofBytes_eq_ok_iff.mp hheader
    exact ⟨hsignature, (verifyChecksum_eq_ok_iff hlength).mp hverify⟩
  · rintro ⟨hsignature, hverify⟩
    exact ⟨_, ofBytes_eq_ok_iff.mpr ⟨hsize, hsignature, rfl⟩,
      (verifyChecksum_eq_ok_iff hlength).mpr hverify⟩

/-- The stored checksum is in front of what it covers, so a change is on one side of the border, and
the other side still asks for what was there. -/
theorem checksum_ne_of_changed (hapart : OneWordApart block other offset)
    (hinside : offset + 4 ≤ checksumSize)
    (hsame : xor32 (block.field 4 (checksumSize - 4)) checksumSeed = (fields block).checksum) :
    xor32 (other.field 4 (checksumSize - 4)) checksumSeed ≠ (fields other).checksum := by
  by_cases hfirst : offset = 0
  · subst hfirst
    rw [hapart.field_eq (.inr (Nat.le_refl _)), hsame]
    exact Ne.symm hapart.u32At_ne
  · have haligned := hapart.aligned
    have hstored : (fields other).checksum = (fields block).checksum :=
      hapart.u32At_eq (.inl (by omega))
    rw [hstored, ← hsame]
    exact ((hapart.drop rfl (by omega)).take (by simp only [checksumSize] at hinside ⊢; omega)).xor32_ne _

/-- **A change of one word is caught**, unless it is the one that turns the test off. -/
theorem verify_changed_iff (hlength : checksumSize ≤ block.length) (hverified : verify block = .ok ())
    (hstate : (fields block).state ≠ .dirtyShutdown) (hapart : OneWordApart block other offset)
    (hinside : offset + 4 ≤ checksumSize) :
    verify other = .ok () ↔ (fields other).state = .dirtyShutdown := by
  obtain ⟨hsignature, htested⟩ := (verify_eq_ok_iff hlength).mp hverified
  have hsame := htested.resolve_left hstate
  have hlength' : checksumSize ≤ other.length := by
    rw [hapart.length]
    exact hlength
  rw [verify_eq_ok_iff hlength', or_iff_left (checksum_ne_of_changed hapart hinside hsame),
    and_iff_right_iff_imp]
  intro hdirty
  -- The changed word is the state, and not the signature.
  have hoffset : offset ≠ 4 := by
    rintro rfl
    have hsame : (fields other).state = (fields block).state :=
      congrArg DatabaseState.ofCode (hapart.u32At_eq (.inr (by decide)))
    exact hstate (hsame ▸ hdirty)
  have haligned := hapart.aligned
  exact (hapart.u32At_eq (by omega)).trans hsignature

end FileHeader

/-! ## Both -/

/-- **The checksums catch every change of one word.** A page with the short header and with a
checksum that is there and right: it is turned down for its checksum if one of the covered words is
changed, if the stored checksum is changed to another one that is there, and, if the number is the
seed, under every other number. A header with the right checksum of a database that was closed in
order: after a change of one word it passes exactly if it now says that the database was not closed
in order. -/
theorem checksums_catch_one_word :
    (∀ (number : PageNumber) (data : Bytes) (format : Format),
      format.extendedHeader = false → (PageHeader.ofBytes data).checksum ≠ 0 →
      Page.verify number data format = .ok () →
        (∀ other offset, OneWordApart data other offset → format.coveredFrom ≤ offset →
          Page.Mismatch number other format) ∧
        (∀ other, OneWordApart data other 0 → (PageHeader.ofBytes other).checksum ≠ 0 →
          Page.Mismatch number other format) ∧
        (0x0c ≤ format.revision → ∀ another ≠ number, Page.Mismatch another data format)) ∧
    ∀ block : Bytes, FileHeader.checksumSize ≤ block.length →
      FileHeader.verify block = .ok () → (FileHeader.fields block).state ≠ .dirtyShutdown →
        ∀ other offset, OneWordApart block other offset → offset + 4 ≤ FileHeader.checksumSize →
          (FileHeader.verify other = .ok () ↔
            (FileHeader.fields other).state = .dirtyShutdown) := by
  constructor
  · intro number data format hlegacy hstored hverified
    exact ⟨fun _ _ => Page.mismatch_of_covered hlegacy hverified hstored,
      fun _ => Page.mismatch_of_stored hlegacy hverified hstored,
      fun hseeds _ => Page.mismatch_of_number hlegacy hverified hstored hseeds⟩
  · intro block hlength hverified hstate _ _
    exact FileHeader.verify_changed_iff hlength hverified hstate

/-- Page 5 with nothing on it but the checksum `stored` and the link `next`. -/
def Page.bare (stored next : UInt8) : Bytes :=
  [stored, 0, 0, 0] ++ List.replicate 16 0 ++ [next, 0, 0, 0] ++ List.replicate 20 0

/-- A header with nothing in it but the checksum `stored`, the signature and the code of the state. -/
def FileHeader.bare (stored state : UInt8) : Bytes :=
  [stored, 0, 0, 0, 0xef, 0xcd, 0xab, 0x89] ++ List.replicate 44 0 ++ [state, 0, 0, 0] ++
    List.replicate 612 0

theorem checksums_catch_one_word_sample :
    Page.verify 5 (Page.bare 5 0) .standard = .ok () ∧
      Page.Mismatch 5 (Page.bare 5 9) .standard ∧
      Page.Mismatch 5 (Page.bare 6 0) .standard ∧
      Page.Mismatch 6 (Page.bare 5 0) .standard ∧
      FileHeader.verify (FileHeader.bare 3 3) = .ok () ∧
      FileHeader.verify (FileHeader.bare 3 5) ≠ .ok () ∧
      FileHeader.verify (FileHeader.bare 3 2) = .ok () := by
  have hpage : Page.verify 5 (Page.bare 5 0) .standard = .ok () := by decide
  have hblock : FileHeader.verify (FileHeader.bare 3 3) = .ok () := by decide +kernel
  obtain ⟨hcovered, hstored, hnumber⟩ :=
    checksums_catch_one_word.1 5 (Page.bare 5 0) .standard rfl (by decide) hpage
  have hchanged :=
    checksums_catch_one_word.2 _ (by decide +kernel) hblock (by decide +kernel)
  have hforced := hchanged (FileHeader.bare 3 5) 52 (by decide +kernel) (by decide)
  have hdirty := hchanged (FileHeader.bare 3 2) 52 (by decide +kernel) (by decide)
  exact ⟨hpage, hcovered _ 20 (by decide) (by decide), hstored _ (by decide) (by decide),
    hnumber (by decide) 6 (by decide), hblock, mt hforced.mp (by decide +kernel),
    hdirty.mpr (by decide +kernel)⟩

end EseReader
