import EseReader.Proofs.Bytes
import EseReader.Proofs.Page.Image
import Mathlib.Data.Nat.Bitwise

/-!
# `EseReader/Proofs/Page/RoundTrip.lean` — values are found where they were written

A page is written from both ends, and the two ends only meet in the numbers: the tag of a value
says where it stands, counted from the header, and stands itself at a place counted from the end.
So a page that holds the values `before ++ value :: later` is cut twice at `value`, once in the
data area and once in the tags, where `before` comes **behind** it.

What is read is `ValueImage.placed`. Its flags come out of the tag or out of the value, and the
three lemmas at the end say that they are the flags that went in.
-/

set_option autoImplicit false

namespace EseReader

/-! ## The flags inside a value -/

namespace ValueImage

variable {extended : Bool} {value : ValueImage}

@[simp] theorem length_stored : (value.stored extended).length = value.data.length := by
  unfold stored
  split
  · exact List.length_modify ..
  · rfl

/-- A first word that leaves the top three bits free takes the flags into them. -/
theorem stored_of_word {word : Nat} {rest : Bytes} (hdata : value.data = leBytes 2 word ++ rest)
    (hflags : value.flags < 8) (hword : word < 0x2000) :
    value.stored true = leBytes 2 (word + 0x2000 * value.flags) ++ rest := by
  have hhigh : UInt8.ofNat (word / 256) ||| UInt8.ofNat (32 * value.flags) =
      UInt8.ofNat ((word + 0x2000 * value.flags) / 256) := by
    rw [← UInt8.toNat_inj, UInt8.toNat_or]
    simp only [UInt8.toNat_ofNat']
    rw [Nat.mod_eq_of_lt (by omega), Nat.mod_eq_of_lt (by omega), Nat.mod_eq_of_lt (by omega),
      Nat.or_comm, ← Nat.two_pow_add_eq_or_of_lt (i := 5) (by omega)]
    omega
  have hlow : UInt8.ofNat word = UInt8.ofNat (word + 0x2000 * value.flags) := by
    rw [← UInt8.toNat_inj]
    simp only [UInt8.toNat_ofNat']
    omega
  simp only [stored, hdata, leBytes, if_true, List.cons_append, List.nil_append,
    List.modify_succ_cons, List.modify_zero_cons, hhigh, hlow]

/-! ## Values and tags, one after the other -/

/-- The number of bytes that values take. -/
def extent (values : List ValueImage) : Nat := (values.map (·.data.length)).sum

theorem extent_append (before later : List ValueImage) :
    extent (before ++ later) = extent before + extent later := by
  simp [extent]

theorem length_flatMap_stored (values : List ValueImage) :
    (values.flatMap (stored extended)).length = extent values := by
  simp [List.length_flatMap, extent]

theorem tags_append (offset : Nat) (before later : List ValueImage) :
    tags extended offset (before ++ later) =
      tags extended (offset + extent before) later ++ tags extended offset before := by
  induction before generalizing offset with
  | nil => simp [tags, extent]
  | cons value before ih =>
    have hextent : extent (value :: before) = value.data.length + extent before := by
      simp [extent]
    rw [List.cons_append, tags, ih, tags, hextent, Nat.add_assoc, List.append_assoc]

theorem length_tag (offset : Nat) (value : ValueImage) : (value.tag extended offset).length = 4 := by
  simp [tag]

theorem length_tags (offset : Nat) (values : List ValueImage) :
    (tags extended offset values).length = 4 * values.length := by
  induction values generalizing offset with
  | nil => rfl
  | cons value values ih =>
    rw [tags, List.length_append, ih, length_tag, List.length_cons]
    omega

/-- The tag of a value stands in front of the tags of the values before it. -/
theorem tags_split (extended : Bool) (offset : Nat) (before : List ValueImage) (value : ValueImage)
    (later : List ValueImage) :
    tags extended offset (before ++ value :: later) =
      tags extended (offset + extent before + value.data.length) later ++
        (value.tag extended (offset + extent before) ++ tags extended offset before) := by
  rw [tags_append, tags, List.append_assoc]

/-! ## What is read of a value -/

/-- Sizes and offsets are smaller than this. -/
def limit (extended : Bool) : Nat := if extended then 0x8000 else 0x2000

/-- What is read of a value that stands at `offset` of the data area. -/
def placed (extended : Bool) (offset : Nat) (value : ValueImage) : PageValue where
  data := value.stored extended
  flags :=
    if extended ∧ 2 ≤ value.data.length then .ofNat (((value.stored extended).u16At 0).toNat / 0x2000)
    else if extended then 0 else .ofNat value.flags
  offset := (if extended then 80 else 40) + offset
  flagsInside := extended

theorem ofWords_tag {data rest : Bytes} {place offset : Nat}
    (htag : data.RestAt place (value.tag extended offset ++ rest))
    (hoffset : offset < limit extended) (hsize : value.data.length < limit extended)
    (hflags : value.flags < 8) :
    PageTag.ofWords extended (data.u16At place) (data.u16At (place + 2)) =
      ⟨offset, value.data.length, if extended then 0 else .ofNat value.flags⟩ := by
  unfold limit at hoffset hsize
  rw [tag, List.append_assoc] at htag
  cases extended with
  | true =>
    simp only [if_true] at hoffset hsize htag
    have hsizeWord := htag.u16At_leBytes (by omega)
    have hoffsetWord : (data.u16At (place + 2)).toNat = offset :=
      htag.append.u16At_leBytes (by omega)
    simp only [PageTag.ofWords, hsizeWord, hoffsetWord, if_true, PageTag.mk.injEq, and_true]
    exact ⟨Nat.mod_eq_of_lt hoffset, Nat.mod_eq_of_lt hsize⟩
  | false =>
    simp only [Bool.false_eq_true, if_false] at hoffset hsize htag
    have hsizeWord := htag.u16At_leBytes (by omega)
    have hoffsetWord : (data.u16At (place + 2)).toNat = offset + 0x2000 * value.flags :=
      htag.append.u16At_leBytes (by omega)
    simp only [PageTag.ofWords, hsizeWord, hoffsetWord, Bool.false_eq_true, if_false,
      PageTag.mk.injEq]
    exact ⟨by omega, by omega, congrArg UInt8.ofNat (by omega)⟩

end ValueImage

namespace PageImage

open ValueImage

/-- **An image that a page can hold.** The offset of the last value is the largest one. -/
structure Fits (image : PageImage) : Prop where
  tagCount : image.values.length < 0x10000
  offsets : extent image.values.dropLast < limit image.extended
  sizes : ∀ value ∈ image.values, value.data.length < limit image.extended
  flags : ∀ value ∈ image.values, value.flags < 8
  used : image.used ≤ image.size

/-- The page that an image is written on. -/
def page (image : PageImage) (number : PageNumber) : Page := ⟨number, image.extended, image.bytes⟩

variable {image : PageImage} {number : PageNumber} {before later : List ValueImage}
  {value : ValueImage}

theorem length_header (image : PageImage) (number : PageNumber) :
    image.header.length = (image.page number).headerSize := by
  unfold header Page.headerSize page
  cases image.extended <;> simp [zeros]

theorem Fits.length_bytes (h : image.Fits) : image.bytes.length = image.size := by
  have hused := h.used
  have hparts : image.used = image.header.length + image.area.length + 4 * image.values.length := rfl
  simp only [bytes, List.length_append, length_tags, zeros, List.length_replicate]
  omega

theorem Fits.headerSize_add_le (h : image.Fits) (number : PageNumber) :
    (image.page number).headerSize + 4 * image.values.length ≤ image.size := by
  have hused := h.used
  rw [PageImage.used, length_header _ number] at hused
  omega

/-! ## The header -/

theorem restAt_header (image : PageImage) :
    ∃ rest, image.bytes.RestAt 0 (zeros 16 ++ (leBytes 4 image.previous.toNat ++
      (leBytes 4 image.next.toNat ++ (zeros 10 ++ (leBytes 2 image.values.length ++
        (leBytes 4 image.flags.toNat ++ rest)))))) := by
  refine ⟨(if image.extended then zeros 40 else []) ++ (image.area ++
    (zeros (image.size - image.used) ++ ValueImage.tags image.extended 0 image.values)),
    Nat.zero_le _, ?_⟩
  simp only [bytes, header, List.append_assoc, List.drop_zero]

theorem Fits.header_page (h : image.Fits) (number : PageNumber) :
    (image.page number).header.previous = image.previous ∧
      (image.page number).header.next = image.next ∧
      (image.page number).tagCount = image.values.length ∧
      (image.page number).flags = ⟨image.flags⟩ := by
  obtain ⟨rest, hstart⟩ := image.restAt_header
  have hprevious := hstart.append
  have hnext := hprevious.append
  have hcount := hnext.append.append
  have hflags := hcount.append
  refine ⟨hprevious.u32At, hnext.u32At, hcount.u16At_leBytes h.tagCount, ?_⟩
  exact congrArg PageFlags.mk hflags.u32At

/-! ## The two places of a value -/

theorem Fits.offset_lt (h : image.Fits) (hvalues : image.values = before ++ value :: later) :
    extent before < limit image.extended := by
  have hlast := h.offsets
  rw [hvalues, List.dropLast_append_of_ne_nil (List.cons_ne_nil _ _), extent_append] at hlast
  omega

/-- The value stands behind the values before it. -/
theorem restAt_value (number : PageNumber) (hvalues : image.values = before ++ value :: later) :
    ∃ rest, image.bytes.RestAt ((image.page number).headerSize + extent before)
      (value.stored image.extended ++ rest) := by
  -- The page as it is cut into the header, the values in front, this value and what is behind it.
  have harea := Bytes.restAt_append image.header (before.flatMap (stored image.extended) ++
    (value.stored image.extended ++ (later.flatMap (stored image.extended) ++
      (zeros (image.size - image.used) ++ tags image.extended 0 image.values))))
  have hbytes : image.bytes = image.header ++ (before.flatMap (stored image.extended) ++
      (value.stored image.extended ++ (later.flatMap (stored image.extended) ++
        (zeros (image.size - image.used) ++ tags image.extended 0 image.values)))) := by
    simp only [bytes, area, hvalues, List.flatMap_append, List.flatMap_cons, List.append_assoc]
  rw [← hbytes] at harea
  have hvalue := harea.append
  rw [length_header _ number, length_flatMap_stored] at hvalue
  exact ⟨_, hvalue⟩

/-- The tag stands in front of the tags of the values before it, and these end the page. -/
theorem restAt_tag (hvalues : image.values = before ++ value :: later) :
    image.bytes.RestAt (image.bytes.length - 4 * (before.length + 1))
      (value.tag image.extended (extent before) ++ tags image.extended 0 before) := by
  have hlength : (value.tag image.extended (extent before) ++
      tags image.extended 0 before).length = 4 * (before.length + 1) := by
    rw [List.length_append, length_tag, length_tags]
    omega
  have htags := tags_split image.extended 0 before value later
  rw [Nat.zero_add] at htags
  rw [bytes, hvalues, htags, ← List.append_assoc, ← hlength]
  exact Bytes.restAt_end _ _

/-! ## Reading them -/

theorem Fits.tag_page (h : image.Fits) (number : PageNumber)
    (hvalues : image.values = before ++ value :: later) :
    (image.page number).tag before.length =
      .ok ⟨extent before, value.data.length, if image.extended then 0 else .ofNat value.flags⟩ := by
  have hmem : value ∈ image.values := by simp [hvalues]
  have hwords := ofWords_tag (restAt_tag hvalues) (h.offset_lt hvalues) (h.sizes value hmem)
    (h.flags value hmem)
  have hcount : (image.page number).tagCount = image.values.length := (h.header_page number).2.2.1
  have hlength : (image.page number).data.length = image.size := h.length_bytes
  have hbefore : image.values.length = before.length + (later.length + 1) := by simp [hvalues]
  have hroom := h.headerSize_add_le number
  simp only [Page.tag, hcount]
  rw [if_neg (by omega), if_neg (by omega), ← hwords]
  rfl

/-- **A value is read as it was placed.** -/
theorem Fits.value_page (h : image.Fits) (number : PageNumber)
    (hvalues : image.values = before ++ value :: later) :
    (image.page number).value before.length = .ok (value.placed image.extended (extent before)) := by
  obtain ⟨rest, hrest⟩ := restAt_value number hvalues
  have harea : (image.page number).area.length = image.size - (image.page number).headerSize := by
    rw [Page.area, List.length_drop, ← h.length_bytes]
    rfl
  have hinside := hrest.length_eq
  rw [h.length_bytes, List.length_append, length_stored] at hinside
  have hfield : Bytes.field (image.page number).area (extent before) value.data.length =
      value.stored image.extended := by
    have hfield := hrest.field
    rw [length_stored] at hfield
    rw [Page.area, Bytes.field_drop]
    exact hfield
  simp only [Page.value, h.tag_page number hvalues, bind, Except.bind]
  rw [if_pos (by omega), hfield]
  simp only [Page.valueFlags, length_stored]
  rfl

end PageImage

end EseReader
