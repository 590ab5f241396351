import EseReader.Page
import EseReader.Proofs.Guarded

/-!
# `EseReader/Proofs/Page/Bounds.lean` — reading a page stays on it

A page is taken as such if it can hold a header and one tag. Everything else is tested when it is
reached for: that a tag does not overlap the header, whatever number of tags the header gives, and
that a value does not reach out of the data area. The guarded readers below make these tests and
then take the bytes. The one that nothing tests again is the checksum, which starts behind the
first eight bytes: it is covered by the length of the page.
-/

set_option autoImplicit false

namespace EseReader

namespace Guarded

/-- Takes bytes as a page. The one test here covers the whole header, and the four bytes more are room
for a tag. -/
def page (number : PageNumber) (data : Bytes) (format : Format) : Guarded Page := do
  let page : Page := ⟨number, format.extendedHeader, data⟩
  if data.length < page.headerSize + 4 then throw (.page number (.tooShort data.length))
  else
    let _ ← slice data 0 40 "page header"
    return page

/-- What stands behind the header, tags included. -/
def area (page : Page) : Guarded Bytes := drop page.data page.headerSize

/-- The tag at `index`, counted from the end of the page. That the header counts so many tags says
nothing about where they stand: what covers the two words is the second test. -/
def tag (page : Page) (index : Nat) : Guarded PageTag :=
  if page.tagCount ≤ index then throw (.page page.number (.noSuchTag index page.tagCount))
  else if page.data.length < page.headerSize + 4 * (index + 1) then
    throw (.page page.number (.tagInHeader index))
  else do
    let position ← minus page.data.length (4 * (index + 1))
    let size ← word page.data position "page tag size"
    let offset ← word page.data (position + 2) "page tag offset"
    return PageTag.ofWords page.extended size offset

/-- In the long layout the flags are in the first word of a value, if it has one. -/
def valueFlags (page : Page) (tagFlags : UInt8) (data : Bytes) : Guarded UInt8 :=
  if page.extended ∧ 2 ≤ data.length then do
    let low ← byte data 0
    let high ← byte data 1
    return .ofNat ((UInt16.ofNat (littleEndian [low, high])).toNat / 0x2000)
  else return tagFlags

/-- The value of the tag at `index`, cut out behind the test that it ends in the data area. -/
def value (page : Page) (index : Nat) : Guarded PageValue := do
  let tag ← tag page index
  let area ← area page
  if tag.offset + tag.size ≤ area.length then do
    let data ← cut area tag.offset (tag.offset + tag.size)
    let flags ← valueFlags page tag.flags data
    return { data := data
             flags := flags
             offset := page.headerSize + tag.offset
             flagsInside := page.extended }
  else throw (.page page.number (.valueOutside index tag.size tag.offset area.length))

/-- A root page has something else at tag 0. -/
def commonKey (page : Page) : Guarded (Option Key) :=
  if page.tagCount = 0 ∨ page.flags.isRoot then return none
  else do
    let value ← value page 0
    let key : Key := ⟨value.data⟩
    return some (if page.extended then key.maskByte 1 0x1f else key)

/-- No test stands in front of the bytes that the checksum covers. -/
def checksum (page : Page) (format : Format) : Guarded UInt32 :=
  if format.seedsWithPageNumber then do
    let covered ← drop page.data 8
    return xor32 covered page.number
  else do
    let covered ← drop page.data 4
    return xor32 covered checksumSeed

def verifyChecksum (page : Page) (format : Format) : Guarded Unit :=
  let stored := page.header.checksum
  if stored = 0 ∨ page.extended then return ()
  else do
    let calculated ← checksum page format
    if stored = calculated then return ()
    else throw (.checksum page.number stored calculated)

end Guarded

namespace Page

/-- Both layouts have the forty bytes that the fields of the header are in. -/
theorem le_headerSize (page : Page) : 40 ≤ page.headerSize := by
  unfold headerSize
  split <;> omega

/-- What the first test establishes, and all that is known of a page from then on. -/
theorem ofBytes_eq_ok_iff {number : PageNumber} {data : Bytes} {format : Format} {page : Page} :
    Page.ofBytes number data format = .ok page ↔
      page = ⟨number, format.extendedHeader, data⟩ ∧ page.headerSize + 4 ≤ data.length := by
  simp only [Page.ofBytes]
  split
  case isTrue hshort =>
    constructor
    · intro h
      cases h
    · rintro ⟨rfl, hlong⟩
      omega
  case isFalse hlong =>
    constructor
    · intro h
      cases h
      exact ⟨rfl, by omega⟩
    · rintro ⟨rfl, -⟩
      rfl

end Page

namespace Guarded

/-- The slice of the header is covered, since the first test asks for more than the header. -/
theorem page_eq (number : PageNumber) (data : Bytes) (format : Format) :
    page number data format = ofExcept (Page.ofBytes number data format) := by
  have hheader := Page.le_headerSize ⟨number, format.extendedHeader, data⟩
  simp only [page, Page.ofBytes]
  split
  · rfl
  · rw [slice_eq, Bytes.slice_eq_ok_iff.mpr ⟨by omega, rfl⟩, ok_bind, pure_eq]

variable {page : Page}

theorem area_eq (h : page.headerSize ≤ page.data.length) :
    area page = ofExcept (.ok page.area) :=
  drop_eq h

/-- A tag that is not in the header is on the page, on whatever page. -/
theorem tag_eq (page : Page) (index : Nat) : tag page index = ofExcept (page.tag index) := by
  simp only [tag, Page.tag]
  split
  · rfl
  · split
    · rfl
    · rw [minus_eq (by omega), ok_bind, word_eq_u16At (by omega), ok_bind,
        word_eq_u16At (by omega), ok_bind, pure_eq]

/-- Two bytes are there where two are looked at. -/
theorem valueFlags_eq (page : Page) (tagFlags : UInt8) (data : Bytes) :
    valueFlags page tagFlags data = ofExcept (.ok (page.valueFlags tagFlags data)) := by
  unfold valueFlags Page.valueFlags
  by_cases h : page.extended ∧ 2 ≤ data.length
  · rw [if_pos h, if_pos h]
    -- The test makes every shorter value impossible.
    match data, h with
    | low :: high :: rest, _ => rfl
  · rw [if_neg h, if_neg h, pure_eq]

/-- **A value is on its page**: it ends in the data area, which starts on the page. -/
theorem value_eq (h : page.headerSize ≤ page.data.length) (index : Nat) :
    value page index = ofExcept (page.value index) := by
  refine bind_ofExcept (tag_eq page index) ?_
  intro tag _
  rw [area_eq h, ok_bind]
  by_cases hinside : tag.offset + tag.size ≤ page.area.length
  · simp only [if_pos hinside]
    rw [cut_eq (Nat.le_add_right _ _) hinside, ok_bind, Nat.add_sub_cancel_left, valueFlags_eq,
      ok_bind, pure_eq]
    rfl
  · simp only [if_neg hinside]
    rfl

theorem commonKey_eq (h : page.headerSize ≤ page.data.length) :
    commonKey page = ofExcept page.commonKey := by
  unfold commonKey Page.commonKey
  split
  · rfl
  · exact bind_ofExcept (value_eq h 0) fun _ _ => rfl

/-- The checksum starts in the header, so the test that there is one covers it. -/
theorem checksum_eq (h : page.headerSize ≤ page.data.length) (format : Format) :
    checksum page format = ofExcept (.ok (page.checksum format)) := by
  have hheader := page.le_headerSize
  unfold checksum Page.checksum
  split <;> rw [drop_eq (by omega), ok_bind, pure_eq]

theorem verifyChecksum_eq (h : page.headerSize ≤ page.data.length) (format : Format) :
    verifyChecksum page format = ofExcept (page.verifyChecksum format) := by
  simp only [verifyChecksum, Page.verifyChecksum]
  split
  · rfl
  · rw [checksum_eq h, ok_bind]
    split <;> rfl

end Guarded

end EseReader
