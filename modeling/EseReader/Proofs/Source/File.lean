import EseReader.Proofs.Bytes
import EseReader.Source.File

/-!
# `EseReader/Proofs/Source/File.lean` — files as they are written

A `FileImage` is a database file block by block: the header, a copy of it, the pages from 1 on, and
bytes behind the last whole block. The reader goes by positions instead. It takes the header from the
first bytes, divides the length of the file by the size of a page, and multiplies to find a page.
**What it finds are the blocks** (`ofContent_bytes`, `source_opened`): page `n` is the block behind block
`n`, the copy of the header counts as page 0, and no page reaches into the bytes at the end.
-/

set_option autoImplicit false

namespace EseReader

/-! ## Blocks of one size -/

namespace Bytes

theorem field_append_left {front : Bytes} {offset size : Nat} (h : offset + size ≤ front.length)
    (rest : Bytes) : Bytes.field (front ++ rest) offset size = front.field offset size := by
  rw [field, field, List.drop_append_of_le_length (by omega), List.take_append_of_le_length]
  rw [List.length_drop]
  omega

variable {blocks : List Bytes} {size : Nat}

theorem length_flatten_of_length (h : ∀ block ∈ blocks, block.length = size) :
    blocks.flatten.length = blocks.length * size := by
  have hlengths : blocks.map List.length = List.replicate blocks.length size :=
    List.eq_replicate_iff.mpr ⟨List.length_map _, List.forall_mem_map.mpr h⟩
  rw [List.length_flatten, hlengths, List.sum_replicate_nat]

/-- A block is found by counting the ones in front of it. -/
theorem field_flatten (h : ∀ block ∈ blocks, block.length = size) {index : Nat} {block : Bytes}
    (hblock : blocks[index]? = some block) (tail : Bytes) :
    Bytes.field (blocks.flatten ++ tail) (index * size) size = block := by
  obtain ⟨hindex, rfl⟩ := List.getElem?_eq_some_iff.mp hblock
  have hfront : (blocks.take index).flatten.length = index * size := by
    rw [length_flatten_of_length fun block hmem => h block (List.mem_of_mem_take hmem),
      List.length_take_of_le (Nat.le_of_lt hindex)]
  have hsplit : blocks.flatten ++ tail = (blocks.take index).flatten ++
      (blocks[index] ++ ((blocks.drop (index + 1)).flatten ++ tail)) := by
    rw [← List.append_assoc blocks[index], ← List.flatten_cons, ← List.drop_eq_getElem_cons hindex,
      ← List.append_assoc, ← List.flatten_append, List.take_append_drop]
  rw [hsplit, ← hfront, ← h blocks[index] (List.getElem_mem hindex)]
  exact (restAt_append _ _).field

end Bytes

/-! ## Files -/

/-- What stands in a database file. -/
structure FileImage where
  header : Bytes
  /-- The copy of the header, which counts as page 0. -/
  shadow : Bytes
  /-- The pages from 1 on. -/
  pages : List Bytes
  /-- Bytes behind the last whole block. -/
  tail : Bytes

namespace FileImage

/-- The pages from 0 on. -/
def numbered (image : FileImage) : List Bytes := image.shadow :: image.pages

def bytes (image : FileImage) : Bytes := (image.header :: image.numbered).flatten ++ image.tail

/-- What the header says. -/
def fields (image : FileImage) : FileHeader := FileHeader.fields image.header

def pageSize (image : FileImage) : Nat := image.fields.effectivePageSize.toNat

def pageCount (image : FileImage) : UInt32 := UInt32.ofNat image.numbered.length

/-- **A file that can be read**: a database with pages of a known size, of which there are not more
than a page number can count. -/
structure Fits (image : FileImage) : Prop where
  signature : image.fields.signature = FileHeader.fileSignature
  fileType : image.fields.fileType = 0
  pageSize : image.fields.effectivePageSize ∈ FileHeader.supportedPageSizes
  blocks : ∀ block ∈ image.header :: image.numbered, block.length = image.pageSize
  tail : image.tail.length < image.pageSize
  count : image.numbered.length < 0x100000000

instance {image : FileImage} : Decidable image.Fits :=
  decidable_of_iff
    (image.fields.signature = FileHeader.fileSignature ∧ image.fields.fileType = 0 ∧
      image.fields.effectivePageSize ∈ FileHeader.supportedPageSizes ∧
      (∀ block ∈ image.header :: image.numbered, block.length = image.pageSize) ∧
      image.tail.length < image.pageSize ∧ image.numbered.length < 0x100000000)
    ⟨fun ⟨hsignature, htype, hsize, hblocks, htail, hcount⟩ =>
        ⟨hsignature, htype, hsize, hblocks, htail, hcount⟩,
      fun h => ⟨h.signature, h.fileType, h.pageSize, h.blocks, h.tail, h.count⟩⟩

/-- The pages by number. -/
def source (image : FileImage) : PageSource where
  pageSize := image.pageSize
  pageCount := image.pageCount
  page number :=
    match image.numbered[number.toNat]? with
    | some block => .ok block
    | none => .error (.pageOutsideFile number image.pageCount)

/-- The file that is opened. -/
def opened (image : FileImage) (path : String) : DatabaseFile :=
  ⟨path, image.bytes, image.fields, image.pageCount⟩

variable {image : FileImage}

theorem Fits.pageSize_ge (h : image.Fits) : 2048 ≤ image.pageSize := by
  have hsizes : FileHeader.supportedPageSizes.map UInt32.toNat =
      [2048, 4096, 8192, 16384, 32768] := by decide
  have hmem : image.pageSize ∈ FileHeader.supportedPageSizes.map UInt32.toNat :=
    List.mem_map_of_mem h.pageSize
  simp only [hsizes, List.mem_cons, List.not_mem_nil, or_false] at hmem
  omega

theorem Fits.length_header (h : image.Fits) : image.header.length = image.pageSize :=
  h.blocks _ List.mem_cons_self

theorem bytes_eq (image : FileImage) :
    image.bytes = image.header ++ (image.numbered.flatten ++ image.tail) := by
  rw [bytes, List.flatten_cons, List.append_assoc]

theorem Fits.length_bytes (h : image.Fits) :
    image.bytes.length = image.tail.length + image.pageSize * (image.numbered.length + 1) := by
  rw [bytes, List.length_append, Bytes.length_flatten_of_length h.blocks, List.length_cons,
    Nat.mul_comm, Nat.add_comm]

/-- The header is read from the first bytes of the file, and nothing behind the first block is. -/
theorem Fits.fields_bytes (h : image.Fits) : FileHeader.fields image.bytes = image.fields := by
  have hlength := h.length_header
  have hsize := h.pageSize_ge
  rw [bytes_eq, fields, FileHeader.fields, FileHeader.fields]
  simp (disch := omega) only [Bytes.u32At, Bytes.field_append_left]

theorem ofContent_bytes (h : image.Fits) (path : String) :
    DatabaseFile.ofContent path (some image.bytes) = .ok (image.opened path) := by
  have hsize := h.pageSize_ge
  have hlength := h.length_bytes
  have hcount := h.count
  have hlong : ¬image.bytes.length < FileHeader.size := by
    rw [hlength, Nat.mul_succ, FileHeader.size]
    omega
  have hheader : FileHeader.ofBytes image.bytes = .ok image.fields := by
    simp only [FileHeader.ofBytes, h.fields_bytes]
    rw [if_neg hlong, if_pos h.signature]
  have hvalid : image.fields.validate = .ok () := by
    rw [FileHeader.validate, if_neg (not_not.mpr h.fileType), if_pos h.pageSize]
  have hblocks : image.bytes.length / image.pageSize = image.numbered.length + 1 := by
    rw [hlength, Nat.add_mul_div_left _ _ (by omega), Nat.div_eq_of_lt h.tail, Nat.zero_add]
  simp only [DatabaseFile.ofContent, if_neg hlong, hheader]
  show (image.fields.validate >>= fun _ => _) = _
  rw [hvalid]
  show (if image.bytes.length / image.pageSize - 1 < 0x100000000 then
    Except.ok (DatabaseFile.mk path image.bytes image.fields
      (.ofNat (image.bytes.length / image.pageSize - 1))) else _) = _
  rw [hblocks, Nat.add_sub_cancel, if_pos h.count]
  rfl

theorem headerBlock_opened (h : image.Fits) (path : String) :
    (image.opened path).headerBlock = image.header := by
  rw [DatabaseFile.headerBlock, opened, bytes_eq]
  exact List.take_left' h.length_header

theorem source_opened (h : image.Fits) (path : String) :
    (image.opened path).source = image.source := by
  rw [DatabaseFile.source, source]
  congr 1
  funext number
  have hcount : number < image.pageCount ↔ number.toNat < image.numbered.length := by
    rw [pageCount, UInt32.lt_iff_toNat_lt, UInt32.toNat_ofNat_of_lt' h.count]
  show (if number < image.pageCount then _ else _) = _
  split
  case isTrue hlt =>
    have hindex := hcount.mp hlt
    have hblock := List.getElem?_eq_getElem hindex
    -- The header is one block more in front.
    have hbehind : (image.header :: image.numbered)[number.toNat + 1]? =
        some image.numbered[number.toNat] := hblock
    rw [hblock]
    exact congrArg Except.ok (Bytes.field_flatten h.blocks hbehind image.tail)
  case isFalse hge =>
    rw [List.getElem?_eq_none (Nat.le_of_not_lt (mt hcount.mpr hge))]
    rfl

end FileImage

end EseReader
