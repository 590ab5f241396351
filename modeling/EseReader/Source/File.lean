import EseReader.FileHeader
import EseReader.Source

/-!
# `EseReader/Source/File.lean` — pages in a database file

A file is a sequence of blocks of one page each. The first block holds the file header and the
second a copy of it, which counts as page 0; page `n` is the block after block `n`. Bytes behind
the last whole block belong to no page.
-/

set_option autoImplicit false

namespace EseReader

/-- A file whose header has been read and accepted. -/
structure DatabaseFile where
  path : String
  content : Bytes
  header : FileHeader
  pageCount : UInt32
  deriving DecidableEq, Repr

namespace DatabaseFile

/-- Opens the file at `path`; `content` is `none` where it cannot be opened. -/
def ofContent (path : String) (content : Option Bytes) : Except Error DatabaseFile :=
  match content with
  | none => .error (.unreadableFile path)
  | some content => do
    let size := content.length
    if size < FileHeader.size then throw (.shortFile path size)
    let header ← FileHeader.ofBytes content
    header.validate
    let blocks := size / header.effectivePageSize.toNat
    if blocks - 1 < 0x100000000 then
      return ⟨path, content, header, UInt32.ofNat (blocks - 1)⟩
    else throw (.unsupported (.filePages blocks))

def size (file : DatabaseFile) : Nat := file.content.length

def pageSize (file : DatabaseFile) : Nat := file.header.effectivePageSize.toNat

/-- The block of the file header. -/
def headerBlock (file : DatabaseFile) : Bytes := file.content.take file.pageSize

def page (file : DatabaseFile) (number : PageNumber) : Except Error Bytes :=
  if number < file.pageCount then
    .ok (file.content.field ((number.toNat + 1) * file.pageSize) file.pageSize)
  else .error (.pageOutsideFile number file.pageCount)

def source (file : DatabaseFile) : PageSource := ⟨file.pageSize, file.pageCount, file.page⟩

end DatabaseFile

end EseReader
