import EseReader.Page

/-!
# `EseReader/Source.lean` — where pages come from

Everything above the page level reads pages through a `PageSource`: a function from page numbers to
bytes, with a page count that bounds how many pages can follow each other. A source that tests
checksums is an ordinary source put in front of another one.
-/

set_option autoImplicit false

namespace EseReader

structure PageSource where
  pageSize : Nat
  /-- No page at or above this number is ever needed to walk along a chain. -/
  pageCount : UInt32
  page : PageNumber → Except Error Bytes

namespace PageSource

/-- The same pages, each given out only after its checksum has been compared. -/
def verified (source : PageSource) (format : Format) : PageSource where
  pageSize := source.pageSize
  pageCount := source.pageCount
  page number := do
    let data ← source.page number
    let page ← Page.ofBytes number data format
    page.verifyChecksum format
    return data

end PageSource

end EseReader
