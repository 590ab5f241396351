import EseReader.Source

/-!
# `EseReader/Source/Memory.lean` — pages held in memory

A set of pages of one size, filled page by page. A page that was never stored cannot be read, even
if its number is below the page count: nothing is made up for the gaps.
-/

set_option autoImplicit false

namespace EseReader

structure MemoryPages where
  pageSize : Nat
  /-- One more than the highest number ever stored. -/
  slots : Nat
  /-- What was stored, the latest first. -/
  stored : List (PageNumber × Bytes)
  deriving DecidableEq, Repr

namespace MemoryPages

def empty (pageSize : Nat) : MemoryPages := ⟨pageSize, 0, []⟩

/-- Stores a page, in the place of an earlier one of that number. -/
def set (pages : MemoryPages) (number : PageNumber) (data : Bytes) : Except Error MemoryPages :=
  let length := data.length
  if length = pages.pageSize then
    .ok { pages with
      slots := max pages.slots (number.toNat + 1)
      stored := (number, data) :: pages.stored }
  else .error (.pageLength number length pages.pageSize)

def get (pages : MemoryPages) (number : PageNumber) : Except Error Bytes :=
  match pages.stored.lookup number with
  | some data => .ok data
  | none => .error (.page number .notPresent)

/-- The number of slots, as far as it fits a page number. -/
def pageCount (pages : MemoryPages) : UInt32 := UInt32.ofNat pages.slots

def source (pages : MemoryPages) : PageSource := ⟨pages.pageSize, pages.pageCount, pages.get⟩

end MemoryPages

end EseReader
