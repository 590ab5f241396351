/-!
# `EseReader/Format.lean` — which dialect a database file is written in

One file format, several dialects: later revisions lengthen the page header, number the pages in
their checksums, and store the tagged columns of a row behind an index instead of one after the
other. Every reader below takes a `Format`, which answers these questions once for the whole file.

The two layout switches are plain fields rather than functions of the version numbers, because a
caller may know better than the header and set them by hand.
-/

set_option autoImplicit false

namespace EseReader

/-- Pages are numbered from 1; the number 0 in a link means "no page". -/
abbrev PageNumber := UInt32

/-- The dialect in which pages and rows are read. -/
structure Format where
  /-- Pages carry the second header block of forty bytes. -/
  extendedHeader : Bool
  /-- Tagged columns stand one after the other, without an index of offsets. -/
  linearTagged : Bool
  pageSize : UInt32
  revision : UInt32
  deriving DecidableEq, Repr

namespace Format

/-- The only format version whose rows were ever written in the linear layout. -/
def currentVersion : UInt32 := 0x620

/-- The dialect that the version numbers of a file header imply. Both conditions of the extended
header are needed: small pages never have it, whatever their revision. -/
def ofVersions (version revision pageSize : UInt32) : Format where
  extendedHeader := decide (0x11 ≤ revision) && decide (16384 ≤ pageSize)
  linearTagged := version == currentVersion && decide (revision ≤ 2)
  pageSize := pageSize
  revision := revision

/-- What is assumed of a page set that comes without a file header. -/
def standard : Format := ofVersions currentVersion 0x14 8192

/-- Page checksums start from the page number from this revision on, and from a constant before. -/
def seedsWithPageNumber (f : Format) : Bool := decide (0x0c ≤ f.revision)

end Format

end EseReader
