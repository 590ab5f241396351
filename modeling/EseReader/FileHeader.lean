import EseReader.Checksum

/-!
# `EseReader/FileHeader.lean` — the header of a database file

The first block of a file says which program version wrote it, how large its pages are and whether
it was closed in order. Only the fields that somebody asks for are read.
-/

set_option autoImplicit false

namespace EseReader

/-- How a database was left by the program that last wrote it. -/
inductive DatabaseState where
  | justCreated
  | dirtyShutdown
  | cleanShutdown
  | beingConverted
  | forceDetach
  | unknown (code : UInt32)
  deriving DecidableEq, Repr

namespace DatabaseState

def ofCode (code : UInt32) : DatabaseState :=
  if code = 1 then justCreated
  else if code = 2 then dirtyShutdown
  else if code = 3 then cleanShutdown
  else if code = 4 then beingConverted
  else if code = 5 then forceDetach
  else unknown code

end DatabaseState

structure FileHeader where
  checksum : UInt32
  signature : UInt32
  version : UInt32
  fileType : UInt32
  databaseTime : Bytes
  databaseSignature : Bytes
  state : DatabaseState
  logSignature : Bytes
  lastObject : UInt32
  revision : UInt32
  pageSize : UInt32
  repairCount : UInt32
  creationVersion : UInt32
  creationRevision : UInt32
  deriving DecidableEq, Repr

namespace FileHeader

def size : Nat := 348

/-- The bytes of the first block that its checksum covers, the checksum itself included. -/
def checksumSize : Nat := 668

def fileSignature : UInt32 := 0x89abcdef

/-- The fields of a header, whatever they say. -/
def fields (data : Bytes) : FileHeader where
  checksum := data.u32At 0
  signature := data.u32At 4
  version := data.u32At 8
  fileType := data.u32At 12
  databaseTime := data.field 16 8
  databaseSignature := data.field 24 28
  state := DatabaseState.ofCode (data.u32At 52)
  logSignature := data.field 108 28
  lastObject := data.u32At 212
  revision := data.u32At 232
  pageSize := data.u32At 236
  repairCount := data.u32At 240
  creationVersion := data.u32At 340
  creationRevision := data.u32At 344

/-- The header at the start of `data`, recognised by its signature. -/
def ofBytes (data : Bytes) : Except Error FileHeader :=
  let length := data.length
  if length < size then .error (.outOfBounds "file header" 0 size length)
  else
    let header := fields data
    if header.signature = fileSignature then .ok header
    else .error (.unsupported (.signature header.signature))

/-- Files from before the page size was stored have zero in its place, and pages of 4096 bytes. -/
def effectivePageSize (header : FileHeader) : UInt32 :=
  if header.pageSize = 0 then 4096 else header.pageSize

def supportedPageSizes : List UInt32 := [2048, 4096, 8192, 16384, 32768]

/-- Whether the pages behind this header can be read: it must be a database, with pages of a known
size. -/
def validate (header : FileHeader) : Except Error Unit :=
  if header.fileType ≠ 0 then .error (.unsupported (.fileType header.fileType))
  else if header.effectivePageSize ∈ supportedPageSizes then .ok ()
  else .error (.unsupported (.pageSize header.effectivePageSize))

/-- Compares the checksum with the block the header stands in. After a dirty shutdown the stored
checksum may be out of date and is not tested. -/
def verifyChecksum (header : FileHeader) (block : Bytes) : Except Error Unit :=
  if header.state = .dirtyShutdown then .ok ()
  else do
    let covered ← block.slice 4 (checksumSize - 4) "file header block"
    let calculated := xor32 covered checksumSeed
    if calculated = header.checksum then return ()
    else throw (.checksum 0 header.checksum calculated)

/-- The dialect the file is written in. -/
def format (header : FileHeader) : Format :=
  Format.ofVersions header.version header.revision header.effectivePageSize

end FileHeader

end EseReader
