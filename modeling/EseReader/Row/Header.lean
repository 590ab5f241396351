import EseReader.Bytes

/-!
# `EseReader/Row/Header.lean` — the header of a row

Four bytes: the highest fixed and the highest variable column that the row stores, and where the
offsets of the variable columns stand.
-/

set_option autoImplicit false

namespace EseReader

structure RowHeader where
  lastFixed : UInt8
  lastVariable : UInt8
  variableOffset : UInt16
  deriving DecidableEq, Repr

namespace RowHeader

def ofRow (row : Bytes) : Except Error RowHeader :=
  match row with
  | lastFixed :: lastVariable :: low :: high :: _ =>
    .ok ⟨lastFixed, lastVariable, UInt16.ofNat (littleEndian [low, high])⟩
  | _ => .error (.truncatedRow 0 0 4 row.length)

/-- Variable columns are numbered from 128 on. -/
def variableCount (header : RowHeader) : Nat := header.lastVariable.toNat - 127

end RowHeader

end EseReader
