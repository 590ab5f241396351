import EseReader.Row.Header

/-!
# `EseReader/Row/Variable.lean` — the variable columns of a row

A table of 16-bit words, one for each variable column up to the last one stored, and behind it the
values without gaps. A word is the end of its value, counted from the end of the table; a value
starts where the present value before it ends. The top bit says that the column is **absent**, and
then the rest of the word means nothing.

What follows the last value is the tagged part of the row.
-/

set_option autoImplicit false

namespace EseReader

/-- A stretch of a row. -/
structure Span where
  start : Nat
  stop : Nat
  deriving DecidableEq, Repr

namespace Span

def cut (span : Span) (row : Bytes) : Bytes := row.field span.start (span.stop - span.start)

end Span

/-- The variable columns of a row and the start of the part behind them. -/
structure VariableRegion where
  spans : List (Option Span)
  stop : Nat
  deriving DecidableEq, Repr

namespace VariableRegion

/-- Reads the words of the columns from `column` on. `payload` is where values are counted from and
`previous` the end of the last present value. -/
def ofWords (rowLength payload : Nat) : (column previous : Nat) → List UInt16 →
    Except Error VariableRegion
  | _, previous, [] => .ok ⟨[], payload + previous⟩
  | column, previous, word :: words =>
    if 0x8000 ≤ word.toNat then do
      let region ← ofWords rowLength payload (column + 1) previous words
      return { region with spans := none :: region.spans }
    else
      let stop := word.toNat
      if stop < previous then .error (.variableOffsets column previous stop)
      else if rowLength < payload + stop then
        .error (.truncatedRow column (payload + previous) (stop - previous) rowLength)
      else do
        let region ← ofWords rowLength payload (column + 1) stop words
        return { region with spans := some ⟨payload + previous, payload + stop⟩ :: region.spans }

/-- The `count` words at `offset`. -/
def wordsAt (row : Bytes) (offset count : Nat) : List UInt16 :=
  (List.range count).map fun i => row.u16At (offset + 2 * i)

def ofRow (row : Bytes) (header : RowHeader) : Except Error VariableRegion :=
  let count := header.variableCount
  let table := header.variableOffset.toNat
  let rowLength := row.length
  if table < 4 ∨ rowLength < table + 2 * count then
    .error (.truncatedRow 128 table (2 * count) rowLength)
  else ofWords rowLength (table + 2 * count) 128 0 (wordsAt row table count)

end VariableRegion

end EseReader
