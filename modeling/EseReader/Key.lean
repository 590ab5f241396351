import EseReader.Bytes

/-!
# `EseReader/Key.lean` — keys and their order

The entries of a tree are ordered by their keys, byte strings that are compared byte by byte. A
page stores the beginning that its keys share only once, so a whole key is put together from the
start of that common key and a local rest (`Key.compose`).

Some trees are sorted with the last byte as the most significant one; `KeyOrder` says which way
the keys of a tree are read.
-/

set_option autoImplicit false

namespace EseReader

structure Key where
  bytes : Bytes
  deriving DecidableEq, Repr

/-- From which end the keys of a tree are compared. -/
inductive KeyOrder where
  | forward
  | reversed
  deriving DecidableEq, Repr

namespace KeyOrder

/-- The bytes of a key, the most significant one first. -/
def significant (order : KeyOrder) (key : Key) : Bytes :=
  match order with
  | forward => key.bytes
  | reversed => key.bytes.reverse

/-- Bytes are unsigned, and a key comes before every longer key that starts with it. -/
def compare (order : KeyOrder) (a b : Key) : Ordering :=
  Ord.compare (order.significant a) (order.significant b)

/-- Whether a search for `target` goes into the child that `bound` closes: the child holds keys up
to and including its bound, and the empty key is no bound at all. -/
def covers (order : KeyOrder) (bound target : Key) : Bool :=
  bound.bytes.isEmpty || order.compare target bound != .gt

end KeyOrder

namespace Key

def empty : Key := ⟨[]⟩

def append (key : Key) (bytes : Bytes) : Key := ⟨key.bytes ++ bytes⟩

/-- The key that starts with `size` bytes of the common key and goes on with `rest`. A key that
takes nothing from the common key does not need one. -/
def compose (common : Option Bytes) (size : Nat) (rest : Bytes) : Except KeyFault Key :=
  if size = 0 then .ok ⟨rest⟩
  else match common with
    | none => .error (.noCommonKey size)
    | some bytes =>
      if size ≤ bytes.length then .ok ⟨bytes.take size ++ rest⟩
      else .error (.shortCommonKey size bytes.length)

/-- Keeps the bits of byte `index` that are in `mask`; a key without that byte stays as it is. -/
def maskByte (key : Key) (index : Nat) (mask : UInt8) : Key := ⟨key.bytes.modify index (· &&& mask)⟩

def startsWith (key : Key) (start : Bytes) : Bool := start.isPrefixOf key.bytes

/-- The bytes in hexadecimal, with blanks between them. -/
def render (key : Key) : String :=
  let digits := " ".intercalate (key.bytes.map (fun b => String.ofList (Hex.ofByte b)))
  s!"Key({digits})"

end Key

end EseReader
