import EseReader.Error

/-!
# `EseReader/Bytes.lean` — byte strings and the fields in them

A byte string is a list, so that cutting, joining and comparing are the list operations and their
lemmas. Two ways of reading: `field` cuts out a stretch and is total, `slice` is `field` behind a
check that the stretch lies inside, and names the field that does not. Numbers are read from a
stretch by `littleEndian`, which is defined on byte strings of any length; the writers
`leBytes` and `beBytes` stand beside the readers.
-/

set_option autoImplicit false

namespace EseReader

abbrev Bytes := List UInt8

/-- The number that a byte string spells, least significant byte first. -/
def littleEndian : Bytes → Nat
  | [] => 0
  | b :: rest => b.toNat + 256 * littleEndian rest

/-- The number that a byte string spells, most significant byte first. -/
def bigEndian (bytes : Bytes) : Nat := littleEndian bytes.reverse

/-- The `width` low bytes of `n`, least significant first. -/
def leBytes : (width n : Nat) → Bytes
  | 0, _ => []
  | width + 1, n => UInt8.ofNat n :: leBytes width (n / 256)

/-- The `width` low bytes of `n`, most significant first. -/
def beBytes (width n : Nat) : Bytes := (leBytes width n).reverse

namespace Bytes

/-- The `size` bytes from `offset` on, or as many of them as there are. -/
def field (data : Bytes) (offset size : Nat) : Bytes := (data.drop offset).take size

/-- The field of `size` bytes at `offset`, if it lies inside `data`. -/
def slice (data : Bytes) (offset size : Nat) (what : String) : Except Error Bytes :=
  let available := data.length
  if offset + size ≤ available then .ok (data.field offset size)
  else .error (.outOfBounds what offset size available)

theorem length_field {data : Bytes} {offset size : Nat} (h : offset + size ≤ data.length) :
    (data.field offset size).length = size := by
  rw [field, List.length_take, List.length_drop]
  omega

/-- A slice succeeds exactly if the field lies inside, and then it is the field. -/
theorem slice_eq_ok_iff {data bytes : Bytes} {offset size : Nat} {what : String} :
    data.slice offset size what = .ok bytes ↔
      offset + size ≤ data.length ∧ data.field offset size = bytes := by
  simp only [slice]
  split
  case isTrue h => simp [h]
  case isFalse h => simp [h]

def readU8 (data : Bytes) (offset : Nat) (what : String) : Except Error UInt8 :=
  (data.slice offset 1 what).map fun bytes => UInt8.ofNat (littleEndian bytes)

def readU16 (data : Bytes) (offset : Nat) (what : String) : Except Error UInt16 :=
  (data.slice offset 2 what).map fun bytes => UInt16.ofNat (littleEndian bytes)

def readU32 (data : Bytes) (offset : Nat) (what : String) : Except Error UInt32 :=
  (data.slice offset 4 what).map fun bytes => UInt32.ofNat (littleEndian bytes)

def readU64 (data : Bytes) (offset : Nat) (what : String) : Except Error UInt64 :=
  (data.slice offset 8 what).map fun bytes => UInt64.ofNat (littleEndian bytes)

/-! The same numbers where the caller knows that they lie inside; a byte that is missing counts as
zero. -/

def u16At (data : Bytes) (offset : Nat) : UInt16 := UInt16.ofNat (littleEndian (data.field offset 2))

def u32At (data : Bytes) (offset : Nat) : UInt32 := UInt32.ofNat (littleEndian (data.field offset 4))

def u64At (data : Bytes) (offset : Nat) : UInt64 := UInt64.ofNat (littleEndian (data.field offset 8))

/-- The bytes of a value that has to be exactly `width` bytes long. -/
def exactly (data : Bytes) (width : Nat) : Except Error Bytes :=
  if data.length = width then .ok data else .error (.spanSize width data.length)

end Bytes

/-! ## What the writers write -/

@[simp] theorem length_leBytes (width n : Nat) : (leBytes width n).length = width := by
  induction width generalizing n with
  | zero => rfl
  | succ width ih => simp [leBytes, ih]

/-- **Reading undoes writing**, for every number that fits the width. -/
theorem littleEndian_leBytes (width n : Nat) (h : n < Nat.pow 256 width) :
    littleEndian (leBytes width n) = n := by
  induction width generalizing n with
  | zero => simp only [Nat.pow_eq, Nat.pow_zero] at h; simp only [leBytes, littleEndian]; omega
  | succ width ih =>
    have hq : n / 256 < Nat.pow 256 width := by
      rw [Nat.pow_eq, Nat.pow_succ] at h
      exact Nat.div_lt_of_lt_mul (by rw [Nat.mul_comm]; exact h)
    simp only [leBytes, littleEndian, ih _ hq, UInt8.toNat_ofNat']
    omega

theorem littleEndian_lt (bytes : Bytes) : littleEndian bytes < Nat.pow 256 bytes.length := by
  induction bytes with
  | nil => simp [littleEndian]
  | cons b rest ih =>
    have hb := b.toNat_lt
    simp only [littleEndian, List.length_cons, Nat.pow_eq, Nat.pow_succ] at ih ⊢
    omega

end EseReader
