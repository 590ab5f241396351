import EseReader.Bytes

/-!
# `EseReader/Compression/Xpress.lean` — values compressed by matches

The value is a sequence of **items**: a literal byte, or a match that repeats bytes already
produced. Items stand in groups of up to 32, each group behind a word with one bit per item, the
highest bit for the first item; a set bit is a match.

A match is a 16-bit word with the distance and a length of three bits. Longer lengths spill over:
into half a byte, of which the **second half waits for the next long match**, also across groups;
then into a byte; then into a word that replaces the length altogether.

`produce` reads a stream. Reading stops as soon as the announced size is reached or the stream
ends, **whichever comes first**.
-/

set_option autoImplicit false

namespace EseReader.Xpress

/-- The longest match that can be written. -/
def maxMatch : Nat := 32771

/-- Where a reader of a stream is. -/
structure Stream where
  /-- The bytes not read yet. -/
  rest : Bytes
  /-- The number of bytes read. -/
  position : Nat
  /-- The half of a length byte that no match has used. -/
  spareHalf : Option Nat

namespace Stream

/-- Takes a number of `width` bytes from the stream; the error names the field and says where in
the whole stream it should have been. -/
def number (s : Stream) (width : Nat) (what : String) : Except Error (Nat × Stream) :=
  let taken := s.rest.take width
  if taken.length = width then
    .ok (littleEndian taken, { s with rest := s.rest.drop width, position := s.position + width })
  else .error (.outOfBounds what s.position width (s.position + s.rest.length))

theorem number_rest_length {s s' : Stream} {width n : Nat} {what : String}
    (h : s.number width what = .ok (n, s')) : s'.rest.length + width = s.rest.length := by
  simp only [number] at h
  split at h
  case isTrue hw =>
    cases h
    simp only [List.length_take] at hw
    simp only [List.length_drop]
    omega
  case isFalse => cases h

/-- Half a byte of a match length: the spare half if there is one, else the low half of the next
byte, whose high half becomes the spare one. -/
def half (s : Stream) : Except Error (Nat × Stream) :=
  match s.spareHalf with
  | some n => .ok (n, { s with spareHalf := none })
  | none => do
    let (byte, s) ← s.number 1 "xpress length nibble"
    return (byte % 16, { s with spareHalf := some (byte / 16) })

theorem half_rest_le {s s' : Stream} {n : Nat} (h : s.half = .ok (n, s')) :
    s'.rest.length ≤ s.rest.length := by
  unfold half at h
  split at h
  · cases h; exact Nat.le_refl _
  · obtain ⟨r, hr, h⟩ := bind_eq_ok_iff.mp h
    have := number_rest_length hr
    cases h
    exact Nat.le_of_add_right_le (Nat.le_of_eq this)

/-- The part of a match length that does not fit in half a byte. -/
def longLength (s : Stream) (length : Nat) : Except Error (Nat × Stream) :=
  if length = 7 + 15 then do
    let (byte, s) ← s.number 1 "xpress length byte"
    let length := length + byte
    if length = 7 + 15 + 255 then s.number 2 "xpress length word" else return (length, s)
  else return (length, s)

theorem longLength_rest_le {s s' : Stream} {length n : Nat}
    (h : s.longLength length = .ok (n, s')) : s'.rest.length ≤ s.rest.length := by
  unfold longLength at h
  split at h
  · obtain ⟨r, hr, h⟩ := bind_eq_ok_iff.mp h
    have hle := number_rest_length hr
    simp only at h
    split at h
    · have := number_rest_length h; omega
    · cases h; omega
  · cases h; exact Nat.le_refl _

/-- The length of a match whose word has `code` in its lowest three bits, less the three bytes that
every match has. -/
def matchLength (s : Stream) (code : Nat) : Except Error (Nat × Stream) :=
  if code = 7 then do
    let (n, s) ← s.half
    s.longLength (7 + n)
  else return (code, s)

theorem matchLength_rest_le {s s' : Stream} {code n : Nat} (h : s.matchLength code = .ok (n, s')) :
    s'.rest.length ≤ s.rest.length := by
  unfold matchLength at h
  split at h
  · obtain ⟨r, hr, h⟩ := bind_eq_ok_iff.mp h
    exact Nat.le_trans (longLength_rest_le h) (half_rest_le hr)
  · cases h; exact Nat.le_refl _

/-- The distance and the length of a match. -/
def matchItem (s : Stream) : Except Error ((Nat × Nat) × Stream) := do
  let (word, s) ← s.number 2 "xpress match"
  let (length, s) ← s.matchLength (word % 8)
  return ((word / 8 + 1, length + 3), s)

theorem matchItem_rest_lt {s s' : Stream} {m : Nat × Nat} (h : s.matchItem = .ok (m, s')) :
    s'.rest.length < s.rest.length := by
  obtain ⟨r, hr, h⟩ := bind_eq_ok_iff.mp h
  obtain ⟨q, hq, h⟩ := bind_eq_ok_iff.mp h
  have hword := number_rest_length hr
  have hlength := matchLength_rest_le hq
  cases h
  exact Nat.lt_of_le_of_lt hlength (by omega)

end Stream

/-- Repeats `length` bytes from `distance` back, one by one: a match longer than its distance
repeats what it has just written. -/
def copyBack (out : Array UInt8) (distance : Nat) (length : Nat)
    (h : 0 < distance ∧ distance ≤ out.size) : Array UInt8 :=
  match length with
  | 0 => out
  | length + 1 =>
    copyBack (out.push out[out.size - distance]) distance length
      ⟨h.1, Nat.le_trans h.2 (by rw [Array.size_push]; exact Nat.le_succ _)⟩

/-- A match applied to what has been produced so far. No more is copied than the value lacks. -/
def applyMatch (out : Array UInt8) (distance length size : Nat) : Except Error (Array UInt8) :=
  if maxMatch < length then .error (.unsupported (.matchLength length))
  else if h : 0 < distance ∧ distance ≤ out.size then
    .ok (copyBack out distance (min length (size - out.size)) h)
  else .error (.outOfBounds "xpress match offset" distance length out.size)

/-- The bits of an indicator word, the highest first. -/
def indicatorBits (word : Nat) : List Bool := (List.range 32).map fun i => word.testBit (31 - i)

/-- Produces a value of `size` bytes. `group` holds the bits of the items that the current group
still has. -/
def produce (size : Nat) (s : Stream) (group : List Bool) (out : Array UInt8) :
    Except Error (Array UInt8) :=
  match _ : s.rest with
  | [] => .ok out
  | byte :: rest =>
    if size ≤ out.size then .ok out
    else match group with
      | [] =>
        match _ : s.number 4 "xpress indicator" with
        | .error e => .error e
        | .ok (word, s') => produce size s' (indicatorBits word) out
      | false :: group =>
        produce size { s with rest := rest, position := s.position + 1 } group (out.push byte)
      | true :: group =>
        match _ : s.matchItem with
        | .error e => .error e
        | .ok ((distance, length), s') =>
          match applyMatch out distance length size with
          | .error e => .error e
          | .ok out => produce size s' group out
termination_by s.rest.length
decreasing_by
  · have := Stream.number_rest_length ‹_›; omega
  · simp_all
  · exact Stream.matchItem_rest_lt ‹_›

end EseReader.Xpress
