import EseReader.Proofs.Bytes
import EseReader.Proofs.Compression.Image
import EseReader.Proofs.Compression.Run

/-!
# `EseReader/Proofs/Compression/Xpress.lean` — expanding a stream undoes writing it

The writer fills in a half byte long after it has written the other one; the reader meets both at
once and keeps the second. To compare them, what is written is first said in the order in which it
is read (`encode_eq`): a new byte is written with the half that **the next long match behind it** will
want, and a reader that has kept a half has kept that one (`keptHalf`). Then each item is one step of
the reading, each group a run of them, and each stream a run of groups.
-/

set_option autoImplicit false

namespace EseReader

namespace Xpress

/-! ## What is written, without going back

The half byte that a later match will fill in is known when the byte is written. -/

/-- The half byte of a match that is long enough to have one. -/
def Item.half? : Item → Option Nat
  | literal _ => none
  | copy _ length => if 7 ≤ length - 3 then some (min (length - 10) 15) else none

/-- What comes into the half that is free in front of `items`. -/
def nextHalf (items : List Item) : Nat := (items.findSome? Item.half?).getD 0

/-- The bytes of a length behind its half byte. -/
def lengthBytes (length : Nat) : Bytes :=
  (if 22 ≤ length - 3 then [UInt8.ofNat (min (length - 25) 255)] else []) ++
    (if 277 ≤ length - 3 then leBytes 2 (length - 3) else [])

/-- The new byte for a half, if no half is free. -/
def halfBytes (free : Bool) (half? : Option Nat) (next : Nat) : Bytes :=
  match free, half? with
  | false, some n => [UInt8.ofNat (n + 16 * next)]
  | _, _ => []

@[simp] theorem halfBytes_none (free : Bool) (next : Nat) : halfBytes free none next = [] := by
  cases free <;> rfl

namespace Item

/-- The bytes that an item adds to a stream in which a half is free, or not, with `later` behind. -/
def bytes (free : Bool) (later : List Item) : Item → Bytes
  | literal byte => [byte]
  | copy distance length =>
    leBytes 2 ((distance - 1) * 8 + min (length - 3) 7) ++
      halfBytes free (copy distance length).half? (nextHalf later) ++ lengthBytes length

/-- Whether a half is free behind an item. -/
def freeAfter (free : Bool) (item : Item) : Bool := item.half?.isSome != free

end Item

/-- The bytes of the items of a group, with `later` behind the group. -/
def itemBytes (free : Bool) (later : List Item) : (items : List Item) → Bytes
  | [] => []
  | item :: items =>
    item.bytes free (items ++ later) ++ itemBytes (item.freeAfter free) later items

/-- Whether a half is free behind items. -/
def freeBehind (free : Bool) (items : List Item) : Bool := items.foldl Item.freeAfter free

/-- The bytes of groups of items. -/
def groupBytes (free : Bool) : (items : List Item) → Bytes
  | [] => []
  | item :: items =>
    leBytes 4 (indicator ((item :: items).take 32)) ++
      itemBytes free ((item :: items).drop 32) ((item :: items).take 32) ++
      groupBytes (freeBehind free ((item :: items).take 32)) ((item :: items).drop 32)
termination_by items => items.length
decreasing_by simp only [List.length_drop, List.length_cons]; omega

namespace Writer

/-- The bytes written so far, once `n` has come into the free half. -/
def settled (w : Writer) (n : Nat) : Bytes :=
  match w.waiting with
  | none => w.done
  | some (low, behind) => w.done ++ UInt8.ofNat (low + 16 * n) :: behind

def free (w : Writer) : Bool := w.waiting.isSome

theorem bytes_eq_settled (w : Writer) : w.bytes = w.settled 0 := by
  rcases w with ⟨done, _ | ⟨low, behind⟩⟩ <;> rfl

theorem settled_put (w : Writer) (part : Bytes) (n : Nat) :
    (w.put part).settled n = w.settled n ++ part := by
  rcases w with ⟨done, _ | ⟨low, behind⟩⟩
  · rfl
  · simp only [put, settled, List.append_assoc, List.cons_append]

theorem free_put (w : Writer) (part : Bytes) : (w.put part).free = w.free := by
  rcases w with ⟨done, _ | ⟨low, behind⟩⟩ <;> rfl

theorem settled_half (w : Writer) (n next : Nat) :
    (w.half n).settled next = w.settled n ++ halfBytes w.free (some n) next := by
  rcases w with ⟨done, _ | ⟨low, behind⟩⟩
  · rfl
  · simp only [half, settled, free, Option.isSome, halfBytes, List.append_nil]

theorem free_half (w : Writer) (n : Nat) : (w.half n).free = !w.free := by
  rcases w with ⟨done, _ | ⟨low, behind⟩⟩ <;> rfl

theorem free_item (w : Writer) (item : Item) : (w.item item).free = item.freeAfter w.free := by
  cases item with
  | literal byte => exact (free_put w _).trans (by cases w.free <;> rfl)
  | copy distance length =>
    simp only [Writer.item, copy, Item.freeAfter, Item.half?]
    split <;> split <;> split <;> simp only [free_put, free_half, Option.isSome] <;>
      cases w.free <;> rfl

/-- The bytes of a length behind its half byte are put one after the other. -/
theorem settled_lengthBytes (w : Writer) (length n : Nat) :
    let w' := if 22 ≤ length - 3 then w.put [UInt8.ofNat (min (length - 25) 255)] else w
    (if 277 ≤ length - 3 then w'.put (leBytes 2 (length - 3)) else w').settled n =
      w.settled n ++ lengthBytes length := by
  unfold lengthBytes
  split <;> split <;> simp only [settled_put, List.append_assoc, List.append_nil, List.nil_append]

theorem settled_item (w : Writer) (item : Item) (later : List Item) :
    (w.item item).settled (nextHalf later) =
      w.settled (nextHalf (item :: later)) ++ item.bytes w.free later := by
  cases item with
  | literal byte => exact settled_put w _ _
  | copy distance length =>
    simp only [Writer.item, copy, settled_lengthBytes, Item.bytes, nextHalf, List.findSome?_cons]
    by_cases hlong : 7 ≤ length - 3
    · have hhalf : (Item.copy distance length).half? = some (min (length - 10) 15) := if_pos hlong
      simp only [if_pos hlong, hhalf, settled_half, settled_put, free_put, List.append_assoc]
      rfl
    · have hhalf : (Item.copy distance length).half? = none := if_neg hlong
      simp only [if_neg hlong, hhalf, settled_put, halfBytes_none, List.append_nil,
        List.append_assoc]

theorem settled_foldl (w : Writer) (items later : List Item) :
    (items.foldl item w).settled (nextHalf later) =
      w.settled (nextHalf (items ++ later)) ++ itemBytes w.free later items := by
  induction items generalizing w with
  | nil => exact (List.append_nil _).symm
  | cons item items ih =>
    rw [List.foldl_cons, ih, settled_item, free_item, List.append_assoc]
    rfl

theorem free_foldl (w : Writer) (items : List Item) :
    (items.foldl item w).free = freeBehind w.free items := by
  induction items generalizing w with
  | nil => rfl
  | cons item items ih => rw [List.foldl_cons, ih, free_item]; rfl

theorem settled_groups (w : Writer) (items : List Item) :
    (w.groups items).settled 0 = w.settled (nextHalf items) ++ groupBytes w.free items := by
  induction w, items using Writer.groups.induct with
  | case1 w =>
    rw [groups, groupBytes, List.append_nil]
    rfl
  | case2 w item items ih =>
    rw [groups, groupBytes, ih, Writer.group, settled_foldl, free_foldl, settled_put, free_put,
      List.take_append_drop, List.append_assoc, List.append_assoc, List.append_assoc]

end Writer

theorem encode_eq (items : List Item) :
    encode items = Compression.matchMarker :: leBytes 2 (Item.total items) ++
      groupBytes false items := by
  rw [encode, Writer.bytes_eq_settled, Writer.settled_groups]
  rfl

/-! ## Reading -/

namespace Stream

theorem number_append (part tail : Bytes) (position : Nat) (spareHalf : Option Nat)
    (what : String) :
    Stream.number ⟨part ++ tail, position, spareHalf⟩ part.length what =
      .ok (littleEndian part, ⟨tail, position + part.length, spareHalf⟩) := by
  simp only [number, List.take_left, List.drop_left, if_true]

theorem number_leBytes {width n : Nat} (hn : n < 256 ^ width) (tail : Bytes) (position : Nat)
    (spareHalf : Option Nat) (what : String) :
    Stream.number ⟨leBytes width n ++ tail, position, spareHalf⟩ width what =
      .ok (n, ⟨tail, position + width, spareHalf⟩) := by
  have h := number_append (leBytes width n) tail position spareHalf what
  rwa [length_leBytes, littleEndian_leBytes width n hn] at h

theorem number_byte {n : Nat} (hn : n < 256) (tail : Bytes) (position : Nat)
    (spareHalf : Option Nat) (what : String) :
    Stream.number ⟨UInt8.ofNat n :: tail, position, spareHalf⟩ 1 what =
      .ok (n, ⟨tail, position + 1, spareHalf⟩) :=
  number_leBytes (show n < 256 ^ 1 from hn) tail position spareHalf what

end Stream

/-- The half byte that a reader has kept in front of `items`. -/
def keptHalf (free : Bool) (items : List Item) : Option Nat :=
  if free then some (nextHalf items) else none

theorem nextHalf_lt (items : List Item) : nextHalf items < 16 := by
  unfold nextHalf
  cases hhalf : items.findSome? Item.half? with
  | none => exact Nat.succ_pos 15
  | some n =>
    obtain ⟨item, -, hitem⟩ := List.exists_of_findSome?_eq_some hhalf
    cases item with
    | literal byte => cases hitem
    | copy distance length =>
      simp only [Item.half?] at hitem
      split at hitem
      · cases hitem
        exact Nat.lt_succ_of_le (Nat.min_le_right _ _)
      · cases hitem

namespace Stream

theorem half_halfBytes (free : Bool) {n next : Nat} (hn : n < 16) (hnext : next < 16)
    (tail : Bytes) (position : Nat) :
    ∃ position', half ⟨halfBytes free (some n) next ++ tail, position,
        if free then some n else none⟩ =
      .ok (n, ⟨tail, position', if free then none else some next⟩) := by
  cases free with
  | true => exact ⟨position, rfl⟩
  | false =>
    refine ⟨position + 1, ?_⟩
    have hread := number_byte (show n + 16 * next < 256 by omega) tail position none
      "xpress length nibble"
    have hlow : (n + 16 * next) % 16 = n := by omega
    have hhigh : (n + 16 * next) / 16 = next := by omega
    show (Stream.number ⟨UInt8.ofNat (n + 16 * next) :: tail, position, none⟩ 1 _ >>= _) = _
    rw [hread]
    show Except.ok ((n + 16 * next) % 16, _) = _
    simp only [hlow, hhigh]
    rfl

theorem longLength_lengthBytes {length : Nat} (hlong : 7 ≤ length - 3) (hmax : length ≤ 32771)
    (tail : Bytes) (position : Nat) (spareHalf : Option Nat) :
    ∃ position', longLength ⟨lengthBytes length ++ tail, position, spareHalf⟩
        (7 + min (length - 10) 15) = .ok (length - 3, ⟨tail, position', spareHalf⟩) := by
  by_cases hbyte : 22 ≤ length - 3
  · have hhalf : 7 + min (length - 10) 15 = 7 + 15 := by omega
    rw [longLength, if_pos hhalf, lengthBytes, if_pos hbyte]
    by_cases hword : 277 ≤ length - 3
    · have hsum : 7 + min (length - 10) 15 + min (length - 25) 255 = 7 + 15 + 255 := by omega
      have hread := number_byte (show min (length - 25) 255 < 256 by omega)
        (leBytes 2 (length - 3) ++ tail) position spareHalf "xpress length byte"
      refine ⟨position + 1 + 2, ?_⟩
      rw [if_pos hword, List.append_assoc]
      show (Stream.number ⟨_ :: (leBytes 2 (length - 3) ++ tail), position, spareHalf⟩ 1 _ >>= _) = _
      rw [hread]
      show (if _ = 7 + 15 + 255 then Stream.number _ 2 _ else _) = _
      rw [if_pos hsum]
      exact number_leBytes (show length - 3 < 256 ^ 2 by omega) tail _ spareHalf _
    · have hsum : 7 + min (length - 10) 15 + min (length - 25) 255 = length - 3 := by omega
      have hread := number_byte (show min (length - 25) 255 < 256 by omega) tail position spareHalf
        "xpress length byte"
      refine ⟨position + 1, ?_⟩
      rw [if_neg hword, List.append_nil]
      show (Stream.number ⟨_ :: tail, position, spareHalf⟩ 1 _ >>= _) = _
      rw [hread]
      show (if _ = 7 + 15 + 255 then Stream.number _ 2 _ else _) = _
      rw [hsum, if_neg (by omega)]
      rfl
  · have hhalf : 7 + min (length - 10) 15 = length - 3 := by omega
    refine ⟨position, ?_⟩
    rw [longLength, hhalf, if_neg (by omega), lengthBytes, if_neg hbyte, if_neg (by omega)]
    rfl

theorem matchLength_bytes (distance : Nat) {length : Nat} (hlength : 3 ≤ length ∧ length ≤ 32771)
    (free : Bool) (later : List Item) (tail : Bytes) (position : Nat) :
    ∃ position', matchLength ⟨halfBytes free (Item.copy distance length).half? (nextHalf later) ++
        (lengthBytes length ++ tail), position, keptHalf free (.copy distance length :: later)⟩
        (min (length - 3) 7) =
      .ok (length - 3,
        ⟨tail, position', keptHalf ((Item.copy distance length).freeAfter free) later⟩) := by
  by_cases hlong : 7 ≤ length - 3
  · have hhalf : (Item.copy distance length).half? = some (min (length - 10) 15) := if_pos hlong
    have hkept : keptHalf free (.copy distance length :: later) =
        if free then some (min (length - 10) 15) else none := by
      simp only [keptHalf, nextHalf, List.findSome?_cons, hhalf, Option.getD_some]
    have hbehind : keptHalf ((Item.copy distance length).freeAfter free) later =
        if free then none else some (nextHalf later) := by
      rw [Item.freeAfter, hhalf]
      cases free <;> rfl
    obtain ⟨position₁, hread⟩ := half_halfBytes free (show min (length - 10) 15 < 16 by omega)
      (nextHalf_lt later) (lengthBytes length ++ tail) position
    obtain ⟨position₂, hlong⟩ := longLength_lengthBytes hlong hlength.2 tail position₁
      (if free then none else some (nextHalf later))
    refine ⟨position₂, ?_⟩
    rw [matchLength, if_pos (by omega), hhalf, hkept, hbehind, hread]
    exact hlong
  · have hhalf : (Item.copy distance length).half? = none := if_neg hlong
    have hbytes : lengthBytes length = [] := by
      rw [lengthBytes, if_neg (by omega), if_neg (by omega)]
      rfl
    have hkept : keptHalf free (.copy distance length :: later) =
        keptHalf ((Item.copy distance length).freeAfter free) later := by
      simp only [keptHalf, nextHalf, List.findSome?_cons, Item.freeAfter, hhalf]
      cases free <;> rfl
    refine ⟨position, ?_⟩
    rw [matchLength, if_neg (by omega), Nat.min_eq_left (by omega), hhalf, hbytes, halfBytes_none,
      hkept]
    rfl

/-- A match is read as it was written. -/
theorem matchItem_bytes {distance length : Nat} (hdistance : 1 ≤ distance ∧ distance ≤ 8192)
    (hlength : 3 ≤ length ∧ length ≤ 32771) (free : Bool) (later : List Item) (tail : Bytes)
    (position : Nat) :
    ∃ position', matchItem ⟨(Item.copy distance length).bytes free later ++ tail, position,
        keptHalf free (.copy distance length :: later)⟩ =
      .ok ((distance, length),
        ⟨tail, position', keptHalf ((Item.copy distance length).freeAfter free) later⟩) := by
  have hcode : ((distance - 1) * 8 + min (length - 3) 7) % 8 = min (length - 3) 7 := by omega
  have hback : ((distance - 1) * 8 + min (length - 3) 7) / 8 + 1 = distance := by omega
  have hread := number_leBytes
    (show (distance - 1) * 8 + min (length - 3) 7 < 256 ^ 2 by omega)
    (halfBytes free (Item.copy distance length).half? (nextHalf later) ++
      (lengthBytes length ++ tail)) position (keptHalf free (.copy distance length :: later))
    "xpress match"
  obtain ⟨position', hmatch⟩ := matchLength_bytes distance hlength free later tail
    (position + 2)
  refine ⟨position', ?_⟩
  rw [Item.bytes, List.append_assoc, List.append_assoc, matchItem, hread]
  show (matchLength _ (_ % 8) >>= _) = _
  rw [hcode, hmatch]
  show Except.ok ((_ + 1, length - 3 + 3), _) = _
  rw [hback, Nat.sub_add_cancel hlength.1]

end Stream

/-! ## Producing -/

/-- Copying in an array is copying in a list. -/
theorem toList_copyBack (out : Array UInt8) (distance length : Nat)
    (h : 0 < distance ∧ distance ≤ out.size) :
    (copyBack out distance length h).toList = Item.repeatBack out.toList distance length := by
  induction length generalizing out with
  | zero => rfl
  | succ length ih =>
    have hinside : out.size - distance < out.size := by omega
    rw [copyBack, ih, Item.repeatBack, Array.toList_push, Array.length_toList, List.getD_eq_getElem?_getD,
      Array.getElem?_toList, Array.getElem?_eq_getElem hinside, Option.getD_some]

theorem length_repeatBack (out : Bytes) (distance length : Nat) :
    (Item.repeatBack out distance length).length = out.length + length := by
  induction length generalizing out with
  | zero => rfl
  | succ length ih =>
    rw [Item.repeatBack, ih, List.length_append, List.length_singleton, Nat.add_assoc, Nat.add_comm 1]

theorem length_extend (out : Bytes) (item : Item) :
    (item.extend out).length = out.length + item.size := by
  cases item with
  | literal byte => exact List.length_append
  | copy distance length => exact length_repeatBack out distance length

/-- A match that the value has room for is produced whole. -/
theorem applyMatch_eq {out : Array UInt8} {distance length size : Nat}
    (hdistance : 0 < distance ∧ distance ≤ out.size) (hmax : length ≤ maxMatch)
    (hroom : out.size + length ≤ size) :
    ∃ out', applyMatch out distance length size = .ok out' ∧
      out'.toList = Item.repeatBack out.toList distance length := by
  have hwhole : min length (size - out.size) = length := by omega
  refine ⟨copyBack out distance length hdistance, ?_, toList_copyBack out distance length hdistance⟩
  rw [applyMatch, if_neg (Nat.not_lt.mpr hmax), dif_pos hdistance, hwhole]

/-! ## Runs -/

theorem bytes_ne_nil (free : Bool) (later : List Item) (item : Item) :
    item.bytes free later ≠ [] := by
  cases item <;> exact List.cons_ne_nil _ _

variable {size : Nat}

theorem size_pos_of_fits {item : Item} {produced : Nat} (h : item.Fits produced) :
    0 < item.size := by
  cases item with
  | literal byte => exact Nat.one_pos
  | copy distance length =>
    have := h.2.2.1
    exact Nat.lt_of_lt_of_le (by decide) this

/-- **One item**: what was written for it is read, and what it stands for is produced. -/
theorem step_item {item : Item} {out : Array UInt8} (hfits : item.Fits out.size)
    (hroom : out.size + item.size ≤ size) (free : Bool) (later : List Item) (tail : Bytes)
    (position : Nat) (group : List Bool) :
    ∃ position' out', Progress.Step size
        ⟨⟨item.bytes free later ++ tail, position, keptHalf free (item :: later)⟩,
          item.isCopy :: group, out⟩
        ⟨⟨tail, position', keptHalf (item.freeAfter free) later⟩, group, out'⟩ ∧
      out'.toList = item.extend out.toList := by
  have hpos := size_pos_of_fits hfits
  have hover (position : Nat) (group : List Bool) : ¬ Progress.Over size
      ⟨⟨item.bytes free later ++ tail, position, keptHalf free (item :: later)⟩, group, out⟩ := by
    rintro (hnil | hdone)
    · exact bytes_ne_nil free later item (List.append_eq_nil_iff.mp hnil).1
    · exact absurd hdone (Nat.not_le.mpr (by show out.size < size; omega))
  cases item with
  | literal byte =>
    refine ⟨position + 1, out.push byte, ⟨hover _ _, ?_⟩, Array.toList_push⟩
    cases free <;> rfl
  | copy distance length =>
    obtain ⟨hdistance, hback, hlength⟩ := hfits
    obtain ⟨position', hread⟩ := Stream.matchItem_bytes hdistance hlength free later tail position
    obtain ⟨out', happly, hout⟩ := applyMatch_eq ⟨hdistance.1, hback⟩ hlength.2 hroom
    refine ⟨position', out', ⟨hover _ _, ?_⟩, hout⟩
    show (Stream.matchItem _ >>= _) = _
    rw [hread]
    show (applyMatch out distance length size >>= _) = _
    rw [happly]
    rfl

/-- The items of a group, one after the other. -/
theorem steps_items {items : List Item} {out : Array UInt8} (hfit : Item.Fit out.size items)
    (hroom : out.size + Item.total items ≤ size) (free : Bool) (later : List Item) (tail : Bytes)
    (position : Nat) (group : List Bool) :
    ∃ position' out', Progress.Steps size
        ⟨⟨itemBytes free later items ++ tail, position, keptHalf free (items ++ later)⟩,
          items.map Item.isCopy ++ group, out⟩
        ⟨⟨tail, position', keptHalf (freeBehind free items) later⟩, group, out'⟩ ∧
      out'.toList = items.foldl Item.extend out.toList := by
  induction items generalizing out free position with
  | nil => exact ⟨position, out, .refl, rfl⟩
  | cons item items ih =>
    obtain ⟨hfits, hfit⟩ := hfit
    have htotal : Item.total (item :: items) = item.size + Item.total items := List.sum_cons
    have hroom₁ : out.size + item.size ≤ size := by omega
    obtain ⟨position₁, out₁, hstep, hout₁⟩ := step_item hfits hroom₁ free (items ++ later)
      (itemBytes (item.freeAfter free) later items ++ tail) position
      (items.map Item.isCopy ++ group)
    have hsize : out₁.size = out.size + item.size := by
      rw [← Array.length_toList, hout₁, length_extend, Array.length_toList]
    obtain ⟨position₂, out₂, hsteps, hout₂⟩ := ih (hsize ▸ hfit) (by omega) (item.freeAfter free)
      position₁
    refine ⟨position₂, out₂, .head ?_ hsteps, by rw [hout₂, hout₁, List.foldl_cons]⟩
    rw [itemBytes, List.append_assoc]
    exact hstep

/-! ## Indicator words -/

theorem ofBits_lt (bits : List Bool) : ofBits bits < 2 ^ bits.length := by
  induction bits with
  | nil => exact Nat.one_pos
  | cons bit bits ih =>
    have hbit := bit.toNat_le
    have := Nat.mul_le_mul_right (2 ^ bits.length) hbit
    rw [ofBits, List.length_cons, Nat.pow_succ]
    omega

theorem testBit_ofBits (bits : List Bool) {i : Nat} (h : i < bits.length) :
    (ofBits bits).testBit (bits.length - 1 - i) = bits[i] := by
  induction bits generalizing i with
  | nil => cases h
  | cons bit bits ih =>
    rw [ofBits, Nat.mul_comm, Nat.testBit_two_pow_mul_add _ (ofBits_lt bits), List.length_cons,
      Nat.add_sub_cancel]
    cases i with
    | zero =>
      rw [Nat.sub_zero, if_neg (Nat.lt_irrefl _), Nat.sub_self]
      cases bit <;> rfl
    | succ i =>
      have hi : i < bits.length := Nat.succ_lt_succ_iff.mp h
      rw [if_pos (by omega), List.getElem_cons_succ, ← ih hi]
      congr 1
      omega

theorem indicatorBits_ofBits {bits : List Bool} (h : bits.length = 32) :
    indicatorBits (ofBits bits) = bits := by
  refine List.ext_getElem (by rw [indicatorBits, List.length_map, List.length_range, h]) ?_
  intro i _ hi
  have hbit := testBit_ofBits bits hi
  rw [h] at hbit
  simpa [indicatorBits] using hbit

theorem indicatorBits_indicator {group : List Item} (h : group.length ≤ 32) :
    indicatorBits (indicator group) =
      group.map Item.isCopy ++ List.replicate (32 - group.length) false :=
  indicatorBits_ofBits (by rw [List.length_append, List.length_map, List.length_replicate]; omega)

theorem indicator_lt {group : List Item} (h : group.length ≤ 32) : indicator group < 256 ^ 4 := by
  have hlt := ofBits_lt (group.map Item.isCopy ++ List.replicate (32 - group.length) false)
  rw [List.length_append, List.length_map, List.length_replicate, Nat.add_sub_cancel' h] at hlt
  exact hlt

/-! ## Whole streams -/

theorem length_foldl_extend (items : List Item) (out : Bytes) :
    (items.foldl Item.extend out).length = out.length + Item.total items := by
  induction items generalizing out with
  | nil => rfl
  | cons item items ih =>
    rw [List.foldl_cons, ih, length_extend, Item.total, Item.total, List.map_cons, List.sum_cons,
      Nat.add_assoc]

theorem fit_append {produced : Nat} {front rest : List Item} :
    Item.Fit produced (front ++ rest) ↔
      Item.Fit produced front ∧ Item.Fit (produced + Item.total front) rest := by
  induction front generalizing produced with
  | nil => simp [Item.Fit, Item.total]
  | cons item front ih =>
    rw [List.cons_append, Item.Fit, Item.Fit, ih, Item.total, Item.total, List.map_cons,
      List.sum_cons, Nat.add_assoc, and_assoc]

/-- A whole group: its word, and its items. -/
theorem steps_group {group : List Item} (later : List Item) {out : Array UInt8} (hfit : Item.Fit out.size group)
    (hlength : group.length ≤ 32) (hnil : group ≠ []) (hroom : out.size + Item.total group ≤ size)
    (free : Bool) (tail : Bytes) (position : Nat) :
    ∃ position' out', Progress.Steps size
        ⟨⟨leBytes 4 (indicator group) ++ (itemBytes free later group ++ tail), position,
          keptHalf free (group ++ later)⟩, [], out⟩
        ⟨⟨tail, position', keptHalf (freeBehind free group) later⟩,
          List.replicate (32 - group.length) false, out'⟩ ∧
      out'.toList = group.foldl Item.extend out.toList := by
  obtain ⟨position', out', hsteps, hout⟩ := steps_items hfit hroom free later tail (position + 4)
    (List.replicate (32 - group.length) false)
  refine ⟨position', out', .head ⟨?_, ?_⟩ hsteps, hout⟩
  · rintro (hrest | hdone)
    · cases hrest
    · cases group with
      | nil => exact hnil rfl
      | cons item group =>
        have hpos := size_pos_of_fits hfit.1
        have htotal : Item.total (item :: group) = item.size + Item.total group := List.sum_cons
        have : size ≤ out.size := hdone
        omega
  · have hread := Stream.number_leBytes (indicator_lt hlength) (itemBytes free later group ++ tail)
      position (keptHalf free (group ++ later)) "xpress indicator"
    show (Stream.number _ 4 _ >>= _) = _
    rw [hread]
    show Except.ok _ = _
    rw [indicatorBits_indicator hlength]

theorem total_append (front rest : List Item) :
    Item.total (front ++ rest) = Item.total front + Item.total rest := by
  rw [Item.total, List.map_append, List.sum_append]
  rfl

/-- **The groups of a stream**: where the stream ends, the value is complete. -/
theorem result_groupBytes (free : Bool) {items : List Item} (out : Array UInt8)
    (hfit : Item.Fit out.size items) (hroom : out.size + Item.total items ≤ size)
    (position : Nat) :
    ∃ out', Progress.result size
        ⟨⟨groupBytes free items, position, keptHalf free items⟩, [], out⟩ = .ok out' ∧
      out'.toList = items.foldl Item.extend out.toList := by
  induction free, items using groupBytes.induct generalizing out position with
  | case1 free =>
    refine ⟨out, Progress.result_of_over (.inl ?_), rfl⟩
    rw [groupBytes]
  | case2 free item items ih =>
    have hsplit := List.take_append_drop 32 (item :: items)
    rw [groupBytes, List.append_assoc]
    generalize hgroup : (item :: items).take 32 = group at hsplit ih ⊢
    generalize hlater : (item :: items).drop 32 = later at hsplit ih ⊢
    have hnil : group ≠ [] := by
      rw [← hgroup]
      exact List.cons_ne_nil _ _
    have hlength : group.length ≤ 32 := by
      rw [← hgroup]
      exact List.length_take_le 32 _
    rw [← hsplit, fit_append] at hfit
    rw [← hsplit, total_append] at hroom
    have hroom₁ : out.size + Item.total group ≤ size := by omega
    obtain ⟨position₁, out₁, hsteps, hout₁⟩ := steps_group later hfit.1 hlength hnil
      hroom₁ free (groupBytes (freeBehind free group) later) position
    have hsize : out₁.size = out.size + Item.total group := by
      rw [← Array.length_toList, hout₁, length_foldl_extend, Array.length_toList]
    obtain ⟨out₂, hresult, hout₂⟩ := ih out₁ (hsize ▸ hfit.2) (by omega) position₁
    refine ⟨out₂, ?_, by rw [hout₂, hout₁, ← List.foldl_append, hsplit]⟩
    rw [← hsplit, hsteps.result_eq]
    -- Only the last group leaves bits of its word over, and nothing stands behind it.
    cases later with
    | nil =>
      have hrest : groupBytes (freeBehind free group) [] = [] := groupBytes.eq_1 _
      rw [Progress.result_of_over (.inl hrest)] at hresult ⊢
      exact hresult
    | cons next later =>
      have hfull : group.length = 32 := by
        have hlater := congrArg List.length hlater
        rw [List.length_drop, List.length_cons] at hlater
        rw [← hgroup, List.length_take, List.length_cons]
        rw [List.length_cons] at hlater
        omega
      rw [hfull]
      exact hresult

/-! Every value has at least one stream, in which no byte is repeated. -/

theorem expand_literals (value : Bytes) : Item.expand (value.map .literal) = value := by
  have h (out : Bytes) : (value.map Item.literal).foldl Item.extend out = out ++ value := by
    induction value generalizing out with
    | nil => exact (List.append_nil out).symm
    | cons byte value ih =>
      rw [List.map_cons, List.foldl_cons, ih, Item.extend, List.append_assoc]
      rfl
  exact h []

theorem fit_literals (produced : Nat) (value : Bytes) :
    Item.Fit produced (value.map .literal) := by
  induction value generalizing produced with
  | nil => trivial
  | cons byte value ih => exact ⟨trivial, ih _⟩

theorem streamable_literals {value : Bytes} (h : value.length ≤ 0xffff) :
    Item.Streamable (value.map .literal) := by
  have hlength := length_foldl_extend (value.map .literal) []
  have hvalue : (value.map Item.literal).foldl Item.extend [] = value := expand_literals value
  rw [hvalue, List.length_nil, Nat.zero_add] at hlength
  exact ⟨fit_literals 0 value, hlength ▸ h⟩

end Xpress

namespace Compression

open Xpress

theorem readU16_size {n : Nat} (h : n < 0x10000) (found : UInt8) (stream : Bytes) (what : String) :
    Bytes.readU16 (found :: leBytes 2 n ++ stream) 1 what = .ok (UInt16.ofNat n) := by
  have hplace := Bytes.restAt_append [found] (leBytes 2 n ++ stream)
  have hslice := hplace.slice what
  rw [length_leBytes] at hslice
  rw [Bytes.readU16]
  show (Bytes.slice ([found] ++ (leBytes 2 n ++ stream)) [found].length 2 what).map _ = _
  rw [hslice, Except.map, littleEndian_leBytes 2 n h]

theorem expandXpress_groupBytes {items : List Item} (h : Item.Streamable items) :
    expandXpress (matchMarker :: leBytes 2 (Item.total items) ++ groupBytes false items) =
      .ok (Item.expand items) := by
  have htotal := Nat.lt_succ_of_le h.total_le
  have hroom : (#[] : Array UInt8).size + Item.total items ≤ Item.total items := by simp
  obtain ⟨out, hresult, hout⟩ := result_groupBytes false #[] h.fit hroom 3
  have hstart : Progress.start (matchMarker :: leBytes 2 (Item.total items) ++
      groupBytes false items) = ⟨⟨groupBytes false items, 3, keptHalf false items⟩, [], #[]⟩ := rfl
  rw [List.cons_append, expandXpress_cons, ← List.cons_append, readU16_size htotal]
  show Except.map _ (Progress.result _ _) = _
  rw [UInt16.toNat_ofNat_of_lt' htotal, hstart, hresult, Except.map, hout]
  rfl

/-- **Expanding a stream undoes writing it**, whichever items were chosen for the value. -/
theorem expandXpress_encode {items : List Item} (h : Item.Streamable items) :
    expandXpress (encode items) = .ok (Item.expand items) := by
  rw [encode_eq]
  exact expandXpress_groupBytes h

/-- Two long matches that share a byte, with a group between them: the first takes half a byte and
a byte, the second the other half, a byte and a word. -/
theorem expandXpress_encode_shared :
    let items := .literal 0x61 :: .copy 1 40 :: (List.replicate 31 (.literal 0x62) ++ [.copy 41 300])
    Item.Streamable items ∧ expandXpress (encode items) = .ok (Item.expand items) := by
  have h : Item.Streamable
      (.literal 0x61 :: .copy 1 40 :: (List.replicate 31 (.literal 0x62) ++ [.copy 41 300])) :=
    ⟨by decide, by decide⟩
  exact ⟨h, expandXpress_encode h⟩

example : encode [.literal 0x61, .literal 0x62, .copy 2 6] =
    [0x18, 8, 0, 0, 0, 0, 0x20, 0x61, 0x62, 0x0b, 0] := by
  cbv

end Compression

end EseReader
