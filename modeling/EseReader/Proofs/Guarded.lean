import EseReader.Proofs.Bytes

/-!
# `EseReader/Proofs/Guarded.lean` — readings that notice when they reach too far

A reading can fail because the data is broken, and then it ends in an `Error`. The readers of this
library cannot fail in any other way: a field that lies outside is shorter than asked for, a byte
that is missing counts as zero, and a difference does not go below zero. All of this is convenient
and **hides mistakes**, because a reader that relies on a test it has forgotten to make looks the
same as one that has made it.

A `Guarded` reading has a third outcome for that, `none`. Cutting bytes out and taking differences
are guarded here: they have no result where they are not covered. A guarded reader stands beside a
plain one, with the same tests and no others, and what is to be shown of the two is one equation,
`guarded = .ofExcept plain`: no guard is ever hit, and the result is the same, value or error.
Such equations are put together with `bind_ofExcept`.
-/

set_option autoImplicit false

namespace EseReader

/-- A reading with the outcome `none` where it reaches for something that is not there. -/
abbrev Guarded (α : Type) := ExceptT Error Option α

namespace Guarded

variable {α β : Type}

/-- A reading that has tested all that it relies on. -/
def ofExcept (result : Except Error α) : Guarded α := ExceptT.mk (some result)

/-- What follows the first `count` items, if there are so many. -/
def drop (items : List α) (count : Nat) : Guarded (List α) :=
  ExceptT.lift (if count ≤ items.length then some (items.drop count) else none)

/-- The bytes from `start` up to `stop`, if both are places of `data` in this order. -/
def cut (data : Bytes) (start stop : Nat) : Guarded Bytes :=
  ExceptT.lift (if start ≤ stop ∧ stop ≤ data.length then some (data.field start (stop - start))
    else none)

def byte (data : Bytes) (index : Nat) : Guarded UInt8 := ExceptT.lift data[index]?

/-- The item at `index`, if there is one. -/
def item (items : Array α) (index : Nat) : Guarded α := ExceptT.lift items[index]?

/-- The difference of two numbers of which the second is not larger. -/
def minus (a b : Nat) : Guarded Nat := ExceptT.lift (if b ≤ a then some (a - b) else none)

@[simp] theorem pure_eq (a : α) : (pure a : Guarded α) = ofExcept (.ok a) := rfl

@[simp] theorem throw_eq (e : Error) : (throw e : Guarded α) = ofExcept (.error e) := rfl

@[simp] theorem ok_bind (a : α) (next : α → Guarded β) : ofExcept (.ok a) >>= next = next a := rfl

/-- **Two steps are covered if the first one is, and the second one wherever it is taken.** -/
theorem bind_ofExcept {first : Guarded α} {plain : Except Error α} {next : α → Guarded β}
    {plainNext : α → Except Error β} (hfirst : first = ofExcept plain)
    (hnext : ∀ a, plain = .ok a → next a = ofExcept (plainNext a)) :
    first >>= next = ofExcept (plain >>= plainNext) := by
  rw [hfirst]
  cases plain with
  | error e => rfl
  | ok a => exact hnext a rfl

theorem drop_eq {items : List α} {count : Nat} (h : count ≤ items.length) :
    drop items count = ofExcept (.ok (items.drop count)) := by
  rw [drop, if_pos h]
  rfl

theorem cut_eq {data : Bytes} {start stop : Nat} (horder : start ≤ stop)
    (hinside : stop ≤ data.length) :
    cut data start stop = ofExcept (.ok (data.field start (stop - start))) := by
  rw [cut, if_pos ⟨horder, hinside⟩]
  rfl

example : cut [1, 2, 3] 2 4 = ExceptT.mk none := rfl

theorem byte_eq {data : Bytes} {index : Nat} (h : index < data.length) :
    byte data index = ofExcept (.ok data[index]) := by
  rw [byte, List.getElem?_eq_getElem h]
  rfl

theorem item_eq {items : Array α} {index : Nat} (h : index < items.size) :
    item items index = ofExcept (.ok items[index]) := by
  rw [item, Array.getElem?_eq_getElem h]
  rfl

theorem minus_eq {a b : Nat} (h : b ≤ a) : minus a b = ofExcept (.ok (a - b)) := by
  rw [minus, if_pos h]
  rfl

theorem map_ofExcept (f : α → β) (result : Except Error α) :
    f <$> ofExcept result = ofExcept (result.map f) := by
  cases result <;> rfl

theorem mapM_ofExcept {f : α → Guarded β} {plain : α → Except Error β}
    (h : ∀ a, f a = ofExcept (plain a)) (items : List α) :
    items.mapM f = ofExcept (items.mapM plain) := by
  induction items with
  | nil => rfl
  | cons item items ih =>
    rw [List.mapM_cons, List.mapM_cons]
    refine bind_ofExcept (h item) ?_
    intro b _
    exact bind_ofExcept ih fun _ _ => rfl

/-! ## Readings that differ in what they keep

A program that is given the data as a whole keeps the place that it has come to; a reader that goes
through a list keeps what is left of it. Their values are not equal then, but the one belongs to the
other, and the values of the next step do so again. -/

/-- A guarded reading in which no guard is hit, and which ends in the error of the plain reading or
in a value that belongs to its value. -/
inductive Agrees (belongs : α → β → Prop) : Guarded α → Except Error β → Prop
  | ok {a : α} {b : β} (h : belongs a b) : Agrees belongs (ofExcept (.ok a)) (.ok b)
  | error (e : Error) : Agrees belongs (ofExcept (.error e)) (.error e)

theorem agrees_eq_iff {guarded : Guarded α} {plain : Except Error α} :
    Agrees (· = ·) guarded plain ↔ guarded = ofExcept plain := by
  constructor
  · intro h
    cases h with
    | ok h => rw [h]
    | error e => rfl
  · rintro rfl
    cases plain with
    | ok a => exact .ok rfl
    | error e => exact .error e

theorem Agrees.bind {γ δ : Type} {belongs : α → β → Prop} {belongs' : γ → δ → Prop}
    {first : Guarded α} {plain : Except Error β} {next : α → Guarded γ}
    {plainNext : β → Except Error δ} (hfirst : Agrees belongs first plain)
    (hnext : ∀ a b, plain = .ok b → belongs a b → Agrees belongs' (next a) (plainNext b)) :
    Agrees belongs' (first >>= next) (plain >>= plainNext) := by
  cases hfirst with
  | ok h => exact hnext _ _ rfl h
  | error e => exact .error e

/-! ## Fields and numbers

The reader of a field makes its own test, so cutting it out is covered. A number is put together
from the bytes of its field, taken one by one. -/

def slice (data : Bytes) (offset size : Nat) (what : String) : Guarded Bytes :=
  if offset + size ≤ data.length then cut data offset (offset + size)
  else throw (.outOfBounds what offset size data.length)

theorem slice_eq (data : Bytes) (offset size : Nat) (what : String) :
    slice data offset size what = ofExcept (data.slice offset size what) := by
  unfold slice Bytes.slice
  by_cases h : offset + size ≤ data.length
  · simp only [if_pos h]
    rw [cut_eq (Nat.le_add_right _ _) h, Nat.add_sub_cancel_left]
  · simp only [if_neg h]
    rfl

/-- The number that stands in the `width` bytes at `offset`. -/
def number (width : Nat) (data : Bytes) (offset : Nat) (what : String) : Guarded Nat := do
  let bytes ← slice data offset width what
  return littleEndian (← (List.range width).mapM (byte bytes))

theorem mapM_byte (data : Bytes) (index count : Nat) (h : index + count = data.length) :
    (List.range' index count).mapM (byte data) = ofExcept (.ok (data.drop index)) := by
  induction count generalizing index with
  | zero =>
    have hend : data.drop index = [] := List.drop_of_length_le (by omega)
    rw [hend]
    rfl
  | succ count ih =>
    have hinside : index < data.length := by omega
    rw [List.range'_succ, List.mapM_cons, byte_eq hinside, ok_bind, ih (index + 1) (by omega),
      ok_bind, pure_eq, List.drop_eq_getElem_cons hinside]

theorem number_eq (width : Nat) (data : Bytes) (offset : Nat) (what : String) :
    number width data offset what = ofExcept ((data.slice offset width what).map littleEndian) := by
  unfold number
  rw [slice_eq]
  cases hslice : data.slice offset width what with
  | error e => rfl
  | ok bytes =>
    obtain ⟨hinside, rfl⟩ := Bytes.slice_eq_ok_iff.mp hslice
    rw [ok_bind, List.range_eq_range', mapM_byte _ 0 width (by rw [Bytes.length_field hinside, Nat.zero_add])]
    rfl

def octet (data : Bytes) (offset : Nat) (what : String) : Guarded UInt8 :=
  .ofNat <$> number 1 data offset what

theorem octet_eq (data : Bytes) (offset : Nat) (what : String) :
    octet data offset what = ofExcept (data.readU8 offset what) := by
  rw [octet, number_eq, map_ofExcept, Bytes.readU8]
  cases data.slice offset 1 what <;> rfl

def word (data : Bytes) (offset : Nat) (what : String) : Guarded UInt16 :=
  .ofNat <$> number 2 data offset what

theorem word_eq (data : Bytes) (offset : Nat) (what : String) :
    word data offset what = ofExcept (data.readU16 offset what) := by
  rw [word, number_eq, map_ofExcept, Bytes.readU16]
  cases data.slice offset 2 what <;> rfl

/-- A word that the reader knows to be there. -/
theorem word_eq_u16At {data : Bytes} {offset : Nat} (h : offset + 2 ≤ data.length) (what : String) :
    word data offset what = ofExcept (.ok (data.u16At offset)) := by
  rw [word_eq, Bytes.readU16, Bytes.slice_eq_ok_iff.mpr ⟨h, rfl⟩]
  rfl

/-! A word at the front of what is left of the data, as readers take it that go through a list. -/

theorem word_eq_pair {data rest : Bytes} {offset : Nat} {low high : UInt8}
    (h : data.drop offset = low :: high :: rest) (what : String) :
    word data offset what = ofExcept (.ok (.ofNat (littleEndian [low, high]))) := by
  have hlength := congrArg List.length h
  rw [List.length_drop, List.length_cons, List.length_cons] at hlength
  rw [word_eq_u16At (by omega), Bytes.u16At, Bytes.field, h]
  rfl

theorem word_eq_error {data : Bytes} {offset : Nat} (h : (data.drop offset).length < 2)
    (what : String) :
    word data offset what = ofExcept (.error (.outOfBounds what offset 2 data.length)) := by
  rw [List.length_drop] at h
  rw [word_eq, Bytes.readU16, Bytes.slice]
  rw [if_neg (by omega)]
  rfl

end Guarded

end EseReader
