import EseReader.Proofs.Bytes.Order
import EseReader.Proofs.Key.Order

/-!
# `EseReader/Proofs/Key/Comparison.lean` — what the comparison of keys keeps to

Everything that walks a tree rests on the comparison of keys, and on three things about it that hold
of keys of any lengths, also of those that start with each other.

* It is a **total order** in which only equal keys are equal (`Total`). The two directions are
  mirror images of each other (`compare_reversed`), so nothing has to be said twice.
* What a bound covers is **closed on both sides** (`Closed`): with a target every one before it, and
  by every bound that comes later. The empty key has two roles here. As a target it is the first
  one; as a bound it is none at all, which is why only the others can be compared as bounds.
* The front that the keys of a page share **does not count** (`exists_compose_compare_eq`): keys
  put together from the same common key stand in the order of their rests.

The last one is about keys that are read forward. With the last byte first, a rest that ends is
decided by what stands in front of it, and that is the common key.
-/

set_option autoImplicit false

namespace EseReader

namespace Key

/-- The key that the other direction reads in the same way. -/
def mirror (key : Key) : Key := ⟨key.bytes.reverse⟩

theorem compose_none_eq_ok_iff {size : Nat} {rest : Bytes} {key : Key} :
    compose none size rest = .ok key ↔ size = 0 ∧ key = ⟨rest⟩ := by
  simp only [compose]
  split
  case isTrue h => simp [h, eq_comm]
  case isFalse h => simp [h]

theorem compose_some_eq_ok_iff {common : Bytes} {size : Nat} {rest : Bytes} {key : Key} :
    compose (some common) size rest = .ok key ↔
      size ≤ common.length ∧ key = ⟨common.take size ++ rest⟩ := by
  simp only [compose]
  split
  case isTrue h => simp [h, eq_comm]
  case isFalse =>
    split
    case isTrue h => simp [h, eq_comm]
    case isFalse h => simp [h]

/-- What a key is put together from: a start of the common key of the wanted size, and its rest. -/
theorem compose_eq_ok_iff {common : Option Bytes} {size : Nat} {rest : Bytes} {key : Key} :
    compose common size rest = .ok key ↔
      ∃ front, front <+: common.getD [] ∧ front.length = size ∧ key = ⟨front ++ rest⟩ := by
  cases common with
  | none =>
    rw [compose_none_eq_ok_iff]
    constructor
    · rintro ⟨rfl, rfl⟩
      exact ⟨[], List.nil_prefix, rfl, rfl⟩
    · rintro ⟨front, hfront, rfl, rfl⟩
      obtain rfl := List.prefix_nil.mp hfront
      exact ⟨rfl, rfl⟩
  | some bytes =>
    rw [compose_some_eq_ok_iff]
    constructor
    · rintro ⟨hle, rfl⟩
      exact ⟨bytes.take size, List.take_prefix size bytes, List.length_take_of_le hle, rfl⟩
    · rintro ⟨front, hfront, rfl, rfl⟩
      have htake : front = bytes.take front.length := List.prefix_iff_eq_take.mp hfront
      exact ⟨hfront.length_le, by rw [← htake]⟩

end Key

namespace KeyOrder

variable {order : KeyOrder} {a b : Key}

/-! ## A total order -/

/-- A comparison that orders all keys and tells all of them apart. -/
structure Total (order : KeyOrder) : Prop where
  reflexive (a : Key) : order.compare a a = .eq
  opposite (a b : Key) : order.compare b a = (order.compare a b).swap
  transitive {a b c : Key} (hab : order.Le a b) (hbc : order.Le b c) : order.Le a c
  total (a b : Key) : order.Le a b ∨ order.Le b a
  equal_iff (a b : Key) : order.compare a b = .eq ↔ a = b

theorem le_total (order : KeyOrder) (a b : Key) : order.Le a b ∨ order.Le b a := by
  by_cases h : order.Le a b
  · exact .inl h
  · exact .inr (not_le.mp h).le

theorem total (order : KeyOrder) : order.Total where
  reflexive _ := compare_eq_iff.mpr rfl
  opposite _ _ := Std.OrientedCmp.eq_swap
  transitive := Le.trans
  total := le_total order
  equal_iff _ _ := compare_eq_iff

/-- Reading from the last byte on is reading the mirrored keys from the first one on. -/
theorem compare_reversed (a b : Key) : reversed.compare a b = forward.compare a.mirror b.mirror :=
  rfl

/-- What the order is: the one of the first difference. -/
theorem lt_iff_before : order.Lt a b ↔ (order.significant a).Before (order.significant b) :=
  compare_eq_lt_iff

/-! ## Bounds -/

/-- What a bound covers reaches down to the first key, and is covered by all later bounds. -/
structure Closed (order : KeyOrder) : Prop where
  downward {bound target earlier : Key} (hcovers : order.covers bound target = true)
    (hle : order.Le earlier target) : order.covers bound earlier = true
  upward {bound later target : Key} (hbound : bound.bytes ≠ [])
    (hcovers : order.covers bound target = true) (hle : order.Le bound later) :
    order.covers later target = true
  /-- No key is before the empty one. -/
  first (bound : Key) : order.covers bound .empty = true
  /-- The empty key bounds nothing. -/
  unbounded (target : Key) : order.covers .empty target = true

theorem empty_le (order : KeyOrder) (key : Key) : order.Le .empty key := by
  rw [← not_lt, lt_iff_before]
  cases order with
  | forward => exact not_before_nil
  | reversed => exact not_before_nil

theorem closed (order : KeyOrder) : order.Closed where
  downward hcovers hle := by
    rw [covers_iff] at hcovers ⊢
    exact hcovers.imp_right hle.trans
  upward hbound hcovers hle := by
    rw [covers_iff] at hcovers ⊢
    exact .inr ((hcovers.resolve_left hbound).trans hle)
  first bound := covers_iff.mpr (.inr (empty_le order bound))
  unbounded _ := covers_iff.mpr (.inl rfl)

/-! ## Common fronts -/

theorem compare_append (front : Key) (rest rest' : Bytes) :
    forward.compare (front.append rest) (front.append rest') = forward.compare ⟨rest⟩ ⟨rest'⟩ :=
  compare_append_left front.bytes rest rest'

/-- With the last byte first, the common front decides between a rest and a longer one. -/
example : reversed.compare ⟨[2] ++ []⟩ ⟨[2] ++ [1]⟩ = .gt ∧ reversed.compare ⟨[]⟩ ⟨[1]⟩ = .lt := by
  decide

/-- Whether a common key has enough bytes does not depend on what is put behind them. -/
theorem exists_compose_compare_eq {common : Option Bytes} {size : Nat} {rest : Bytes} {key : Key}
    (h : Key.compose common size rest = .ok key) (rest' : Bytes) :
    ∃ key', Key.compose common size rest' = .ok key' ∧
      forward.compare key key' = forward.compare ⟨rest⟩ ⟨rest'⟩ := by
  obtain ⟨front, hfront, hlength, rfl⟩ := Key.compose_eq_ok_iff.mp h
  exact ⟨⟨front ++ rest'⟩, Key.compose_eq_ok_iff.mpr ⟨front, hfront, hlength, rfl⟩,
    compare_append_left front rest rest'⟩

/-! ## All together -/

/-- **The comparison of keys is a total order that goes with bounds and with common fronts.** In
either direction it orders all keys by their first difference, and what a bound covers is closed;
with the last byte first it is the forward comparison of the mirrored keys; and keys that were put
together from one common key are compared as their rests are. -/
theorem compare_orders_keys (order : KeyOrder) :
    order.Total ∧ order.Closed ∧
      (∀ a b, order.Lt a b ↔ (order.significant a).Before (order.significant b)) ∧
      (∀ a b, reversed.compare a b = forward.compare a.mirror b.mirror) ∧
      (∀ (front : Key) (rest rest' : Bytes),
        forward.compare (front.append rest) (front.append rest') =
          forward.compare ⟨rest⟩ ⟨rest'⟩) ∧
      ∀ common size rest key, Key.compose common size rest = .ok key →
        ∀ rest', ∃ key', Key.compose common size rest' = .ok key' ∧
          forward.compare key key' = forward.compare ⟨rest⟩ ⟨rest'⟩ :=
  ⟨total order, closed order, fun _ _ => lt_iff_before, compare_reversed, compare_append,
    fun _ _ _ _ h => exists_compose_compare_eq h⟩

/-- Two keys with three bytes each from the common key of their page, and a bound between them. -/
theorem compare_orders_keys_sample :
    let common : Option Bytes := some [0x7f, 0x80, 0x00, 0x00, 0x12]
    let low : Key := ⟨[0x7f, 0x80, 0x00, 0x7f, 0x80]⟩
    let bound : Key := ⟨[0x7f, 0x80, 0x00, 0x7f, 0x80, 0x02]⟩
    Key.compose common 3 [0x7f, 0x80] = .ok low ∧
      (∃ high, Key.compose common 3 [0x80] = .ok high ∧ forward.compare low high = .lt ∧
        forward.covers bound high = false) ∧
      forward.Le low bound ∧ forward.covers bound low = true ∧
      reversed.compare low bound = .gt ∧ reversed.compare bound low = .lt := by
  intro common low bound
  obtain ⟨_, hclosed, -, -, -, hcompose⟩ := compare_orders_keys forward
  obtain ⟨hreversed, -⟩ := compare_orders_keys reversed
  have hlow : Key.compose common 3 [0x7f, 0x80] = .ok low := rfl
  obtain ⟨high, hhigh, hcompare⟩ := hcompose common 3 _ low hlow [0x80]
  have hle : forward.Le low bound := by decide
  have hbound : forward.covers bound bound = true := by decide
  have hgt : reversed.compare low bound = .gt := by decide
  refine ⟨hlow, ⟨high, hhigh, hcompare.trans (by decide), ?_⟩, hle, hclosed.downward hbound hle, hgt,
    (hreversed.opposite low bound).trans (congrArg Ordering.swap hgt)⟩
  cases hhigh
  decide

end KeyOrder

end EseReader
