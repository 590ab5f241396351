import EseReader.Key

/-!
# `EseReader/Proofs/Key/Order.lean` — the order of keys is a total order

`KeyOrder.compare` answers with an `Ordering`, and everything about trees is said with two relations
read off it: `Le` and `Lt`. A `KeyOrder` compares keys by a projection that loses nothing
(`significant`), so **every law comes from the order of byte lists** and holds of both directions
at once; no lemma below splits on the direction except the injectivity of that projection.
-/

set_option autoImplicit false

namespace EseReader

namespace KeyOrder

variable {order : KeyOrder} {a b c : Key}

/-! ## The laws of `compare` -/

theorem significant_injective (h : order.significant a = order.significant b) : a = b := by
  obtain ⟨bytes⟩ := a
  obtain ⟨bytes'⟩ := b
  cases order with
  | forward => exact congrArg Key.mk h
  | reversed => exact congrArg Key.mk (List.reverse_inj.mp h)

instance : Std.TransCmp order.compare :=
  inferInstanceAs (Std.TransCmp (compareOn order.significant))

instance : Std.LawfulEqCmp order.compare where
  compare_self := Std.LawfulEqOrd.compare_eq_iff_eq.mpr rfl
  eq_of_compare h := significant_injective (Std.LawfulEqOrd.eq_of_compare h)

theorem compare_eq_iff : order.compare a b = .eq ↔ a = b :=
  Std.LawfulEqCmp.compare_eq_iff_eq

/-! ## The two relations -/

/-- `a` does not come after `b`. -/
def Le (order : KeyOrder) (a b : Key) : Prop := order.compare a b ≠ .gt

/-- `a` comes before `b`. -/
def Lt (order : KeyOrder) (a b : Key) : Prop := order.compare a b = .lt

instance : Decidable (order.Le a b) := inferInstanceAs (Decidable (_ ≠ _))

instance : Decidable (order.Lt a b) := inferInstanceAs (Decidable (_ = _))

theorem le_iff_isLE : order.Le a b ↔ (order.compare a b).isLE = true := by
  unfold Le
  cases order.compare a b <;> simp

theorem not_le : ¬ order.Le a b ↔ order.Lt b a := by
  unfold Le Lt
  rw [Decidable.not_not]
  exact Std.OrientedCmp.gt_iff_lt

theorem not_lt : ¬ order.Lt a b ↔ order.Le b a := by
  rw [← not_le, Decidable.not_not]

theorem Le.trans (hab : order.Le a b) (hbc : order.Le b c) : order.Le a c := by
  rw [le_iff_isLE] at *
  exact Std.TransCmp.isLE_trans hab hbc

theorem Lt.trans_le (hab : order.Lt a b) (hbc : order.Le b c) : order.Lt a c :=
  Std.TransCmp.lt_of_lt_of_isLE hab (le_iff_isLE.mp hbc)

theorem Le.trans_lt (hab : order.Le a b) (hbc : order.Lt b c) : order.Lt a c :=
  Std.TransCmp.lt_of_isLE_of_lt (le_iff_isLE.mp hab) hbc

theorem Lt.le (h : order.Lt a b) : order.Le a b := by
  unfold Le
  rw [show order.compare a b = .lt from h]
  decide

theorem Lt.ne (h : order.Lt a b) : a ≠ b := by
  intro hab
  rw [Lt, compare_eq_iff.mpr hab] at h
  exact absurd h (by decide)

theorem Le.eq_or_lt (h : order.Le a b) : a = b ∨ order.Lt a b := by
  cases hc : order.compare a b with
  | lt => exact .inr hc
  | eq => exact .inl (compare_eq_iff.mp hc)
  | gt => exact absurd hc h

/-! ## What a bound covers -/

/-- A bound that does not cover a target is a real one, and the target is behind it. -/
theorem not_covers_iff {bound target : Key} :
    order.covers bound target = false ↔ bound.bytes ≠ [] ∧ order.Lt bound target := by
  rw [← not_le, Le, Decidable.not_not]
  cases hb : bound.bytes <;> simp [covers, hb]

theorem covers_iff {bound target : Key} :
    order.covers bound target = true ↔ bound.bytes = [] ∨ order.Le target bound := by
  rw [← Bool.not_eq_false, not_covers_iff, ← not_lt, Decidable.not_and_iff_or_not,
    Decidable.not_not]

end KeyOrder

end EseReader
