import EseReader.Proofs.Bytes

/-!
# `EseReader/Proofs/Bytes/Order.lean` — the order of byte strings

Byte strings are ordered as words in a dictionary are. Two facts about this order are what numbers
in keys live on. What stands between two strings with a common front has that front itself
(`prefix_of_between`), so the keys that start alike stand together; and among strings of one length
the order is that of the numbers they spell **with the high byte first**
(`compare_eq_compare_bigEndian`), so behind a common front the keys stand in the order of their
numbers.

What decides a comparison is **the first byte that differs**, or the end of the shorter string where
none does (`compare_eq_lt_iff`).
-/

set_option autoImplicit false

namespace EseReader

variable {front low high bytes a b : Bytes}

theorem compare_append_left (front a b : Bytes) :
    compare (front ++ a) (front ++ b) = compare a b := by
  induction front with
  | nil => rfl
  | cons byte front ih =>
    have hself : compare byte byte = .eq := Std.LawfulEqCmp.compare_eq_iff_eq.mpr rfl
    rw [List.cons_append, List.cons_append, List.compare_cons_cons, hself, ih]
    rfl

theorem prefix_of_between (hlow : compare (front ++ low) bytes ≠ .gt)
    (hhigh : compare bytes (front ++ high) ≠ .gt) : front <+: bytes := by
  induction front generalizing bytes with
  | nil => exact List.nil_prefix
  | cons byte front ih =>
    cases bytes with
    | nil => exact absurd rfl hlow
    | cons other bytes =>
      rw [List.cons_append, List.compare_cons_cons] at hlow hhigh
      -- Only with the same first byte is `bytes` neither in front of the one nor behind the other.
      cases hfirst : compare byte other with
      | lt =>
        have hback : compare other byte = .gt := Std.OrientedCmp.gt_iff_lt.mpr hfirst
        rw [hback] at hhigh
        exact absurd rfl hhigh
      | gt =>
        rw [hfirst] at hlow
        exact absurd rfl hlow
      | eq =>
        obtain rfl := Std.LawfulEqCmp.compare_eq_iff_eq.mp hfirst
        rw [hfirst] at hlow hhigh
        exact List.cons_prefix_cons.mpr ⟨rfl, ih hlow hhigh⟩

theorem compare_byte (a b : UInt8) : compare a b = compare a.toNat b.toNat := by
  show compareOfLessAndEq a b = compareOfLessAndEq a.toNat b.toNat
  simp only [compareOfLessAndEq, UInt8.lt_iff_toNat_lt, ← UInt8.toNat_inj]

/-- Numbers of two digits are compared by the first digit in which they differ. -/
theorem compare_digits {base low low' : Nat} (hlow : low < base) (hlow' : low' < base)
    (high high' : Nat) :
    compare (high * base + low) (high' * base + low') =
      (compare high high').then (compare low low') := by
  rcases Nat.lt_trichotomy high high' with hlt | rfl | hgt
  · have hstep := Nat.mul_le_mul_right base (Nat.succ_le_of_lt hlt)
    rw [Nat.succ_mul] at hstep
    have hnumber : compare (high * base + low) (high' * base + low') = .lt :=
      Nat.compare_eq_lt.mpr (by omega)
    rw [hnumber, Nat.compare_eq_lt.mpr hlt]
    rfl
  · rw [Nat.compare_eq_eq.mpr rfl]
    simp only [Nat.compare_eq_ite_lt, Nat.add_lt_add_iff_left]
    rfl
  · have hstep := Nat.mul_le_mul_right base (Nat.succ_le_of_lt hgt)
    rw [Nat.succ_mul] at hstep
    have hnumber : compare (high * base + low) (high' * base + low') = .gt :=
      Nat.compare_eq_gt.mpr (by omega)
    rw [hnumber, Nat.compare_eq_gt.mpr hgt]
    rfl

theorem compare_eq_compare_bigEndian (h : a.length = b.length) :
    compare a b = compare (bigEndian a) (bigEndian b) := by
  induction a generalizing b with
  | nil =>
    cases b with
    | nil => rfl
    | cons => cases h
  | cons byte a ih =>
    cases b with
    | nil => cases h
    | cons other b =>
      have hlength : a.length = b.length := Nat.succ_inj.mp h
      have ha : bigEndian a < 256 ^ b.length := hlength ▸ bigEndian_lt a
      rw [List.compare_cons_cons, bigEndian_cons, bigEndian_cons, hlength,
        compare_digits ha (bigEndian_lt b), compare_byte, ih hlength]

/-! ## The first difference -/

/-- `b` goes on where `a` ends, or `a` has the smaller byte where the two differ first. -/
def Bytes.Before (a b : Bytes) : Prop :=
  (∃ byte rest, b = a ++ byte :: rest) ∨
    ∃ front low high rest rest', low < high ∧ a = front ++ low :: rest ∧ b = front ++ high :: rest'

theorem not_before_nil : ¬ a.Before [] := by
  rintro (⟨byte, rest, h⟩ | ⟨front, low, high, rest, rest', -, -, h⟩)
  · exact List.append_ne_nil_of_right_ne_nil a (List.cons_ne_nil byte rest) h.symm
  · exact List.append_ne_nil_of_right_ne_nil front (List.cons_ne_nil high rest') h.symm

theorem before_cons_cons {byte other : UInt8} :
    Bytes.Before (byte :: a) (other :: b) ↔ byte < other ∨ byte = other ∧ a.Before b := by
  constructor
  · rintro (⟨next, rest, h⟩ | ⟨front, low, high, rest, rest', hlt, ha, hb⟩)
    · obtain ⟨rfl, rfl⟩ := List.cons.inj h
      exact .inr ⟨rfl, .inl ⟨next, rest, rfl⟩⟩
    · cases front with
      | nil =>
        obtain ⟨rfl, -⟩ := List.cons.inj ha
        obtain ⟨rfl, -⟩ := List.cons.inj hb
        exact .inl hlt
      | cons first front =>
        obtain ⟨rfl, rfl⟩ := List.cons.inj ha
        obtain ⟨rfl, rfl⟩ := List.cons.inj hb
        exact .inr ⟨rfl, .inr ⟨front, low, high, rest, rest', hlt, rfl, rfl⟩⟩
  · rintro (hlt | ⟨rfl, ⟨next, rest, rfl⟩ | ⟨front, low, high, rest, rest', hlt, rfl, rfl⟩⟩)
    · exact .inr ⟨[], byte, other, a, b, hlt, rfl, rfl⟩
    · exact .inl ⟨next, rest, rfl⟩
    · exact .inr ⟨byte :: front, low, high, rest, rest', hlt, rfl, rfl⟩

theorem compare_eq_lt_iff : compare a b = .lt ↔ a.Before b := by
  induction a generalizing b with
  | nil =>
    cases b with
    | nil => exact iff_of_false (by decide) not_before_nil
    | cons other b => exact iff_of_true rfl (.inl ⟨other, b, rfl⟩)
  | cons byte a ih =>
    cases b with
    | nil => exact iff_of_false (fun h => nomatch h) not_before_nil
    | cons other b =>
      have hbyte : compare byte other = .lt ↔ byte < other := by
        rw [compare_byte, Nat.compare_eq_lt, UInt8.lt_iff_toNat_lt]
      rw [List.compare_cons_cons, Ordering.then_eq_lt, hbyte, Std.LawfulEqCmp.compare_eq_iff_eq, ih,
        before_cons_cons]

end EseReader
