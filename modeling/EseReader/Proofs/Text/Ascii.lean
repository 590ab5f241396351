import EseReader.Proofs.Text.Length

/-!
# `EseReader/Proofs/Text/Ascii.lean` — text of seven-bit bytes

Below 0x80 the codepages agree: **a byte is one character**, in each of the narrow codepages and in
UTF-8. UTF-16 is the exception, since it takes two bytes for a character; and seven-bit bytes of any
number are well-formed UTF-16 (`decode?_of_ascii`).
-/

set_option autoImplicit false

namespace EseReader

variable {data : Bytes}

theorem Utf8.decode_of_ascii (h : ∀ b ∈ data, b < 0x80) : decode data = data.map byteChar := by
  induction data with
  | nil => exact stepwise.nil
  | cons b data ih =>
    obtain ⟨hb, hdata⟩ := List.forall_mem_cons.mp h
    have hnext : next b data = (byteChar b, data) := by
      rw [next, lead?_of_ascii hb]
      rfl
    rw [decode_cons, hnext, ih hdata]
    rfl

theorem NarrowPage.decode_of_ascii (page : NarrowPage) (h : ∀ b ∈ data, b < 0x80) :
    page.decode data = data.map byteChar := by
  by_cases hpage : page = .utf8
  · rw [hpage]
    exact Utf8.decode_of_ascii h
  · rw [decode_eq_map hpage]
    exact List.map_congr_left fun b hb => page.isByteMap_char.ascii (h b hb)

namespace Utf16

/-- The characters of pairs of bytes that are no halves. -/
def pairs : Bytes → List Char
  | a :: b :: rest => Char.ofNat (a.toNat + 256 * b.toNat) :: pairs rest
  | _ => []

/-- A unit below the surrogates is a character of its own. -/
theorem next_of_lt {u : UInt16} (h : u < 0xd800) (units : List UInt16) :
    next u units = (some (Char.ofNat u.toNat), units) := by
  have hhigh : isHighHalf u = false := by
    simp only [isHighHalf, Bool.and_eq_false_iff, decide_eq_false_iff_not]
    exact .inl (UInt16.not_le.mpr h)
  have hlow : isLowHalf u = false := by
    simp only [isLowHalf, Bool.and_eq_false_iff, decide_eq_false_iff_not]
    exact .inl (UInt16.not_le.mpr (UInt16.lt_trans h (by decide)))
  simp only [next.eq_def, hhigh, hlow, Bool.false_eq_true, if_false]

theorem chars_units_of_ascii (h : ∀ b ∈ data, b < 0x80) :
    chars (units data) = (pairs data).map some := by
  induction data using List.twoStepInduction with
  | nil => rfl
  | singleton a => rfl
  | cons_cons a b rest ih _ =>
    obtain ⟨ha, h⟩ := List.forall_mem_cons.mp h
    obtain ⟨hb, hrest⟩ := List.forall_mem_cons.mp h
    have ha : a.toNat < 0x80 := UInt8.lt_iff_toNat_lt.mp ha
    have hb : b.toNat < 0x80 := UInt8.lt_iff_toNat_lt.mp hb
    have hunit : UInt16.ofNat (littleEndian [a, b]) < 0xd800 := by
      rw [UInt16.lt_iff_toNat_lt, toNat_unit]
      show _ < 0xd800
      omega
    rw [units_cons_cons, chars_cons, next_of_lt hunit, ih hrest, toNat_unit, pairs, List.map_cons]

theorem mapM_id_map_some {α : Type} (items : List α) : (items.map some).mapM id = some items := by
  induction items with
  | nil => rfl
  | cons item items ih => rw [List.map_cons, List.mapM_cons, ih]; rfl

theorem decode?_of_ascii (h : ∀ b ∈ data, b < 0x80) : decode? data = some (pairs data) := by
  rw [decode?, chars_units_of_ascii h, mapM_id_map_some]

/-- Where every half is paired, both readings are the same. -/
theorem decode_of_decode? {text : List Char} (h : decode? data = some text) : decode data = text := by
  unfold decode
  rw [decode?] at h
  generalize chars (units data) = items at h
  induction items generalizing text with
  | nil => cases h; rfl
  | cons item items ih =>
    rw [List.mapM_cons] at h
    obtain ⟨c, hc, h⟩ := Option.bind_eq_some_iff.mp h
    obtain ⟨cs, hcs, h⟩ := Option.bind_eq_some_iff.mp h
    cases h
    rw [List.map_cons, ih hcs, show item = some c from hc]
    rfl

theorem decode_of_ascii (h : ∀ b ∈ data, b < 0x80) : decode data = pairs data :=
  decode_of_decode? (decode?_of_ascii h)

end Utf16

end EseReader
