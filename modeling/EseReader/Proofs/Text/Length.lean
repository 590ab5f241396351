import EseReader.Proofs.Bytes
import EseReader.Text.Codepage
import Mathlib.Data.List.DropRight
import Mathlib.Data.List.Induction

/-!
# `EseReader/Proofs/Text/Length.lean` — how many characters a text has

The characters NUL at the end of a text are not part of it, so what counts are the bytes up to the
last one that is not zero, the `reach` of a byte string. In a codepage with one byte a character the
text has as many characters. In UTF-8 it has **no more than these, and fewer as soon as one character
takes two bytes**; in UTF-16 no more than half of them. Two readings of the same bytes as texts of
different lengths are not the same text.
-/

set_option autoImplicit false

namespace EseReader

/-! ## Up to the last that counts -/

section Reach

variable {α β : Type} {isEnd : α → Bool} {a : α} {l front rest : List α}

theorem rdropWhile_cons :
    (a :: l).rdropWhile isEnd =
      if l.rdropWhile isEnd = [] ∧ isEnd a = true then [] else a :: l.rdropWhile isEnd := by
  unfold List.rdropWhile
  rw [List.reverse_cons, List.dropWhile_append]
  by_cases hl : l.reverse.dropWhile isEnd = []
  · by_cases ha : isEnd a = true <;> simp [hl, ha]
  · simp [hl]

/-- The length of a list without the elements at its end that do not count. -/
def reach (isEnd : α → Bool) (l : List α) : Nat := (l.rdropWhile isEnd).length

theorem reach_cons :
    reach isEnd (a :: l) =
      if reach isEnd l = 0 ∧ isEnd a = true then 0 else reach isEnd l + 1 := by
  simp only [reach, rdropWhile_cons, List.length_eq_zero_iff]
  split <;> rfl

theorem reach_cons_le : reach isEnd (a :: l) ≤ reach isEnd l + 1 := by
  rw [reach_cons]
  split
  · exact Nat.zero_le _
  · exact Nat.le_refl _

theorem reach_cons_of_not_end (h : isEnd a = false) :
    reach isEnd (a :: l) = reach isEnd l + 1 := by
  rw [reach_cons, if_neg]
  rintro ⟨-, hend⟩
  rw [h] at hend
  cases hend

theorem reach_append (h : ∀ a ∈ front, isEnd a = false) :
    reach isEnd (front ++ rest) = front.length + reach isEnd rest := by
  induction front with
  | nil => exact (Nat.zero_add _).symm
  | cons a front ih =>
    obtain ⟨ha, hfront⟩ := List.forall_mem_cons.mp h
    rw [List.cons_append, reach_cons_of_not_end ha, ih hfront, List.length_cons]
    omega

theorem reach_eq_zero_iff : reach isEnd l = 0 ↔ ∀ a ∈ l, isEnd a = true := by
  rw [reach, List.length_eq_zero_iff, List.rdropWhile_eq_nil_iff]

theorem reach_map {f : β → α} {l : List β} : reach isEnd (l.map f) = reach (isEnd ∘ f) l := by
  induction l with
  | nil => rfl
  | cons b l ih => rw [List.map_cons, reach_cons, reach_cons, ih]; rfl

end Reach

/-! ## Texts -/

/-- Whether a character is left out at the end of a text. -/
def isNul (c : Char) : Bool := c == '\x00'

/-- The number of bytes up to the last that is not zero. -/
def reachBytes (data : Bytes) : Nat := reach (· == 0) data

theorem length_trimNuls (text : List Char) : (trimNuls text).length = reach isNul text := rfl

theorem trimNuls_eq_nil_iff {text : List Char} : trimNuls text = [] ↔ ∀ c ∈ text, c = '\x00' := by
  rw [← List.length_eq_zero_iff, length_trimNuls, reach_eq_zero_iff]
  simp only [isNul, beq_iff_eq]

theorem trimNuls_cons (c : Char) (text : List Char) :
    trimNuls (c :: text) = if trimNuls text = [] ∧ c = '\x00' then [] else c :: trimNuls text := by
  have h : trimNuls (c :: text) =
      if trimNuls text = [] ∧ (c == '\x00') = true then [] else c :: trimNuls text :=
    rdropWhile_cons
  simpa only [beq_iff_eq] using h

theorem trimNuls_cons_of_ne {c : Char} (h : c ≠ '\x00') (text : List Char) :
    trimNuls (c :: text) = c :: trimNuls text := by
  rw [trimNuls_cons, if_neg fun hnul => h hnul.2]

theorem trimNuls_cons_inj {c : Char} {a b : List Char} (h : trimNuls (c :: a) = trimNuls (c :: b)) :
    trimNuls a = trimNuls b := by
  rw [trimNuls_cons, trimNuls_cons] at h
  split at h <;> split at h
  · next ha hb => rw [ha.1, hb.1]
  · cases h
  · cases h
  · exact (List.cons.inj h).2

/-- Nothing but the padding is cut off. -/
theorem trimNuls_append_replicate {text : List Char} (h : text.getLast? ≠ some '\x00')
    (count : Nat) : trimNuls (text ++ List.replicate count '\x00') = text := by
  rw [trimNuls, List.reverse_append, List.reverse_replicate, List.dropWhile_append_of_pos]
  · rw [List.getLast?_eq_head?_reverse] at h
    cases hreverse : text.reverse with
    | nil => rw [List.dropWhile_nil, ← hreverse, List.reverse_reverse]
    | cons last before =>
      rw [hreverse, List.head?_cons, ne_eq, Option.some_inj] at h
      rw [List.dropWhile_cons_of_neg (by simpa using h), ← hreverse, List.reverse_reverse]
  · intro c hc
    rw [List.eq_of_mem_replicate hc]
    rfl

/-- A way of reading that takes one or more elements for a character. The ones behind the first are
not zero, and a zero is the character NUL. -/
structure Stepwise {α : Type} (isZero : α → Bool) (decode : List α → List Char) : Prop where
  nil : decode [] = []
  cons (a : α) (l : List α) : ∃ c front rest, l = front ++ rest ∧
    decode (a :: l) = c :: decode rest ∧ (∀ x ∈ front, isZero x = false) ∧
    (isZero a = true → c = '\x00' ∧ front = [])

/-- No text has more characters than elements it was read from. -/
theorem Stepwise.reach_le {α : Type} {isZero : α → Bool} {decode : List α → List Char}
    (h : Stepwise isZero decode) (l : List α) : reach isNul (decode l) ≤ reach isZero l := by
  induction hlength : l.length using Nat.strongRecOn generalizing l with
  | ind length ih =>
    cases l with
    | nil => rw [h.nil]; exact Nat.le_refl _
    | cons a l =>
      obtain ⟨c, front, rest, rfl, hdecode, hfront, hzero⟩ := h.cons a l
      have hrest := ih rest.length (by
        rw [← hlength, List.length_cons, List.length_append]
        omega) rest rfl
      rw [hdecode]
      cases ha : isZero a with
      | true =>
        obtain ⟨rfl, rfl⟩ := hzero ha
        rw [List.nil_append, reach_cons, reach_cons, ha]
        simp only [isNul, beq_self_eq_true, and_true]
        split <;> split <;> omega
      | false =>
        have hle : reach isNul (c :: decode rest) ≤ reach isNul (decode rest) + 1 := reach_cons_le
        rw [reach_cons_of_not_end ha, reach_append hfront]
        omega

/-! ## One byte a character -/

/-- The character that a byte stands for in Latin-1. -/
def byteChar (b : UInt8) : Char := Char.ofNat b.toNat

theorem ofNat_eq_nul_iff {n : Nat} (h : n < 0xd800) : Char.ofNat n = '\x00' ↔ n = 0 := by
  constructor
  · intro hnul
    have hnat := congrArg Char.toNat hnul
    rwa [Char.ofNat, dif_pos (.inl h)] at hnat
  · rintro rfl
    rfl

theorem byteChar_eq_nul_iff {b : UInt8} : byteChar b = '\x00' ↔ b = 0 := by
  rw [byteChar, ofNat_eq_nul_iff (Nat.lt_trans b.toNat_lt (by decide)), ← UInt8.toNat_inj]
  rfl

/-- The characters of single bytes: zero alone is the character NUL, and seven-bit bytes are the
same in all codepages. -/
structure IsByteMap (char : UInt8 → Char) : Prop where
  nul_iff (b : UInt8) : char b = '\x00' ↔ b = 0
  ascii {b : UInt8} (h : b < 0x80) : char b = byteChar b

theorem isByteMap_byteChar : IsByteMap byteChar := ⟨fun _ => byteChar_eq_nul_iff, fun _ => rfl⟩

/-- The character of a byte in a codepage; in UTF-8, that of a byte for itself. -/
def NarrowPage.char (page : NarrowPage) : UInt8 → Char :=
  match page with
  | windows1252 => windows1252Char
  | latin1 => byteChar
  | ascii | utf8 => asciiChar

theorem NarrowPage.decode_eq_map {page : NarrowPage} (h : page ≠ .utf8) (data : Bytes) :
    page.decode data = data.map page.char := by
  cases page with
  | utf8 => exact absurd rfl h
  | windows1252 | ascii | latin1 => rfl

theorem NarrowPage.windows1252Char_eq_nul_iff {b : UInt8} :
    windows1252Char b = '\x00' ↔ b = 0 := by
  rw [windows1252Char]
  split
  · next hb =>
    refine iff_of_false ?_ fun h => absurd (h ▸ hb.1) (by decide)
    have htable : ∀ i < 32, windows1252Table.getD i replacement ≠ '\x00' := by decide
    have hlt : b.toNat < 0xa0 := UInt8.lt_iff_toNat_lt.mp hb.2
    exact htable _ (by omega)
  · exact byteChar_eq_nul_iff

theorem NarrowPage.isByteMap_char (page : NarrowPage) : IsByteMap page.char := by
  have hascii : IsByteMap asciiChar := by
    refine ⟨fun b => ?_, fun h => if_pos h⟩
    rw [asciiChar]
    split
    · exact byteChar_eq_nul_iff
    · next hb => exact iff_of_false (by decide) fun h => hb (h ▸ by decide)
  cases page with
  | ascii => exact hascii
  | utf8 => exact hascii
  | latin1 => exact isByteMap_byteChar
  | windows1252 =>
    exact ⟨fun _ => windows1252Char_eq_nul_iff,
      fun h => if_neg fun hhigh => UInt8.not_lt.mpr hhigh.1 h⟩

theorem IsByteMap.reach_map {char : UInt8 → Char} (h : IsByteMap char) (data : Bytes) :
    reach isNul (data.map char) = reachBytes data := by
  rw [EseReader.reach_map, reachBytes]
  congr 1
  funext b
  simp only [isNul, Function.comp_apply, beq_eq_beq, h.nul_iff]

/-! ## UTF-8 -/

namespace Utf8

open NarrowPage

theorem decodeAfter_append (front done : List Char) (data : Bytes) :
    decodeAfter (front ++ done) data = done.reverse ++ decodeAfter front data := by
  induction front, data using decodeAfter.induct with
  | case1 front => rw [decodeAfter, decodeAfter, List.reverse_append]
  | case2 front b rest ih => rw [decodeAfter, decodeAfter, ← List.cons_append, ih]

theorem decode_cons (b : UInt8) (rest : Bytes) :
    decode (b :: rest) = (next b rest).1 :: decode (next b rest).2 := by
  rw [decode, decodeAfter]
  exact decodeAfter_append [] [(next b rest).1] _

/-- The bytes that complete a character are not zero; if there are none although there should be, the
character is lost. -/
theorem exists_of_finish {low : UInt8} (hlow : 0x80 ≤ low) (more : Nat) (high : UInt8) (bits : Nat)
    (data : Bytes) : ∃ front, data = front ++ (finish more low high bits data).2 ∧
      (∀ x ∈ front, (x == 0) = false) ∧
      (front = [] → more = 0 ∨ (finish more low high bits data).1 = replacement) := by
  induction more generalizing low high bits data with
  | zero => exact ⟨[], rfl, List.forall_mem_nil _, fun _ => .inl rfl⟩
  | succ more ih =>
    cases data with
    | nil => exact ⟨[], rfl, List.forall_mem_nil _, fun _ => .inr rfl⟩
    | cons b data =>
      rw [finish]
      split
      · next hb =>
        obtain ⟨front, hdata, hfront, -⟩ :=
          ih (by decide : (0x80 : UInt8) ≤ 0x80) 0xbf (bits * 64 + b.toNat % 64) data
        refine ⟨b :: front, by rw [List.cons_append, ← hdata], ?_,
          fun hnil => absurd hnil (List.cons_ne_nil _ _)⟩
        refine List.forall_mem_cons.mpr ⟨beq_eq_false_iff_ne.mpr ?_, hfront⟩
        rintro rfl
        exact absurd (UInt8.le_trans hlow hb.1) (by decide)
      · exact ⟨[], rfl, List.forall_mem_nil _, fun _ => .inr rfl⟩

theorem lead?_of_ascii {b : UInt8} (h : b < 0x80) : lead? b = some ⟨0, 0x80, 0xbf, b.toNat⟩ :=
  if_pos h

theorem low_of_lead? {b : UInt8} {lead : Lead} (h : lead? b = some lead) : 0x80 ≤ lead.low := by
  unfold lead? at h
  repeat' split at h
  all_goals cases h
  all_goals first
    | exact UInt8.le_refl 0x80
    | exact (by decide : (0x80 : UInt8) ≤ 0xa0)
    | exact (by decide : (0x80 : UInt8) ≤ 0x90)

theorem more_of_lead? {b : UInt8} {lead : Lead} (h : lead? b = some lead) (hb : ¬ b < 0x80) :
    lead.more ≠ 0 := by
  rw [lead?, if_neg hb] at h
  repeat' split at h
  all_goals cases h
  all_goals exact Nat.succ_ne_zero _

/-- One character: it takes seven-bit bytes one by one, and a byte with the highest bit set that is
taken alone is lost. -/
theorem exists_of_next (b : UInt8) (data : Bytes) : ∃ c front rest, data = front ++ rest ∧
    decode (b :: data) = c :: decode rest ∧ (∀ x ∈ front, (x == 0) = false) ∧
    (b < 0x80 → c = byteChar b ∧ front = []) ∧ (¬ b < 0x80 → front = [] → c = replacement) := by
  rw [decode_cons, next]
  by_cases hb : b < 0x80
  · rw [lead?_of_ascii hb]
    exact ⟨byteChar b, [], data, rfl, rfl, List.forall_mem_nil _, fun _ => ⟨rfl, rfl⟩,
      fun hnot => absurd hb hnot⟩
  · cases hlead : lead? b with
    | none =>
      exact ⟨replacement, [], data, rfl, rfl, List.forall_mem_nil _, fun h => absurd h hb,
        fun _ _ => rfl⟩
    | some lead =>
      obtain ⟨front, hdata, hfront, hlost⟩ :=
        exists_of_finish (low_of_lead? hlead) lead.more lead.high lead.bits data
      exact ⟨_, front, _, hdata, rfl, hfront, fun h => absurd h hb,
        fun _ hnil => (hlost hnil).resolve_left (more_of_lead? hlead hb)⟩

theorem stepwise : Stepwise (· == 0) decode where
  nil := by rw [decode, decodeAfter, List.reverse_nil]
  cons b data := by
    obtain ⟨c, front, rest, hdata, hdecode, hfront, hascii, -⟩ := exists_of_next b data
    refine ⟨c, front, rest, hdata, hdecode, hfront, fun hzero => ?_⟩
    obtain rfl := eq_of_beq hzero
    exact hascii (by decide)

theorem decode_nil : decode [] = [] := stepwise.nil

theorem decode_singleton (b : UInt8) : decode [b] = [asciiChar b] := by
  obtain ⟨c, front, rest, hnil, hdecode, -, hascii, hlost⟩ := exists_of_next b []
  obtain ⟨rfl, rfl⟩ := List.append_eq_nil_iff.mp hnil.symm
  rw [hdecode, decode_nil, asciiChar]
  split
  · next hb => rw [(hascii hb).1]; rfl
  · next hb => rw [hlost hb rfl]

/-- **A text that has a character for each byte is the same in each byte**, read for itself. -/
theorem decode_singleton_of_trimNuls_eq {char : UInt8 → Char} (hchar : IsByteMap char)
    {data : Bytes} (h : trimNuls (decode data) = trimNuls (data.map char)) :
    ∀ b ∈ data, decode [b] = [char b] := by
  induction data with
  | nil => exact List.forall_mem_nil _
  | cons b data ih =>
    obtain ⟨c, front, rest, rfl, hdecode, hfront, hascii, hlost⟩ := exists_of_next b data
    rw [hdecode, List.map_cons] at h
    by_cases hb : b < 0x80
    · obtain ⟨rfl, rfl⟩ := hascii hb
      rw [hchar.ascii hb] at h
      refine List.forall_mem_cons.mpr ⟨?_, ih (trimNuls_cons_inj h)⟩
      rw [decode_singleton, asciiChar, if_pos hb, hchar.ascii hb]
      rfl
    · have hnonzero : char b ≠ '\x00' := by
        rw [Ne, hchar.nul_iff]
        rintro rfl
        exact hb (by decide)
      rw [trimNuls_cons_of_ne hnonzero, trimNuls_cons] at h
      split at h
      · cases h
      · obtain ⟨hc, h⟩ := List.cons.inj h
        -- Were there bytes behind the first one, the text would be too short.
        have hlength := congrArg List.length h
        have hle := stepwise.reach_le rest
        rw [length_trimNuls, length_trimNuls, hchar.reach_map, reachBytes,
          reach_append hfront] at hlength
        obtain rfl : front = [] := List.eq_nil_of_length_eq_zero (by omega)
        refine List.forall_mem_cons.mpr ⟨?_, ih h⟩
        rw [decode_singleton, asciiChar, if_neg hb, ← hc, hlost hb rfl]

end Utf8

/-! ## UTF-16 -/

namespace Utf16

theorem unitsAfter_eq_append (done : List UInt16) (data : Bytes) :
    unitsAfter done data = done.reverse ++ units data := by
  unfold units
  induction data using List.twoStepInduction generalizing done with
  | nil => exact (List.append_nil _).symm
  | singleton a => exact (List.append_nil _).symm
  | cons_cons a b rest ih _ =>
    rw [unitsAfter, unitsAfter, ih, ih [_], List.reverse_cons, List.append_assoc]
    rfl

theorem units_cons_cons (a b : UInt8) (rest : Bytes) :
    units (a :: b :: rest) = UInt16.ofNat (littleEndian [a, b]) :: units rest :=
  unitsAfter_eq_append [_] rest

theorem toNat_unit (a b : UInt8) :
    (UInt16.ofNat (littleEndian [a, b])).toNat = a.toNat + 256 * b.toNat := by
  rw [toNat_ofNat_pair]
  simp only [littleEndian, Nat.mul_zero, Nat.add_zero]

theorem unit_eq_zero_iff {a b : UInt8} :
    UInt16.ofNat (littleEndian [a, b]) = 0 ↔ a = 0 ∧ b = 0 := by
  rw [← UInt16.toNat_inj, toNat_unit, ← UInt8.toNat_inj, ← UInt8.toNat_inj]
  show _ = 0 ↔ a.toNat = 0 ∧ b.toNat = 0
  omega

/-- Two bytes make a unit. -/
theorem reach_units_le (data : Bytes) :
    reach (· == 0) (units data) ≤ (reachBytes data + 1) / 2 := by
  induction data using List.twoStepInduction with
  | nil => exact Nat.zero_le _
  | singleton a => exact Nat.zero_le _
  | cons_cons a b rest ih _ =>
    rw [units_cons_cons, reachBytes, reach_cons, reach_cons, reach_cons]
    rw [reachBytes] at ih
    simp only [beq_iff_eq, unit_eq_zero_iff]
    by_cases ha : a = 0 <;> by_cases hb : b = 0 <;> simp only [ha, hb] <;> grind

/-- The character at the front of `u :: rest`, and the units behind it. -/
def next (u : UInt16) (rest : List UInt16) : Option Char × List UInt16 :=
  if isHighHalf u then
    match rest with
    | v :: rest' => if isLowHalf v then (some (joinHalves u v), rest') else (none, rest)
    | [] => (none, [])
  else (if isLowHalf u then none else some (Char.ofNat u.toNat), rest)

theorem charsAfter_cons (done : List (Option Char)) (u : UInt16) (rest : List UInt16) :
    charsAfter done (u :: rest) = charsAfter ((next u rest).1 :: done) (next u rest).2 := by
  cases rest with
  | nil =>
    rw [charsAfter, next]
    split
    · rw [charsAfter]
    · split <;> rfl
  | cons v rest =>
    rw [charsAfter, next]
    split
    · split <;> rfl
    · split <;> rfl

/-- A unit that stands behind another one in a character is not zero, and a zero is a character of
its own. -/
theorem exists_of_next (u : UInt16) (units : List UInt16) :
    ∃ front, units = front ++ (next u units).2 ∧ (∀ v ∈ front, (v == 0) = false) ∧
      (u = 0 → (next u units).1 = some '\x00' ∧ front = []) := by
  have hzero : isHighHalf 0 = false ∧ isLowHalf 0 = false := by decide
  cases hhigh : isHighHalf u with
  | false =>
    refine ⟨[], by rw [next.eq_def, hhigh]; rfl, List.forall_mem_nil _, ?_⟩
    rintro rfl
    exact ⟨rfl, rfl⟩
  | true =>
    have hnot : u ≠ 0 := by
      rintro rfl
      rw [hzero.1] at hhigh
      cases hhigh
    cases units with
    | nil =>
      exact ⟨[], by rw [next, hhigh]; rfl, List.forall_mem_nil _, fun h => absurd h hnot⟩
    | cons v units =>
      cases hlow : isLowHalf v with
      | false =>
        refine ⟨[], ?_, List.forall_mem_nil _, fun h => absurd h hnot⟩
        simp only [next, hhigh, hlow, if_true, Bool.false_eq_true, if_false, List.nil_append]
      | true =>
        refine ⟨[v], ?_, List.forall_mem_singleton.mpr ?_, fun h => absurd h hnot⟩
        · simp only [next, hhigh, hlow, if_true, List.singleton_append]
        · rw [beq_eq_false_iff_ne]
          rintro rfl
          rw [hzero.2] at hlow
          cases hlow

theorem charsAfter_append (front done : List (Option Char)) (units : List UInt16) :
    charsAfter (front ++ done) units = done.reverse ++ charsAfter front units := by
  induction hlength : units.length using Nat.strongRecOn generalizing front units with
  | ind length ih =>
    cases units with
    | nil => rw [charsAfter, charsAfter, List.reverse_append]
    | cons u units =>
      obtain ⟨taken, hunits, -⟩ := exists_of_next u units
      have hshorter : (next u units).2.length < length := by
        have := congrArg List.length hunits
        rw [List.length_append] at this
        rw [← hlength, List.length_cons]
        omega
      rw [charsAfter_cons, charsAfter_cons, ← List.cons_append, ih _ hshorter _ _ rfl]

theorem chars_cons (u : UInt16) (units : List UInt16) :
    chars (u :: units) = (next u units).1 :: chars (next u units).2 := by
  rw [chars, charsAfter_cons]
  exact charsAfter_append [] [_] _

theorem stepwise : Stepwise (· == 0) fun units => (chars units).map (·.getD replacement) where
  nil := rfl
  cons u units := by
    obtain ⟨front, hunits, hfront, hzero⟩ := exists_of_next u units
    refine ⟨_, front, _, hunits, by rw [chars_cons, List.map_cons], hfront, fun hu => ?_⟩
    obtain ⟨hchar, hnil⟩ := hzero (eq_of_beq hu)
    exact ⟨by rw [hchar]; rfl, hnil⟩

/-- **No more than half as many characters as bytes.** -/
theorem reach_decode_le (data : Bytes) : reach isNul (decode data) ≤ (reachBytes data + 1) / 2 :=
  Nat.le_trans (stepwise.reach_le (units data)) (reach_units_le data)

end Utf16

end EseReader
