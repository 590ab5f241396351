import EseReader.Proofs.Tree.Iteration
import EseReader.Source.Memory

/-!
# `EseReader/Proofs/Source/Memory.lean` — pages in memory, and how they are counted

Pages in memory are the result of writes, one after the other, of which some may have failed. What
can be read is shown for every sequence of writes: it is **what the last successful write of that
page stored** (`get_writeAll`). A write fails exactly if its bytes are not as many as a page has,
and leaves nothing behind.

The same pages can be had from a table with a slot for each number, which grows up to the highest
one that is stored (`Represents`). Its length is what is counted, in 32 bits, and so the page count
covers the stored pages **unless the last page number is among them** (`Sound.counted_iff`): then
there is one slot more than a page count can say. The count is 0 in this case, and as it is what
bounds a reading of leaves, every reading ends behind its first leaf (`Sound.reads_one_leaf`).
-/

set_option autoImplicit false

namespace EseReader

namespace MemoryPages

/-- A page that is to be stored. -/
structure Write where
  number : PageNumber
  data : Bytes
  deriving DecidableEq, Repr

/-- The pages after a write. One that fails changes nothing. -/
def attempt (pages : MemoryPages) (write : Write) : MemoryPages :=
  match pages.set write.number write.data with
  | .ok next => next
  | .error _ => pages

def writeAll (pages : MemoryPages) (writes : List Write) : MemoryPages :=
  writes.foldl attempt pages

/-- Those of the writes that succeed, if they are made one after the other. -/
def successes (pages : MemoryPages) : List Write → List Write
  | [] => []
  | write :: writes =>
    match pages.set write.number write.data with
    | .ok next => write :: next.successes writes
    | .error _ => pages.successes writes

/-- The data of the last one of the writes that is of page `number`. -/
def lastOf (number : PageNumber) (writes : List Write) : Option Bytes :=
  (writes.findRev? fun write => write.number == number).map Write.data

variable {pages next : MemoryPages} {number other : PageNumber} {data : Bytes} {write : Write}

/-! ## One write -/

theorem set_eq_ok_iff :
    pages.set number data = .ok next ↔
      data.length = pages.pageSize ∧
        next = ⟨pages.pageSize, max pages.slots (number.toNat + 1), (number, data) :: pages.stored⟩ := by
  simp only [set]
  split
  case isTrue h => simp [h, eq_comm]
  case isFalse h => simp [h]

theorem set_eq_error_iff {e : Error} :
    pages.set number data = .error e ↔
      data.length ≠ pages.pageSize ∧ e = .pageLength number data.length pages.pageSize := by
  simp only [set]
  split
  case isTrue h => simp [h]
  case isFalse h => simp [h, eq_comm]

theorem get_set (h : pages.set number data = .ok next) :
    next.get other = if number = other then .ok data else pages.get other := by
  obtain ⟨-, rfl⟩ := set_eq_ok_iff.mp h
  rw [get, List.lookup_cons]
  by_cases heq : number = other
  · subst heq
    simp
  · have hne : (other == number) = false := beq_false_of_ne (Ne.symm heq)
    rw [hne, if_neg heq]
    rfl

theorem slots_of_set (h : pages.set number data = .ok next) :
    next.slots = max pages.slots (number.toNat + 1) := by
  obtain ⟨-, rfl⟩ := set_eq_ok_iff.mp h
  rfl

theorem pageSize_of_set (h : pages.set number data = .ok next) : next.pageSize = pages.pageSize := by
  obtain ⟨-, rfl⟩ := set_eq_ok_iff.mp h
  rfl

/-- Page `number` can be read. -/
def Holds (pages : MemoryPages) (number : PageNumber) : Prop := ∃ data, pages.get number = .ok data

theorem holds_of_set_iff (h : pages.set number data = .ok next) :
    next.Holds other ↔ number = other ∨ pages.Holds other := by
  unfold Holds
  rw [get_set h]
  by_cases heq : number = other
  · rw [if_pos heq]
    exact iff_of_true ⟨data, rfl⟩ (.inl heq)
  · rw [if_neg heq]
    exact (or_iff_right heq).symm

theorem attempt_of_ok (h : pages.set write.number write.data = .ok next) :
    pages.attempt write = next := by
  rw [attempt, h]

theorem attempt_of_error {e : Error} (h : pages.set write.number write.data = .error e) :
    pages.attempt write = pages := by
  rw [attempt, h]

theorem pageSize_attempt : (pages.attempt write).pageSize = pages.pageSize := by
  cases h : pages.set write.number write.data with
  | error e => rw [attempt_of_error h]
  | ok next =>
    rw [attempt_of_ok h]
    exact pageSize_of_set h

/-! ## All writes -/

theorem writeAll_cons (writes : List Write) :
    pages.writeAll (write :: writes) = (pages.attempt write).writeAll writes := rfl

theorem writeAll_append (writes later : List Write) :
    pages.writeAll (writes ++ later) = (pages.writeAll writes).writeAll later :=
  List.foldl_append

theorem pageSize_writeAll (writes : List Write) :
    (pages.writeAll writes).pageSize = pages.pageSize := by
  induction writes generalizing pages with
  | nil => rfl
  | cons write writes ih => exact ih.trans pageSize_attempt

/-- Whether a write succeeds does not depend on the writes in front of it. -/
theorem successes_eq_filter (writes : List Write) :
    pages.successes writes = writes.filter (·.data.length = pages.pageSize) := by
  induction writes generalizing pages with
  | nil => rfl
  | cons write writes ih =>
    rw [successes]
    cases h : pages.set write.number write.data with
    | error e =>
      have hlength := (set_eq_error_iff.mp h).1
      rw [List.filter_cons_of_neg (by simpa using hlength)]
      exact ih
    | ok next =>
      have hlength := (set_eq_ok_iff.mp h).1
      rw [List.filter_cons_of_pos (by simpa using hlength), ← pageSize_of_set h]
      exact congrArg (write :: ·) ih

theorem lastOf_cons (writes : List Write) :
    lastOf number (write :: writes) =
      (lastOf number writes).or (if write.number = number then some write.data else none) := by
  rw [lastOf, lastOf, List.findRev?]
  cases writes.findRev? fun write => write.number == number with
  | some found => rfl
  | none =>
    by_cases h : write.number = number
    · simp [h]
    · simp [h]

/-- **What is read is what the last successful write stored**, or what was there before. -/
theorem get_writeAll (writes : List Write) :
    (pages.writeAll writes).get number =
      match lastOf number (pages.successes writes) with
      | some data => .ok data
      | none => pages.get number := by
  induction writes generalizing pages with
  | nil => rfl
  | cons write writes ih =>
    rw [writeAll_cons, ih, successes]
    cases h : pages.set write.number write.data with
    | error e => rw [attempt_of_error h]
    | ok next =>
      rw [attempt_of_ok h, lastOf_cons]
      cases lastOf number (next.successes writes) with
      | some data => rfl
      | none =>
        rw [Option.none_or, get_set h]
        by_cases heq : write.number = number
        · rw [if_pos heq, if_pos heq]
        · rw [if_neg heq, if_neg heq]

/-! ## As a table of slots -/

/-- What stands in the slot of page `number`. -/
def readSlot (slots : List (Option Bytes)) (number : PageNumber) : Except Error Bytes :=
  match slots[number.toNat]? with
  | some (some data) => .ok data
  | _ => .error (.page number .notPresent)

/-- A write fills the slot of its page, and lets the table grow that far, with empty slots. -/
def fillSlot (slots : List (Option Bytes)) (write : Write) : List (Option Bytes) :=
  (slots.rightpad (write.number.toNat + 1) none).set write.number.toNat (some write.data)

/-- The table of slots that the writes of the right length fill. -/
def slotTable (size : Nat) (writes : List Write) : List (Option Bytes) :=
  (writes.filter (·.data.length = size)).foldl fillSlot []

variable {slots : List (Option Bytes)}

theorem length_fillSlot :
    (fillSlot slots write).length = max slots.length (write.number.toNat + 1) := by
  rw [fillSlot, List.length_set, List.length_rightpad, Nat.max_comm]

theorem readSlot_rightpad (size : Nat) :
    readSlot (slots.rightpad size none) number = readSlot slots number := by
  rw [readSlot, readSlot, List.rightpad]
  by_cases hlt : number.toNat < slots.length
  · rw [List.getElem?_append_left hlt]
  · have hle : slots.length ≤ number.toNat := Nat.le_of_not_lt hlt
    rw [List.getElem?_append_right hle, List.getElem?_eq_none hle, List.getElem?_replicate]
    by_cases hpadded : number.toNat - slots.length < size - slots.length
    · rw [if_pos hpadded]
    · rw [if_neg hpadded]

theorem readSlot_fillSlot :
    readSlot (fillSlot slots write) number =
      if write.number = number then .ok write.data else readSlot slots number := by
  by_cases heq : write.number = number
  · have hlt : number.toNat < (slots.rightpad (number.toNat + 1) none).length := by
      rw [List.length_rightpad]
      exact Nat.lt_of_lt_of_le (Nat.lt_succ_self _) (Nat.le_max_left _ _)
    rw [if_pos heq, readSlot, fillSlot, heq, List.getElem?_set_self hlt]
  · have hne : write.number.toNat ≠ number.toNat := fun h => heq (UInt32.toNat_inj.mp h)
    rw [if_neg heq, readSlot, fillSlot, List.getElem?_set_ne hne, ← readSlot, readSlot_rightpad]

/-- The pages are read and counted as those of the table are. -/
structure Represents (slots : List (Option Bytes)) (pages : MemoryPages) : Prop where
  length_eq : slots.length = pages.slots
  readSlot_eq (number : PageNumber) : readSlot slots number = pages.get number

theorem Represents.of_set (hslots : Represents slots pages)
    (h : pages.set write.number write.data = .ok next) : Represents (fillSlot slots write) next where
  length_eq := by rw [length_fillSlot, hslots.length_eq, slots_of_set h]
  readSlot_eq number := by rw [readSlot_fillSlot, hslots.readSlot_eq, get_set h]

theorem Represents.writeAll (hslots : Represents slots pages) (writes : List Write) :
    Represents ((pages.successes writes).foldl fillSlot slots) (pages.writeAll writes) := by
  induction writes generalizing slots pages with
  | nil => exact hslots
  | cons write writes ih =>
    rw [writeAll_cons, successes]
    cases h : pages.set write.number write.data with
    | error e =>
      rw [attempt_of_error h]
      exact ih hslots
    | ok next =>
      rw [attempt_of_ok h]
      exact ih (hslots.of_set h)

theorem represents_empty (size : Nat) : Represents [] (empty size) where
  length_eq := rfl
  readSlot_eq _ := rfl

theorem represents_slotTable (size : Nat) (writes : List Write) :
    Represents (slotTable size writes) ((empty size).writeAll writes) := by
  have htable := (represents_empty size).writeAll writes
  rwa [successes_eq_filter] at htable

/-! ## What a write preserves -/

/-- Pages as writes leave them. -/
structure Sound (pages : MemoryPages) : Prop where
  sized {number : PageNumber} {data : Bytes} (h : pages.get number = .ok data) :
    data.length = pages.pageSize
  below {number : PageNumber} (h : pages.Holds number) : number.toNat < pages.slots
  /-- There is no slot behind the highest page. -/
  highest : pages.slots = 0 ∨ ∃ top, pages.Holds top ∧ top.toNat + 1 = pages.slots

theorem sound_empty (size : Nat) : (empty size).Sound where
  sized h := by cases h
  below h := by cases h with | intro _ h => cases h
  highest := .inl rfl

theorem Sound.sized_of_set (hsound : pages.Sound) (h : pages.set number data = .ok next)
    {found : Bytes} (hfound : next.get other = .ok found) : found.length = next.pageSize := by
  rw [get_set h] at hfound
  rw [pageSize_of_set h]
  split at hfound
  · cases hfound
    exact (set_eq_ok_iff.mp h).1
  · exact hsound.sized hfound

theorem Sound.below_of_set (hsound : pages.Sound) (h : pages.set number data = .ok next)
    (hother : next.Holds other) : other.toNat < next.slots := by
  rw [slots_of_set h]
  rcases (holds_of_set_iff h).mp hother with rfl | hother
  · exact Nat.lt_of_lt_of_le (Nat.lt_succ_self _) (Nat.le_max_right _ _)
  · exact Nat.lt_of_lt_of_le (hsound.below hother) (Nat.le_max_left _ _)

theorem Sound.highest_of_set (hsound : pages.Sound) (h : pages.set number data = .ok next) :
    ∃ top, next.Holds top ∧ top.toNat + 1 = next.slots := by
  rw [slots_of_set h]
  by_cases hgrows : pages.slots ≤ number.toNat + 1
  · exact ⟨number, (holds_of_set_iff h).mpr (.inl rfl), (Nat.max_eq_right hgrows).symm⟩
  · obtain hnone | ⟨top, hholds, htop⟩ := hsound.highest
    · omega
    · exact ⟨top, (holds_of_set_iff h).mpr (.inr hholds),
        htop.trans (Nat.max_eq_left (Nat.le_of_not_le hgrows)).symm⟩

theorem Sound.of_set (hsound : pages.Sound) (h : pages.set number data = .ok next) : next.Sound where
  sized := hsound.sized_of_set h
  below := hsound.below_of_set h
  highest := .inr (hsound.highest_of_set h)

theorem Sound.attempt (hsound : pages.Sound) (write : Write) : (pages.attempt write).Sound := by
  cases h : pages.set write.number write.data with
  | error e => rwa [attempt_of_error h]
  | ok next => rw [attempt_of_ok h]; exact hsound.of_set h

theorem Sound.writeAll (hsound : pages.Sound) (writes : List Write) :
    (pages.writeAll writes).Sound := by
  induction writes generalizing pages with
  | nil => exact hsound
  | cons write writes ih => exact ih (hsound.attempt write)

/-! ## The page count -/

/-- The highest number that a page can have. -/
def lastNumber : PageNumber := 0xffffffff

theorem toNat_le_lastNumber (number : PageNumber) : number.toNat ≤ lastNumber.toNat :=
  Nat.le_of_lt_succ number.toNat_lt

theorem Sound.slots_le (hsound : pages.Sound) : pages.slots ≤ lastNumber.toNat + 1 := by
  obtain hnone | ⟨top, -, htop⟩ := hsound.highest
  · omega
  · have hle := toNat_le_lastNumber top
    omega

/-- Without the last page, the count is the number of slots. -/
theorem Sound.toNat_pageCount (hsound : pages.Sound) (hlast : ¬ pages.Holds lastNumber) :
    pages.pageCount.toNat = pages.slots := by
  apply UInt32.toNat_ofNat_of_lt'
  obtain hnone | ⟨top, hholds, htop⟩ := hsound.highest
  · rw [hnone]
    decide
  · have hne : top.toNat ≠ lastNumber.toNat := by
      intro heq
      rw [UInt32.toNat_inj.mp heq] at hholds
      exact hlast hholds
    have hle := toNat_le_lastNumber top
    have hsize : UInt32.size = lastNumber.toNat + 1 := rfl
    omega

/-- With the last page, the slots are one more than the count can say. -/
theorem Sound.pageCount_eq_zero (hsound : pages.Sound) (hlast : pages.Holds lastNumber) :
    pages.pageCount = 0 := by
  have hslots : pages.slots = lastNumber.toNat + 1 :=
    Nat.le_antisymm hsound.slots_le (hsound.below hlast)
  rw [pageCount, hslots]
  rfl

theorem Sound.counted_iff (hsound : pages.Sound) :
    (∀ number, pages.Holds number → number < pages.pageCount) ↔ ¬ pages.Holds lastNumber := by
  constructor
  · intro hcounted hlast
    have hlt := hcounted lastNumber hlast
    rw [hsound.pageCount_eq_zero hlast] at hlt
    exact absurd hlt (by decide)
  · intro hlast number hholds
    rw [UInt32.lt_iff_toNat_lt, hsound.toNat_pageCount hlast]
    exact hsound.below hholds

/-! ## What the count does to a reading -/

/-- The trees on these pages. -/
def forest (pages : MemoryPages) (format : Format) : Forest := ⟨pages.source, format⟩

theorem Sound.countsPages (hsound : pages.Sound) (hlast : ¬ pages.Holds lastNumber)
    (format : Format) : (pages.forest format).CountsPages := by
  intro number hbehind
  cases h : pages.get number with
  | error e => exact ⟨e, h⟩
  | ok data =>
    have hlt := hsound.counted_iff.mpr hlast number ⟨data, h⟩
    exact absurd hlt (UInt32.not_lt.mpr hbehind)

/-- A reading that starts in a leaf with no more leaves left ends behind it, and with an error if the
chain goes on. -/
theorem allItems_inLeaf_zero (forest : Forest) (bound : Option Key) (leaf : Node) :
    (forest.allItems (Forest.inLeaf bound leaf 0)).value =
      (LeafCursor.admitted bound leaf.values).map .ok ++
        if leaf.next = 0 then [] else [.error (.tree leaf.page .endlessChain)] := by
  rw [Forest.inLeaf, Forest.allItems_pending]
  congr 1
  split
  case isTrue hend => rw [hend, Forest.allItems_of_none Forest.value_next_ended]
  case isFalse hnext =>
    rw [Forest.allItems_of_some (Forest.value_next_endless hnext), Forest.allItems_of_none rfl]

/-- Once the last page is stored, no reading enters a leaf but the one it starts in. -/
theorem Sound.reads_one_leaf (hsound : pages.Sound) (hlast : pages.Holds lastNumber)
    {format : Format} {root : PageNumber} {cursor : LeafCursor}
    (h : ((pages.forest format).leaves root).value = .ok cursor) :
    cursor = .ended ∨ ∃ leaf, (pages.forest format).LeafAt leaf ∧
      cursor = Forest.inLeaf none leaf 0 ∧
      ((pages.forest format).allItems cursor).value = leaf.values.map .ok ++
        if leaf.next = 0 then [] else [.error (.tree leaf.page .endlessChain)] := by
  have hleft : (pages.forest format).source.pageCount.toNat = 0 :=
    congrArg UInt32.toNat (hsound.pageCount_eq_zero hlast)
  obtain rfl | ⟨leaf, hleaf, rfl⟩ := Forest.of_value_cursorFrom h
  · exact .inl rfl
  · rw [hleft]
    exact .inr ⟨leaf, hleaf, rfl, allItems_inLeaf_zero _ none leaf⟩

/-! ## All together -/

/-- How pages stand to the writes that they come from. -/
structure Faithful (size : Nat) (writes : List Write) (pages : MemoryPages) : Prop where
  get_eq (number : PageNumber) : pages.get number =
    match lastOf number ((empty size).successes writes) with
    | some data => .ok data
    | none => .error (.page number .notPresent)
  sized {number : PageNumber} {data : Bytes} (h : pages.get number = .ok data) :
    data.length = pages.pageSize
  fails_iff (write : Write) (e : Error) : pages.set write.number write.data = .error e ↔
    write.data.length ≠ size ∧ e = .pageLength write.number write.data.length size
  unchanged {write : Write} {e : Error} (h : pages.set write.number write.data = .error e) :
    (empty size).writeAll (writes ++ [write]) = pages
  /-- The count is the length of a table with a slot for each number, in 32 bits. -/
  count_eq : pages.pageCount = UInt32.ofNat (slotTable size writes).length
  slot_eq (number : PageNumber) : pages.get number = readSlot (slotTable size writes) number

theorem faithful (size : Nat) (writes : List Write) :
    Faithful size writes ((empty size).writeAll writes) where
  get_eq number := by
    rw [get_writeAll]
    rfl
  sized := ((sound_empty size).writeAll writes).sized
  fails_iff write e := by
    rw [set_eq_error_iff, pageSize_writeAll]
    rfl
  unchanged h := by
    rw [writeAll_append]
    exact attempt_of_error h
  count_eq := congrArg UInt32.ofNat (represents_slotTable size writes).length_eq.symm
  slot_eq number := ((represents_slotTable size writes).readSlot_eq number).symm

/-- **Pages in memory are a map from numbers to pages, and all of them are counted unless the last
number is among them.** This is so after any writes, whichever of them fail. Once the last page is
stored the count is 0, and a reading of leaves over these pages ends behind one leaf, however the
chain goes on. -/
theorem pages_come_back_counted_iff (size : Nat) (writes : List Write) :
    let pages := (empty size).writeAll writes
    Faithful size writes pages ∧
      ((∀ number, pages.Holds number → number < pages.pageCount) ↔ ¬ pages.Holds lastNumber) ∧
      (¬ pages.Holds lastNumber → ∀ format, (pages.forest format).CountsPages) ∧
      (pages.Holds lastNumber → pages.pageCount = 0 ∧ ∀ format root cursor,
        ((pages.forest format).leaves root).value = .ok cursor →
          cursor = .ended ∨ ∃ leaf, (pages.forest format).LeafAt leaf ∧
            cursor = Forest.inLeaf none leaf 0 ∧
            ((pages.forest format).allItems cursor).value = leaf.values.map .ok ++
              if leaf.next = 0 then [] else [.error (.tree leaf.page .endlessChain)]) := by
  intro pages
  have hsound : pages.Sound := (sound_empty size).writeAll writes
  exact ⟨faithful size writes, hsound.counted_iff, hsound.countsPages, fun hlast =>
    ⟨hsound.pageCount_eq_zero hlast, fun _ _ _ => hsound.reads_one_leaf hlast⟩⟩

/-- Two leaves in a chain. The first attempt to store the second one fails. -/
def chainWrites : List Write :=
  [⟨5, (PageImage.leaf 72 6 [[0x61]]).bytes⟩, ⟨6, [0x62]⟩, ⟨6, (PageImage.leaf 72 0 [[0x62]]).bytes⟩]

/-- The same chain, and under the last number a page that has nothing to do with it. -/
def fullWrites : List Write := chainWrites ++ [⟨lastNumber, zeros 72⟩]

theorem leaves_fullWrites :
    (((((empty 72).writeAll fullWrites).forest .standard).leaves 5).value =
      .ok (.reading none [Forest.sampleValue 0x61 5 40 1] 5 6 0)) := rfl

/-- The chain is there with that page as without it, but it is refused behind its first leaf. -/
theorem pages_come_back_counted_iff_sample :
    let chained := (empty 72).writeAll chainWrites
    let full := (empty 72).writeAll fullWrites
    chained.get 6 = .ok (PageImage.leaf 72 0 [[0x62]]).bytes ∧ full.get 6 = chained.get 6 ∧
      full.get 4 = .error (.page 4 .notPresent) ∧
      (∀ number, chained.Holds number → number < chained.pageCount) ∧
      full.Holds lastNumber ∧ full.pageCount = 0 ∧
      ∃ cursor, ((full.forest .standard).leaves 5).value = .ok cursor ∧
        ((full.forest .standard).allItems cursor).value =
          [.ok (Forest.sampleValue 0x61 5 40 1), .error (.tree 5 .endlessChain)] := by
  intro chained full
  obtain ⟨hchained, hcounted, -⟩ := pages_come_back_counted_iff 72 chainWrites
  obtain ⟨hfull, -, -, hlast⟩ := pages_come_back_counted_iff 72 fullWrites
  have hsecond : chained.get 6 = .ok (PageImage.leaf 72 0 [[0x62]]).bytes :=
    (hchained.get_eq 6).trans rfl
  have hkept : full.get 6 = .ok (PageImage.leaf 72 0 [[0x62]]).bytes := (hfull.get_eq 6).trans rfl
  have hmissing : full.get 4 = .error (.page 4 .notPresent) := (hfull.get_eq 4).trans rfl
  have hnone : ¬ chained.Holds lastNumber := by
    rintro ⟨data, h⟩
    cases (hchained.get_eq lastNumber).symm.trans h
  have hholds : full.Holds lastNumber := ⟨zeros 72, (hfull.get_eq lastNumber).trans rfl⟩
  obtain ⟨hcount, hreading⟩ := hlast hholds
  refine ⟨hsecond, hkept.trans hsecond.symm, hmissing, hcounted.mpr hnone, hholds, hcount, _,
    leaves_fullWrites, ?_⟩
  obtain h | ⟨leaf, -, hcursor, hitems⟩ := hreading .standard 5 _ leaves_fullWrites
  · cases h
  · obtain ⟨-, hvalues, hpage, hnext, -⟩ := LeafCursor.reading.inj hcursor
    have hvalues : [Forest.sampleValue 0x61 5 40 1] = leaf.values := hvalues
    rw [hitems, ← hpage, ← hnext, ← hvalues]
    rfl

end MemoryPages

end EseReader
