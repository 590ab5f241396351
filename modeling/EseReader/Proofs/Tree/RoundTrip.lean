import EseReader.Proofs.Page.RoundTrip
import EseReader.Tree.Node

/-!
# `EseReader/Proofs/Tree/RoundTrip.lean` — reading a node undoes writing it

A `NodeImage` says what a node holds: the common key, and behind it the entries in the order of
their tags, those that were deleted included. `NodeImage.node` is what should be read of it, and
looks at no byte of the page.

A deleted entry keeps its tag and its bytes, so it moves the places of all later entries and none
of their tags is free to close the gap. That is why the entries to be read are counted by two
numbers at once (`NodeImage.entriesFrom`): the place goes up by what was written, the tag by one.

On a root the value of tag 0 is no key. Entries of a root may still say how much of the common key
they take, as long as that is nothing.
-/

set_option autoImplicit false

namespace EseReader

/-! ## What is written -/

/-- What is written for a tag behind the common key. -/
inductive EntryImage where
  /-- An entry, and how much of the common key it takes, if it says so at all. -/
  | live (versioned : Bool) (size? : Option Nat) (key payload : Bytes)
  /-- What is left of an entry that was deleted. Its bytes need not be an entry any more. -/
  | defunct (versioned shared : Bool) (data : Bytes)
  deriving DecidableEq, Repr

namespace EntryImage

/-- The three flags of a value as a number. -/
def flagBits (versioned defunct shared : Bool) : Nat :=
  versioned.toNat + 2 * defunct.toNat + 4 * shared.toNat

def value : EntryImage → ValueImage
  | live versioned size? key payload =>
    ⟨flagBits versioned false size?.isSome, ValueImage.entryBytes size? key payload⟩
  | defunct versioned shared data => ⟨flagBits versioned true shared, data⟩

/-- The first word of an entry is one of its two sizes. -/
def firstWord (size? : Option Nat) (key : Bytes) : Nat := size?.getD key.length

/-- What stands behind the first word. -/
def behindWord (size? : Option Nat) (key payload : Bytes) : Bytes :=
  if size?.isSome then leBytes 2 key.length ++ (key ++ payload) else key ++ payload

/-- Where the local key of an entry starts. -/
def keyStart (size? : Option Nat) : Nat := if size?.isSome then 4 else 2

end EntryImage

/-- What stands on a page that is a node. -/
structure NodeImage where
  size : Nat
  extended : Bool
  flags : PageFlags
  previous : PageNumber
  next : PageNumber
  /-- The value of tag 0, the common key unless the page is a root. -/
  common : ValueImage
  entries : List EntryImage
  deriving DecidableEq, Repr

namespace NodeImage

def page (image : NodeImage) : PageImage where
  size := image.size
  extended := image.extended
  flags := image.flags.bits
  previous := image.previous
  next := image.next
  values := image.common :: image.entries.map EntryImage.value

def bytes (image : NodeImage) : Bytes := image.page.bytes

/-- Whether an entry can stand on the page, apart from the room it takes. -/
def FitsEntry (image : NodeImage) : EntryImage → Prop
  | .live _ size? key payload =>
    (∀ size ∈ size?, size ≤ image.common.data.length ∧ (image.flags.isRoot → size = 0)) ∧
      (image.flags.isLeaf = false → 4 ≤ payload.length) ∧
      (image.extended → EntryImage.firstWord size? key < 0x2000)
  | .defunct _ _ data => image.extended → 2 ≤ data.length

instance (image : NodeImage) : (entry : EntryImage) → Decidable (image.FitsEntry entry)
  | .live .. => inferInstanceAs (Decidable (_ ∧ _ ∧ _))
  | .defunct .. => inferInstanceAs (Decidable (_ → _))

/-- **An image that a node can have.** Where the flags are inside the values, the bits that they
take have to be free in the common key and in the first word of every entry. -/
structure Fits (image : NodeImage) : Prop where
  page : image.page.Fits
  notEmpty : image.flags.isEmpty = false
  common : image.extended → image.flags.isRoot = false →
    ∀ byte ∈ image.common.data[1]?, byte < 0x20
  entries : ∀ entry ∈ image.entries, image.FitsEntry entry

/-! ## What should be read -/

/-- The entry that a live image stands for, at the given place and tag. -/
def live? (image : NodeImage) (number : PageNumber) (place tag : Nat) : EntryImage → Option Entry
  | .live _ size? key payload =>
    some
      { key := ⟨image.common.data.take (size?.getD 0) ++ key⟩
        data := payload
        location := ⟨number, place, tag, EntryImage.keyStart size? + key.length⟩ }
  | .defunct .. => none

/-- The live ones among `entries`, of which the first stands at `place` of the page. -/
def entriesFrom (image : NodeImage) (number : PageNumber) :
    (place tag : Nat) → List EntryImage → List Entry
  | _, _, [] => []
  | place, tag, entry :: entries =>
    (image.live? number place tag entry).toList ++
      image.entriesFrom number (place + entry.value.data.length) (tag + 1) entries

/-- The live entries of the page. The common key has tag 0 and stands in front of them. -/
def liveEntries (image : NodeImage) (number : PageNumber) : List Entry :=
  image.entriesFrom number ((if image.extended then 80 else 40) + image.common.data.length) 1
    image.entries

/-- What should be read of the page. -/
def node (image : NodeImage) (number : PageNumber) : Node where
  page := number
  extended := image.extended
  previous := image.previous
  next := image.next
  body :=
    if image.flags.isLeaf then
      .leaf ((image.liveEntries number).map fun entry =>
        { toEntry := entry, kind := image.flags.leafKind })
    else
      .branch ((image.liveEntries number).map fun entry =>
        { toEntry := entry, child := entry.data.u32At 0 })

end NodeImage

/-! ## Flags -/

namespace ValueImage

variable {extended : Bool} {offset : Nat} {value : ValueImage}

/-- The flags of a value whose first word leaves room for them are read as they were written. -/
theorem flags_placed {word : Nat} {rest : Bytes} (hdata : value.data = leBytes 2 word ++ rest)
    (hflags : value.flags < 8) (hword : extended → word < 0x2000) :
    (value.placed extended offset).flags = .ofNat value.flags := by
  cases extended with
  | false => simp [placed]
  | true =>
    have hlength : 2 ≤ value.data.length := by simp [hdata]
    have hstored := stored_of_word hdata hflags (hword rfl)
    have hrest : (value.stored true).RestAt 0
        (leBytes 2 (word + 0x2000 * value.flags) ++ rest) := ⟨Nat.zero_le _, hstored⟩
    have hfree := hword rfl
    simp only [placed, hlength, and_self, if_true]
    rw [hrest.u16At_leBytes (by omega)]
    exact congrArg UInt8.ofNat (by omega)

theorem isDefunct_flagBits (bits : Fin 8) (versioned shared : Bool) :
    UInt8.ofNat (bits.val ||| EntryImage.flagBits versioned true shared) &&& PageTag.defunctBit ≠
      0 := by
  revert bits versioned shared
  decide

theorem or_mul_div (a b : Nat) : (a ||| 32 * b) / 32 = a / 32 ||| b := by
  have hright := Nat.shiftRight_or_distrib (a := a) (b := 32 * b) (i := 5)
  simp only [Nat.shiftRight_eq_div_pow] at hright
  rw [hright, Nat.mul_div_cancel_left b (by decide)]

/-- The bit of a deleted value is found whatever the bytes of the value are. -/
theorem isDefunct_placed {versioned shared : Bool}
    (hflags : value.flags = EntryImage.flagBits versioned true shared)
    (hlength : extended → 2 ≤ value.data.length) :
    (value.placed extended offset).isDefunct = true := by
  unfold PageValue.isDefunct
  rw [bne_iff_ne]
  have hsmall : value.flags < 8 := by
    rw [hflags]
    cases versioned <;> cases shared <;> decide
  cases extended with
  | false =>
    simp only [placed, Bool.false_eq_true, false_and, if_false, hflags]
    have hbit := isDefunct_flagBits 0 versioned shared
    simpa using hbit
  | true =>
    have hlength := hlength rfl
    obtain ⟨low, high, rest, hdata⟩ : ∃ low high rest, value.data = low :: high :: rest := by
      match value.data, hlength with
      | low :: high :: rest, _ => exact ⟨low, high, rest, rfl⟩
    have hword : ((value.stored true).u16At 0).toNat =
        low.toNat + 256 * (high ||| UInt8.ofNat (32 * value.flags)).toNat := by
      rw [stored, hdata]
      exact Bytes.u16At_cons ..
    have hbits : ((value.stored true).u16At 0).toNat / 0x2000 =
        high.toNat / 32 ||| value.flags := by
      have hlow := low.toNat_lt
      rw [hword, UInt8.toNat_or, UInt8.toNat_ofNat', Nat.mod_eq_of_lt (by omega),
        ← or_mul_div high.toNat value.flags]
      omega
    -- What the bytes hold at the place of the flags is still there, and takes no bit away.
    simp only [placed, hlength, and_self, if_true, hbits, hflags]
    have hhigh := high.toNat_lt
    exact isDefunct_flagBits ⟨high.toNat / 32, by omega⟩ versioned shared

end ValueImage

/-! ## One entry -/

namespace PageValue

variable {value : PageValue} {rest : Bytes} {offset n : Nat}

theorem readU16_eq (h : value.data.RestAt offset (leBytes 2 n ++ rest)) (hn : n < 0x10000)
    (what : String) :
    value.readU16 offset what =
      .ok (if offset = 0 ∧ value.flagsInside then n % 0x2000 else n) := by
  have hslice := h.slice what
  rw [length_leBytes] at hslice
  rw [readU16, Bytes.readU16, hslice]
  simp only [Except.map, littleEndian_leBytes 2 n hn, UInt16.toNat_ofNat_of_lt' hn]

end PageValue

/-- The value is an entry with these parts. Its first word may have flags in it, as long as they are
taken off where it is read. -/
structure PageValue.IsEntry (value : PageValue) (size? : Option Nat) (key payload : Bytes) :
    Prop where
  live : value.isDefunct = false
  shared : value.hasCommonKey = size?.isSome
  small : EntryImage.firstWord size? key < 0x10000 ∧ key.length < 0x10000
  bytes : ∃ word, word < 0x10000 ∧
    (if value.flagsInside then word % 0x2000 else word) = EntryImage.firstWord size? key ∧
    value.data = leBytes 2 word ++ EntryImage.behindWord size? key payload

namespace EntryImage

variable {size? : Option Nat} {key payload : Bytes} {versioned extended : Bool} {offset : Nat}

theorem entryBytes_eq :
    ValueImage.entryBytes size? key payload =
      leBytes 2 (firstWord size? key) ++ behindWord size? key payload := by
  cases size? <;> simp [ValueImage.entryBytes, firstWord, behindWord]

theorem flagBits_lt (versioned defunct shared : Bool) : flagBits versioned defunct shared < 8 := by
  cases versioned <;> cases defunct <;> cases shared <;> decide

theorem flagBits_live (versioned shared : Bool) :
    UInt8.ofNat (flagBits versioned false shared) &&& PageTag.defunctBit = 0 ∧
      (UInt8.ofNat (flagBits versioned false shared) &&& PageTag.commonKeyBit != 0) = shared := by
  cases versioned <;> cases shared <;> decide

/-- **A live entry is found at its place.** -/
theorem isEntry_placed (hword : firstWord size? key < 0x10000) (hkey : key.length < 0x10000)
    (hfree : extended → firstWord size? key < 0x2000) :
    ((live versioned size? key payload).value.placed extended offset).IsEntry size? key payload := by
  have hlt := flagBits_lt versioned false size?.isSome
  have hflags : ((live versioned size? key payload).value.placed extended offset).flags =
      .ofNat (flagBits versioned false size?.isSome) :=
    ValueImage.flags_placed entryBytes_eq hlt hfree
  obtain ⟨hlive, hshared⟩ := flagBits_live versioned size?.isSome
  refine ⟨?_, ?_, ⟨hword, hkey⟩, ?_⟩
  · rw [PageValue.isDefunct, hflags, hlive]
    rfl
  · rw [PageValue.hasCommonKey, hflags, hshared]
  · cases extended with
    | false => exact ⟨firstWord size? key, hword, rfl, entryBytes_eq⟩
    | true =>
      have hfree := hfree rfl
      refine ⟨firstWord size? key + 0x2000 * flagBits versioned false size?.isSome, by omega, ?_,
        ValueImage.stored_of_word entryBytes_eq hlt hfree⟩
      show (firstWord size? key + 0x2000 * flagBits versioned false size?.isSome) % 0x2000 =
        firstWord size? key
      omega

end EntryImage

namespace PageValue.IsEntry

variable {value : PageValue} {size? : Option Nat} {key payload : Bytes}

/-- The local key and the payload stand behind the sizes. -/
theorem restAt_key (h : value.IsEntry size? key payload) :
    value.data.RestAt (EntryImage.keyStart size?) (key ++ payload) := by
  obtain ⟨word, _, _, hdata⟩ := h.bytes
  have hstart : value.data.RestAt 0 (leBytes 2 word ++ EntryImage.behindWord size? key payload) :=
    ⟨Nat.zero_le _, hdata⟩
  cases size? with
  | none => exact hstart.append
  | some size => exact hstart.append.append

theorem keySizes_eq (h : value.IsEntry size? key payload) :
    value.keySizes = .ok (size?.getD 0, EntryImage.keyStart size?, key.length) := by
  obtain ⟨word, hword, hread, hdata⟩ := h.bytes
  have hstart : value.data.RestAt 0 (leBytes 2 word ++ EntryImage.behindWord size? key payload) :=
    ⟨Nat.zero_le _, hdata⟩
  have hfirst (what : String) :
      value.readU16 0 what = .ok (EntryImage.firstWord size? key) := by
    rw [readU16_eq hstart hword, ← hread]
    simp only [true_and]
  rw [keySizes, h.shared]
  cases size? with
  | none =>
    rw [if_neg (by decide), hfirst]
    rfl
  | some size =>
    have hrest : value.data.RestAt 2 (leBytes 2 key.length ++ (key ++ payload)) := hstart.append
    have hsecond (what : String) : value.readU16 2 what = .ok key.length := by
      rw [readU16_eq hrest h.small.2]
      rfl
    rw [if_pos (by rfl), hfirst, hsecond]
    rfl

end PageValue.IsEntry

namespace Page

variable {page : Page} {common? : Option Key} {tag : Nat} {value : PageValue} {size? : Option Nat}
  {key payload : Bytes}

theorem entry?_of_isEntry {bytes : Bytes} (hvalue : page.value tag = .ok value)
    (h : value.IsEntry size? key payload)
    (hcompose : Key.compose (common?.map (·.bytes)) (size?.getD 0) key = .ok ⟨bytes⟩) :
    page.entry? common? tag = .ok (some
      { key := ⟨bytes⟩
        data := payload
        location := ⟨page.number, value.offset, tag, EntryImage.keyStart size? + key.length⟩ }) := by
  have hkey := h.restAt_key.slice "local key"
  have hpayload := h.restAt_key.append.2
  simp only [ entry?, hvalue, h.live, h.keySizes_eq, hkey, hcompose, hpayload, bind, Except.bind]
  rfl

theorem entry?_of_defunct (hvalue : page.value tag = .ok value) (h : value.isDefunct = true) :
    page.entry? common? tag = .ok none := by
  simp only [ entry?, hvalue, h, bind, Except.bind]
  rfl

end Page

/-! ## The common key -/

namespace NodeImage

variable {image : NodeImage} {number : PageNumber} {before later : List EntryImage}
  {entry : EntryImage}

theorem flags_page (h : image.Fits) : (image.page.page number).flags = image.flags :=
  (h.page.header_page number).2.2.2

/-- The key that the entries of the page may take a part of. -/
def commonKey? (image : NodeImage) : Option Key :=
  if image.flags.isRoot then none else some ⟨image.common.data⟩

theorem or_and_eq {byte : UInt8} (flags : Nat) (h : byte < 0x20) :
    (byte ||| UInt8.ofNat (32 * flags)) &&& 0x1f = byte := by
  have hlt : byte.toNat < 2 ^ 5 := UInt8.lt_iff_toNat_lt.mp h
  have hmask : (0x1f : UInt8).toNat = 2 ^ 5 - 1 := rfl
  have hflags : 32 * flags % 256 % 2 ^ 5 = 0 := by omega
  rw [← UInt8.toNat_inj, UInt8.toNat_and, UInt8.toNat_or, UInt8.toNat_ofNat', hmask,
    Nat.and_two_pow_sub_one_eq_mod, Nat.or_mod_two_pow, Nat.mod_eq_of_lt hlt]
  simp only [hflags, Nat.or_zero]

/-- The flags that the common key has in its second byte are taken off again. -/
theorem maskByte_stored {common : ValueImage} (h : ∀ byte ∈ common.data[1]?, byte < 0x20) :
    Key.maskByte ⟨common.stored true⟩ 1 0x1f = ⟨common.data⟩ := by
  simp only [Key.maskByte, ValueImage.stored, if_true, List.modify_modify_eq]
  rcases hdata : common.data with _ | ⟨first, _ | ⟨second, rest⟩⟩
  · rfl
  · rfl
  · have hsecond : second < 0x20 := by
      refine h second ?_
      rw [hdata]
      rfl
    simp only [List.modify_succ_cons, List.modify_zero_cons, Function.comp_apply,
      or_and_eq common.flags hsecond]

theorem commonKey_page (h : image.Fits) :
    (image.page.page number).commonKey = .ok image.commonKey? := by
  have hcount : (image.page.page number).tagCount = image.entries.length + 1 := by
    rw [(h.page.header_page number).2.2.1]
    simp [page]
  have hvalues : image.page.values = [] ++ image.common :: image.entries.map EntryImage.value := rfl
  have hvalue : (image.page.page number).value 0 = .ok (image.common.placed image.extended 0) := by
    have hplaced := h.page.value_page number hvalues
    exact hplaced
  have hextended : (image.page.page number).extended = image.extended := rfl
  rw [Page.commonKey, flags_page h, commonKey?, hcount, hvalue, hextended]
  cases hroot : image.flags.isRoot with
  | true => simp [pure, Except.pure]
  | false =>
    cases hlong : image.extended with
    | false => rfl
    | true =>
      have hmask := maskByte_stored (h.common hlong hroot)
      simp only [bind, Except.bind, pure, Except.pure, ValueImage.placed]
      simp [hmask]

theorem compose_eq {versioned : Bool} {size? : Option Nat} {key payload : Bytes}
    (h : image.FitsEntry (.live versioned size? key payload)) :
    Key.compose (image.commonKey?.map (·.bytes)) (size?.getD 0) key =
      .ok ⟨image.common.data.take (size?.getD 0) ++ key⟩ := by
  unfold Key.compose
  split
  case isTrue hzero => simp [hzero]
  case isFalse hsize =>
    -- A size that is not zero is written down, and not on a root.
    obtain ⟨size, rfl⟩ : ∃ size, size? = some size := by
      cases size? with
      | none => exact absurd rfl hsize
      | some size => exact ⟨size, rfl⟩
    obtain ⟨hle, hroot⟩ := h.1 size rfl
    have hroot : ¬image.flags.isRoot = true := fun hroot' => hsize (hroot hroot')
    simp only [commonKey?, if_neg hroot, Option.map_some, Option.getD_some, if_pos hle]

/-! ## One entry after the other -/

/-- Where the entry behind `before` starts, from the start of the page. -/
def placeBehind (image : NodeImage) (before : List EntryImage) : Nat :=
  (if image.extended then 80 else 40) +
    ValueImage.extent (image.common :: before.map EntryImage.value)

theorem placeBehind_snoc (before : List EntryImage) (entry : EntryImage) :
    image.placeBehind (before ++ [entry]) =
      image.placeBehind before + entry.value.data.length := by
  simp [placeBehind, ValueImage.extent]
  omega

/-- The words of an entry that fits are numbers of 16 bits. -/
theorem small_of_fits (h : image.Fits) {versioned : Bool} {size? : Option Nat} {key payload : Bytes}
    (hentry : .live versioned size? key payload ∈ image.entries) :
    EntryImage.firstWord size? key < 0x10000 ∧ key.length < 0x10000 := by
  have hlimit : ValueImage.limit image.page.extended ≤ 0x8000 := by
    unfold ValueImage.limit
    split <;> decide
  -- How much an entry takes of the common key is bounded by that key and not by the entry.
  have hcommon : image.common.data.length < ValueImage.limit image.page.extended :=
    h.page.sizes _ List.mem_cons_self
  have hvalue : (ValueImage.entryBytes size? key payload).length <
      ValueImage.limit image.page.extended :=
    h.page.sizes _ (List.mem_cons_of_mem _ (List.mem_map_of_mem hentry))
  have hkey : key.length ≤ (ValueImage.entryBytes size? key payload).length := by
    simp only [ValueImage.entryBytes, List.length_append]
    omega
  refine ⟨?_, by omega⟩
  cases size? with
  | none => exact Nat.lt_of_le_of_lt hkey (by omega)
  | some size =>
    have hsize := ((h.entries _ hentry).1 size rfl).1
    exact Nat.lt_of_le_of_lt hsize (by omega)

theorem entry?_page (h : image.Fits) (number : PageNumber)
    (hentries : image.entries = before ++ entry :: later) :
    Page.entry? (image.page.page number) image.commonKey? (before.length + 1) =
      .ok (image.live? number (image.placeBehind before) (before.length + 1) entry) := by
  have hmem : entry ∈ image.entries := by simp [hentries]
  have hvalues : image.page.values = (image.common :: before.map EntryImage.value) ++
      entry.value :: later.map EntryImage.value := by
    simp [page, hentries]
  have hvalue := h.page.value_page number hvalues
  rw [List.length_cons, List.length_map] at hvalue
  have hfits := h.entries entry hmem
  cases entry with
  | live versioned size? key payload =>
    obtain ⟨hword, hkey⟩ := small_of_fits h hmem
    exact Page.entry?_of_isEntry hvalue (EntryImage.isEntry_placed hword hkey hfits.2.2)
      (compose_eq hfits)
  | defunct versioned shared data =>
    exact Page.entry?_of_defunct hvalue (ValueImage.isDefunct_placed rfl hfits)

/-- Reading the tags one after the other gives the live entries. `read` is what is done with a tag,
and `finished` what becomes of an entry. -/
theorem collect_eq {α : Type} {read : Nat → Except Error (Option α)} {finished : Entry → α}
    (number : PageNumber) (before : List EntryImage) (hentries : image.entries = before ++ later)
    (hread : ∀ before entry later, image.entries = before ++ entry :: later →
      read (before.length + 1) =
        .ok ((image.live? number (image.placeBehind before) (before.length + 1) entry).map
          finished)) :
    Node.collect read (List.range' (before.length + 1) later.length) =
      .ok ((image.entriesFrom number (image.placeBehind before) (before.length + 1) later).map
        finished) := by
  induction later generalizing before with
  | nil => rfl
  | cons entry later ih =>
    have hrest := ih (before ++ [entry]) (by rw [hentries, List.append_assoc]; rfl)
    rw [List.length_append, List.length_singleton, placeBehind_snoc] at hrest
    rw [List.length_cons, List.range'_succ, Node.collect, hread before entry later hentries, hrest,
      entriesFrom, List.map_append]
    cases image.live? number (image.placeBehind before) (before.length + 1) entry <;> rfl

theorem entriesWith_page {α : Type} {finish : Entry → Except Error α} {finished : Entry → α}
    (h : image.Fits)
    (hfinish : ∀ entry ∈ image.entries, ∀ place tag, ∀ read ∈ image.live? number place tag entry,
      finish read = .ok (finished read)) :
    Node.entriesWith (image.page.page number) finish =
      .ok ((image.liveEntries number).map finished) := by
  have hcount : (image.page.page number).tagCount = image.entries.length + 1 := by
    rw [(h.page.header_page number).2.2.1]
    simp [page]
  rw [Node.entriesWith, flags_page h, h.notEmpty, hcount]
  split
  case isTrue hfew =>
    -- A page that has nothing but tag 0 is not looked at any further.
    have hnone : image.entries = [] := by
      rcases hfew with hempty | hfew
      · cases hempty
      · exact List.eq_nil_of_length_eq_zero (by omega)
    simp [liveEntries, hnone, entriesFrom]
  case isFalse hmany =>
    have hplace : image.placeBehind [] =
        (if image.extended then 80 else 40) + image.common.data.length := by
      simp [placeBehind, ValueImage.extent]
    rw [commonKey_page h, Nat.add_sub_cancel, liveEntries, ← hplace]
    refine collect_eq number [] rfl fun before entry later hentries => ?_
    have hmem : entry ∈ image.entries := by simp [hentries]
    rw [entry?_page h number hentries]
    cases hread : image.live? number (image.placeBehind before) (before.length + 1) entry with
    | none => rfl
    | some read =>
      have hfinished := hfinish entry hmem _ _ read hread
      simp only [bind, Except.bind, pure, Except.pure, hfinished, Option.map_some]

/-! ## The whole node -/

theorem branchEntry_eq {read : Entry} (h : 4 ≤ read.data.length) :
    Node.branchEntry read = .ok { toEntry := read, child := read.data.u32At 0 } := by
  have hslice : read.data.slice 0 4 "child page number" = .ok (read.data.field 0 4) :=
    Bytes.slice_eq_ok_iff.mpr ⟨by omega, rfl⟩
  rw [Node.branchEntry, Bytes.readU32, hslice]
  rfl

theorem bodyOf_page (h : image.Fits) :
    Node.bodyOf (image.page.page number) = .ok (image.node number).body := by
  rw [Node.bodyOf, flags_page h, node]
  split
  case isTrue hleaf =>
    rw [entriesWith_page h fun _ _ _ _ _ _ => rfl]
    rfl
  case isFalse hbranch =>
    have hleaf : image.flags.isLeaf = false := Bool.eq_false_iff.mpr hbranch
    rw [entriesWith_page h fun entry hentry place tag read hread => ?_]
    · rfl
    · cases entry with
      | defunct => cases hread
      | live versioned size? key payload =>
        cases hread
        exact branchEntry_eq ((h.entries _ hentry).2.1 hleaf)

end NodeImage

/-- **Reading a node undoes writing it**, with either header and for every page that is not marked
as empty: the live entries come out in the order of their tags, each with its whole key, its payload
and the place where it stands. -/
theorem Node.ofBytes_bytes {image : NodeImage} {format : Format} (h : image.Fits)
    (hformat : format.extendedHeader = image.extended) (number : PageNumber) :
    Node.ofBytes number image.bytes format = .ok (image.node number) := by
  obtain ⟨hprevious, hnext, _, _⟩ := h.page.header_page number
  have hread : Page.ofBytes number image.bytes format = .ok (image.page.page number) := by
    have hlength : image.bytes.length = image.size := h.page.length_bytes
    have hroom : (image.page.page number).headerSize + 4 * (image.entries.length + 1) ≤
        image.size := by
      simpa [NodeImage.page] using h.page.headerSize_add_le number
    rw [Page.ofBytes, hformat]
    refine if_neg ?_
    show ¬image.bytes.length < (image.page.page number).headerSize + 4
    omega
  rw [Node.ofBytes, hread]
  show Node.ofPage (image.page.page number) = .ok (image.node number)
  rw [Node.ofPage, NodeImage.bodyOf_page h, hprevious, hnext]
  rfl

/-! A node of a long page, not a root: an entry that takes two bytes of the common key, a deleted
one, and one that takes none. -/

namespace NodeImage

def sample : NodeImage where
  size := 140
  extended := true
  flags := ⟨0x2⟩
  previous := 7
  next := 9
  common := ⟨1, [0x7f, 0x00, 0x12]⟩
  entries := [.live false (some 2) [0x61] [1, 2, 3], .defunct true false [0xff, 0xff, 0xff],
    .live true none [0x62, 0x63] []]

end NodeImage

theorem Node.ofBytes_bytes_sample :
    NodeImage.sample.Fits ∧
      (Node.ofBytes 5 NodeImage.sample.bytes (.ofVersions 0x620 0x11 16384)).map Node.entries = .ok
        [⟨⟨[0x7f, 0x00, 0x61]⟩, [1, 2, 3], ⟨5, 83, 1, 5⟩⟩,
          ⟨⟨[0x62, 0x63]⟩, [], ⟨5, 94, 3, 4⟩⟩] := by
  have hfits : NodeImage.sample.Fits :=
    { page :=
        { tagCount := by decide
          offsets := by decide
          sizes := by decide
          flags := by decide
          used := by decide }
      notEmpty := by decide
      common := fun _ _ byte hbyte => by cases hbyte; decide
      entries := by decide }
  refine ⟨hfits, ?_⟩
  rw [Node.ofBytes_bytes hfits rfl]
  rfl

end EseReader
