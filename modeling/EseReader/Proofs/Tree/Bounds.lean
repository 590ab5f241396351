import EseReader.Proofs.Page.Bounds
import EseReader.Proofs.Page.Image
import EseReader.Tree.Node

/-!
# `EseReader/Proofs/Tree/Bounds.lean` — reading a node stays on its page

An entry is read from the front: the sizes of its key, the local key, and what is left as the
payload. Only the local key is tested against the end of the value, and that test covers the
payload too, since the payload starts where the local key ends.

The second half is about what comes out. An entry keeps the place where it was found, and **whoever
goes back to that place finds its payload there**: the place is computed along the way and not
looked up again, so it has to be right on every page that can be read and not only on well-formed
ones.
-/

set_option autoImplicit false

namespace EseReader

namespace Guarded

def valueWord (value : PageValue) (offset : Nat) (what : String) : Guarded Nat := do
  let word ← word value.data offset what
  return if offset = 0 ∧ value.flagsInside then word.toNat % 0x2000 else word.toNat

def keySizes (value : PageValue) : Guarded (Nat × Nat × Nat) :=
  if value.hasCommonKey then do
    let common ← valueWord value 0 "common key size"
    let rest ← valueWord value 2 "local key size"
    return (common, 4, rest)
  else do
    let rest ← valueWord value 0 "local key size"
    return (0, 2, rest)

/-- The whole key of the entry at a tag of a page. -/
def compose (common : Option Bytes) (size : Nat) (rest : Bytes) (place : PageNumber × Nat) :
    Guarded Key :=
  if size = 0 then return ⟨rest⟩
  else match common with
    | none => throw (.key (some place) (.noCommonKey size))
    | some bytes =>
      if size ≤ bytes.length then do
        let front ← cut bytes 0 size
        return ⟨front ++ rest⟩
      else throw (.key (some place) (.shortCommonKey size bytes.length))

def liveEntry (page : Page) (common : Option Key) (tag : Nat) (value : PageValue) :
    Guarded (Option Entry) := do
  let (size, start, rest) ← keySizes value
  let localKey ← slice value.data start rest "local key"
  let key ← compose (common.map (·.bytes)) size localKey (page.number, tag)
  let payload ← drop value.data (start + rest)
  return some
    { key := key
      data := payload
      location := ⟨page.number, value.offset, tag, start + rest⟩ }

def entry (page : Page) (common : Option Key) (tag : Nat) : Guarded (Option Entry) := do
  let value ← value page tag
  if value.isDefunct then return none else liveEntry page common tag value

def collect {α : Type} (read : Nat → Guarded (Option α)) : List Nat → Guarded (List α)
  | [] => return []
  | tag :: tags => do
    let value? ← read tag
    let values ← collect read tags
    return value?.toList ++ values

def finished {α : Type} (page : Page) (common : Option Key) (finish : Entry → Guarded α)
    (tag : Nat) : Guarded (Option α) := do
  match ← entry page common tag with
  | none => return none
  | some entry => return some (← finish entry)

def entriesWith {α : Type} (page : Page) (finish : Entry → Guarded α) : Guarded (List α) :=
  if page.flags.isEmpty ∨ page.tagCount ≤ 1 then return []
  else do
    let common ← commonKey page
    let count ← minus page.tagCount 1
    collect (finished page common finish) (List.range' 1 count)

def branchEntry (entry : Entry) : Guarded BranchEntry := do
  let child ← number 4 entry.data 0 "child page number"
  return { toEntry := entry, child := .ofNat child }

def body (page : Page) : Guarded NodeBody :=
  if page.flags.isLeaf then
    .leaf <$> entriesWith page fun entry => return { toEntry := entry, kind := page.flags.leafKind }
  else .branch <$> entriesWith page branchEntry

def node (page : Page) : Guarded Node := do
  let body ← body page
  return { page := page.number
           extended := page.extended
           previous := page.header.previous
           next := page.header.next
           body := body }

/-- The node on page `number`, and whether the checksum of the page is right. -/
def verifiedNode (number : PageNumber) (data : Bytes) (format : Format) : Guarded Node := do
  let page ← page number data format
  let node ← node page
  verifyChecksum page format
  return node

/-! ## No guard is hit -/

theorem valueWord_eq (value : PageValue) (offset : Nat) (what : String) :
    valueWord value offset what = ofExcept (value.readU16 offset what) := by
  unfold valueWord PageValue.readU16
  rw [word_eq]
  cases value.data.readU16 offset what <;> rfl

theorem keySizes_eq (value : PageValue) : keySizes value = ofExcept value.keySizes := by
  unfold keySizes PageValue.keySizes
  split
  · refine bind_ofExcept (valueWord_eq value 0 _) ?_
    intro common _
    exact bind_ofExcept (valueWord_eq value 2 _) fun _ _ => rfl
  · exact bind_ofExcept (valueWord_eq value 0 _) fun _ _ => rfl

theorem compose_eq (common : Option Bytes) (size : Nat) (rest : Bytes) (place : PageNumber × Nat) :
    compose common size rest place =
      ofExcept ((Key.compose common size rest).mapError (.key (some place))) := by
  unfold compose Key.compose
  split
  · rfl
  · cases common with
    | none => rfl
    | some bytes =>
      by_cases h : size ≤ bytes.length
      · simp only [if_pos h]
        rw [cut_eq (Nat.zero_le _) h]
        rfl
      · simp only [if_neg h]
        rfl

/-- The payload is covered by the test of the local key. -/
theorem liveEntry_eq {page : Page} {common : Option Key} {tag : Nat} {value : PageValue} :
    liveEntry page common tag value = ofExcept (do
      let (size, start, rest) ← value.keySizes
      let localKey ← value.data.slice start rest "local key"
      match Key.compose (common.map (·.bytes)) size localKey with
      | .error fault => throw (.key (some (page.number, tag)) fault)
      | .ok key =>
        return some
          { key := key
            data := value.data.drop (start + rest)
            location := ⟨page.number, value.offset, tag, start + rest⟩ }) := by
  refine bind_ofExcept (keySizes_eq value) ?_
  rintro ⟨size, start, rest⟩ -
  refine bind_ofExcept (slice_eq value.data start rest _) ?_
  intro localKey hlocal
  obtain ⟨hinside, -⟩ := Bytes.slice_eq_ok_iff.mp hlocal
  rw [compose_eq]
  cases Key.compose (common.map (·.bytes)) size localKey with
  | error fault => rfl
  | ok key =>
    show (drop value.data (start + rest) >>= _) = _
    rw [drop_eq hinside]
    rfl

variable {page : Page}

theorem entry_eq (h : page.headerSize ≤ page.data.length) (common : Option Key) (tag : Nat) :
    entry page common tag = ofExcept ( page.entry? common tag) := by
  refine bind_ofExcept (value_eq h tag) ?_
  intro value _
  split
  · rfl
  · exact liveEntry_eq

theorem collect_ofExcept {α : Type} {read : Nat → Guarded (Option α)}
    {plain : Nat → Except Error (Option α)} (h : ∀ tag, read tag = ofExcept (plain tag))
    (tags : List Nat) : collect read tags = ofExcept (Node.collect plain tags) := by
  induction tags with
  | nil => rfl
  | cons tag tags ih =>
    refine bind_ofExcept (h tag) ?_
    intro value? _
    exact bind_ofExcept ih fun _ _ => rfl

theorem entriesWith_ofExcept {α : Type} {finish : Entry → Guarded α}
    {plain : Entry → Except Error α} (h : page.headerSize ≤ page.data.length)
    (hfinish : ∀ entry, finish entry = ofExcept (plain entry)) :
    entriesWith page finish = ofExcept (Node.entriesWith page plain) := by
  unfold entriesWith Node.entriesWith
  split
  case isTrue => rfl
  case isFalse hmany =>
    refine bind_ofExcept (commonKey_eq h) ?_
    intro common _
    rw [minus_eq (by omega), ok_bind]
    refine collect_ofExcept (fun tag => ?_) _
    refine bind_ofExcept (entry_eq h common tag) ?_
    intro found? _
    cases found? with
    | none => rfl
    | some entry => exact bind_ofExcept (hfinish entry) fun _ _ => rfl

theorem branchEntry_eq (entry : Entry) :
    branchEntry entry = ofExcept (Node.branchEntry entry) := by
  unfold branchEntry Node.branchEntry Bytes.readU32
  rw [number_eq]
  cases entry.data.slice 0 4 "child page number" <;> rfl

theorem node_eq (h : page.headerSize ≤ page.data.length) :
    node page = ofExcept (Node.ofPage page) := by
  have hbody : body page = ofExcept (Node.bodyOf page) := by
    unfold body Node.bodyOf
    split
    · have hvalues : entriesWith page (fun entry =>
          return ({ toEntry := entry, kind := page.flags.leafKind } : LeafValue)) =
            ofExcept (Node.entriesWith page fun entry =>
              .ok { toEntry := entry, kind := page.flags.leafKind }) :=
        entriesWith_ofExcept h fun _ => rfl
      rw [hvalues, map_ofExcept]
    · rw [entriesWith_ofExcept h branchEntry_eq, map_ofExcept]
  unfold node Node.ofPage
  rw [hbody]
  cases Node.bodyOf page <;> rfl

theorem verifiedNode_eq (number : PageNumber) (data : Bytes) (format : Format) :
    verifiedNode number data format = ofExcept (do
      let page ← Page.ofBytes number data format
      let node ← Node.ofPage page
      page.verifyChecksum format
      return node) := by
  refine bind_ofExcept (page_eq number data format) ?_
  intro page hpage
  obtain ⟨rfl, hlong⟩ := Page.ofBytes_eq_ok_iff.mp hpage
  -- That the header is there is tested once, and everything behind relies on it.
  have hheader : Page.headerSize ⟨number, format.extendedHeader, data⟩ ≤ data.length := by omega
  refine bind_ofExcept (node_eq hheader) ?_
  intro node _
  exact bind_ofExcept (verifyChecksum_eq hheader format) fun _ _ => rfl

end Guarded

/-! ## Entries and the places they name -/

/-- The place that an entry names: the value of its tag, which was not deleted and lies between the
header and the end of the page, and in it the rest from a certain byte on. -/
structure Entry.StandsAt (page : Page) (tag : PageTag) (value : PageValue) (entry : Entry) :
    Prop where
  page_eq : entry.location.page = page.number
  tag_eq : page.tag entry.location.tag = .ok tag
  value_eq : page.value entry.location.tag = .ok value
  live : value.isDefunct = false
  start : entry.location.valueOffset = page.headerSize + tag.offset
  inside : entry.location.valueOffset + tag.size ≤ page.data.length
  payload : entry.location.dataOffset ≤ tag.size
  data : entry.data = page.data.field (entry.location.valueOffset + entry.location.dataOffset)
    (tag.size - entry.location.dataOffset)

/-- The page has what the entry names. -/
def Entry.StandsOn (page : Page) (entry : Entry) : Prop :=
  ∃ tag value, entry.StandsAt page tag value

/-- Entries of a page: each later one has a higher tag, and all of them stand where they say. -/
structure Page.Holds (page : Page) (entries : List Entry) : Prop where
  increasing : entries.Pairwise fun a b => a.location.tag < b.location.tag
  standsOn : ∀ entry ∈ entries, entry.StandsOn page

namespace Page

variable {page : Page} {index : Nat} {value : PageValue}

/-- What a page has as a value: the bytes that the tag names. -/
theorem value_eq_ok (h : page.headerSize ≤ page.data.length) (hvalue : page.value index = .ok value) :
    ∃ tag, page.tag index = .ok tag ∧ value.offset = page.headerSize + tag.offset ∧
      value.offset + tag.size ≤ page.data.length ∧
      value.data = page.data.field value.offset tag.size := by
  obtain ⟨tag, htag, hrest⟩ := bind_eq_ok_iff.mp hvalue
  refine ⟨tag, htag, ?_⟩
  have harea : page.area.length = page.data.length - page.headerSize := List.length_drop ..
  by_cases hinside : tag.offset + tag.size ≤ page.area.length
  · simp only [if_pos hinside] at hrest
    cases hrest
    refine ⟨rfl, ?_, ?_⟩
    · show page.headerSize + tag.offset + tag.size ≤ page.data.length
      omega
    · show Bytes.field (page.data.drop page.headerSize) tag.offset tag.size = _
      exact Bytes.field_drop ..
  · simp only [if_neg hinside] at hrest
    cases hrest

/-- An entry that is read names the place where it was read. -/
theorem entry?_standsOn {common : Option Key} {entry : Entry}
    (h : page.headerSize ≤ page.data.length) (hentry : page.entry? common index = .ok (some entry)) :
    entry.location.tag = index ∧ entry.StandsOn page := by
  obtain ⟨value, hvalue, hrest⟩ := bind_eq_ok_iff.mp hentry
  by_cases hlive : value.isDefunct
  · simp only [if_pos hlive] at hrest
    cases hrest
  simp only [if_neg hlive] at hrest
  obtain ⟨⟨size, start, rest⟩, -, hrest⟩ := bind_eq_ok_iff.mp hrest
  obtain ⟨localKey, hlocal, hrest⟩ := bind_eq_ok_iff.mp hrest
  obtain ⟨hinside, -⟩ := Bytes.slice_eq_ok_iff.mp hlocal
  -- The local key ends inside the value, so the payload starts inside it.
  have hinside : start + rest ≤ value.data.length := hinside
  cases hkey : Key.compose (common.map (·.bytes)) size localKey with
  | error fault => simp only [hkey] at hrest; cases hrest
  | ok key =>
    simp only [hkey] at hrest
    cases hrest
    obtain ⟨tag, htag, hstart, hend, hdata⟩ := value_eq_ok h hvalue
    have hsize : value.data.length = tag.size := by rw [hdata, Bytes.length_field hend]
    refine ⟨rfl, tag, value, rfl, htag, hvalue, ?_, hstart, hend, ?_, ?_⟩
    · exact Bool.eq_false_iff.mpr hlive
    · show start + rest ≤ tag.size
      omega
    · show value.data.drop (start + rest) = _
      rw [hdata, Bytes.field, Bytes.field, List.drop_take, List.drop_drop]

end Page

namespace Node

variable {α : Type} {page : Page}

/-! Entries keep the order of the tags, and leave some of them out. -/

theorem collect_sublist {read : Nat → Except Error (Option α)} {tagOf : α → Nat} {tags : List Nat}
    {values : List α} (hread : ∀ tag value, read tag = .ok (some value) → tagOf value = tag)
    (h : collect read tags = .ok values) : (values.map tagOf).Sublist tags := by
  induction tags generalizing values with
  | nil =>
    cases h
    exact .slnil
  | cons tag tags ih =>
    obtain ⟨value?, hvalue, h⟩ := bind_eq_ok_iff.mp h
    obtain ⟨rest, hrest, h⟩ := bind_eq_ok_iff.mp h
    cases h
    cases value? with
    | none => exact (ih hrest).cons tag
    | some value =>
      show (tagOf value :: rest.map tagOf).Sublist (tag :: tags)
      rw [hread tag value hvalue]
      exact (ih hrest).cons_cons tag

theorem exists_of_mem_collect {read : Nat → Except Error (Option α)} {tags : List Nat}
    {values : List α} {value : α} (h : collect read tags = .ok values) (hvalue : value ∈ values) :
    ∃ tag, read tag = .ok (some value) := by
  induction tags generalizing values with
  | nil =>
    cases h
    cases hvalue
  | cons tag tags ih =>
    obtain ⟨value?, hread, h⟩ := bind_eq_ok_iff.mp h
    obtain ⟨rest, hrest, h⟩ := bind_eq_ok_iff.mp h
    cases h
    rcases List.mem_append.mp hvalue with hfirst | hlater
    · cases value? with
      | none => cases hfirst
      | some first =>
        rw [List.mem_singleton.mp hfirst]
        exact ⟨tag, hread⟩
    · exact ih hrest hlater

/-- Whatever entries are finished to, they are the entries of the page. -/
theorem holds_of_entriesWith {finish : Entry → Except Error α} {toEntry : α → Entry}
    {values : List α} (hpage : page.headerSize ≤ page.data.length)
    (hfinish : ∀ entry value, finish entry = .ok value → toEntry value = entry)
    (h : entriesWith page finish = .ok values) : page.Holds (values.map toEntry) := by
  unfold entriesWith at h
  split at h
  · cases h
    exact ⟨.nil, fun _ hentry => absurd hentry (by simp)⟩
  · obtain ⟨common, -, h⟩ := bind_eq_ok_iff.mp h
    have hread : ∀ tag value, (do
        match ← page.entry? common tag with
        | none => return none
        | some entry => return some (← finish entry) : Except Error (Option α)) = .ok (some value) →
          (toEntry value).location.tag = tag ∧ (toEntry value).StandsOn page := by
      intro tag value hvalue
      obtain ⟨found?, hentry, hvalue⟩ := bind_eq_ok_iff.mp hvalue
      cases found? with
      | none => cases hvalue
      | some entry =>
        obtain ⟨finished, hfinished, hvalue⟩ := bind_eq_ok_iff.mp hvalue
        cases hvalue
        rw [hfinish entry value hfinished]
        exact Page.entry?_standsOn hpage hentry
    refine ⟨?_, ?_⟩
    · have htags := collect_sublist (fun tag value hvalue => (hread tag value hvalue).1) h
      rw [List.pairwise_map]
      exact List.pairwise_map.mp (List.Pairwise.sublist htags List.pairwise_lt_range')
    · intro entry hentry
      obtain ⟨value, hvalue, rfl⟩ := List.mem_map.mp hentry
      obtain ⟨tag, htag⟩ := exists_of_mem_collect h hvalue
      exact (hread tag value htag).2

theorem holds_of_ofPage {node : Node} (hpage : page.headerSize ≤ page.data.length)
    (h : ofPage page = .ok node) : page.Holds node.entries := by
  obtain ⟨body, hbody, rfl⟩ := map_eq_ok_iff.mp h
  unfold bodyOf at hbody
  split at hbody
  · obtain ⟨values, hvalues, rfl⟩ := map_eq_ok_iff.mp hbody
    refine holds_of_entriesWith hpage ?_ hvalues
    intro entry value hvalue
    cases hvalue
    rfl
  · obtain ⟨values, hvalues, rfl⟩ := map_eq_ok_iff.mp hbody
    refine holds_of_entriesWith hpage ?_ hvalues
    intro entry value hvalue
    obtain ⟨child, -, hvalue⟩ := bind_eq_ok_iff.mp hvalue
    cases hvalue
    rfl

/-- **Reading a node stays on its page, and its entries are where they say.** Whatever the bytes and
the format, reading the node and comparing the checksum end in a result or an error, with every
byte they reach for in range; and the entries of a node that is read are values of the page, none
of them deleted, in the order of their tags and each with the bytes that stand at its place. -/
theorem verified_in_bounds (number : PageNumber) (data : Bytes) (format : Format) :
    (Guarded.verifiedNode number data format = .ofExcept do
      let page ← Page.ofBytes number data format
      let node ← Node.ofPage page
      page.verifyChecksum format
      return node) ∧
    ∀ node, Node.ofBytes number data format = .ok node →
      Page.Holds ⟨number, format.extendedHeader, data⟩ node.entries := by
  refine ⟨Guarded.verifiedNode_eq number data format, ?_⟩
  intro node hnode
  obtain ⟨page, hpage, hnode⟩ := bind_eq_ok_iff.mp hnode
  obtain ⟨rfl, hlong⟩ := Page.ofBytes_eq_ok_iff.mp hpage
  exact holds_of_ofPage (Nat.le_of_add_right_le hlong) hnode

end Node

/-! A page on which the value of tag 1 was deleted, and is too short to be an entry. -/

namespace PageImage

def withDeleted : PageImage where
  size := 80
  extended := false
  flags := 0x2
  previous := 0
  next := 0
  values := [⟨0, []⟩, ⟨2, [0xff]⟩, ValueImage.plain [0x61] [1, 2]]

end PageImage

theorem Node.verified_in_bounds_sample :
    ∃ node, Node.ofBytes 5 PageImage.withDeleted.bytes .standard = .ok node ∧
      node.entries = [⟨⟨[0x61]⟩, [1, 2], ⟨5, 41, 2, 3⟩⟩] ∧
      Page.Holds ⟨5, false, PageImage.withDeleted.bytes⟩ node.entries :=
  ⟨_, rfl, rfl, (Node.verified_in_bounds 5 _ .standard).2 _ rfl⟩

end EseReader
