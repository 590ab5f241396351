import EseReader.Page

/-!
# `EseReader/Tree/Node.lean` — a page as a node of a tree

The live values of a page, in tag order, with their whole keys. An entry of a page is

    [size taken from the common key]  [size of the local key]  local key  payload

where the first word is there only if the flags of the value say so. What the payload is depends on
the page: on a leaf it is a record, a piece of a long value or an index entry; on any other page it
starts with the number of a child page, and the key is the highest one below that child.

An entry whose value is marked as deleted is passed over, so positions in a node and tag indices
are different things; `Location` keeps the tag.
-/

set_option autoImplicit false

namespace EseReader

/-- Where in a page source an entry was found. -/
structure Location where
  page : PageNumber
  /-- Where the tagged value starts, from the start of the page. -/
  valueOffset : Nat
  tag : Nat
  /-- Where the payload starts, from the start of the tagged value. -/
  dataOffset : Nat
  deriving DecidableEq, Repr

/-- A key and what is stored under it. -/
structure Entry where
  key : Key
  data : Bytes
  location : Location
  deriving DecidableEq, Repr

inductive LeafKind where
  | record
  | longValue
  | index
  deriving DecidableEq, Repr

/-- An entry of a leaf. -/
structure LeafValue extends Entry where
  kind : LeafKind
  deriving DecidableEq, Repr

/-- An entry of a page above the leaves. -/
structure BranchEntry extends Entry where
  child : PageNumber
  deriving DecidableEq, Repr

inductive NodeBody where
  | leaf (values : List LeafValue)
  | branch (entries : List BranchEntry)
  deriving DecidableEq, Repr

namespace NodeBody

/-- The entries of either kind of node. -/
def entries : NodeBody → List Entry
  | leaf values => values.map (·.toEntry)
  | branch entries => entries.map (·.toEntry)

end NodeBody

structure Node where
  page : PageNumber
  extended : Bool
  previous : PageNumber
  next : PageNumber
  body : NodeBody
  deriving DecidableEq, Repr

namespace PageFlags

/-- What the values of a leaf are. -/
def leafKind (flags : PageFlags) : LeafKind :=
  if flags.isLongValue then .longValue else if flags.isIndex then .index else .record

end PageFlags

namespace PageValue

/-- How much of the common key an entry uses, where its local key starts, and how long that is. -/
def keySizes (value : PageValue) : Except Error (Nat × Nat × Nat) :=
  if value.hasCommonKey then do
    let common ← value.readU16 0 "common key size"
    let rest ← value.readU16 2 "local key size"
    return (common, 4, rest)
  else do
    let rest ← value.readU16 0 "local key size"
    return (0, 2, rest)

end PageValue

namespace Page

/-- The entry at a tag; `none` if it was deleted. -/
def entry? (page : Page) (common : Option Key) (tag : Nat) : Except Error (Option Entry) := do
  let value ← page.value tag
  if value.isDefunct then return none
  let (size, start, rest) ← value.keySizes
  let localKey ← value.data.slice start rest "local key"
  match Key.compose (common.map (·.bytes)) size localKey with
  | .error fault => throw (.key (some (page.number, tag)) fault)
  | .ok key =>
    return some
      { key := key
        data := value.data.drop (start + rest)
        location := ⟨page.number, value.offset, tag, start + rest⟩ }

end Page

namespace Node

/-- What `read` makes of each tag, without the tags it passes over. The first error ends it. -/
def collect {α : Type} (read : Nat → Except Error (Option α)) : List Nat → Except Error (List α)
  | [] => .ok []
  | tag :: tags => do
    let value? ← read tag
    let values ← collect read tags
    return value?.toList ++ values

/-- A page never has more values than tags. -/
theorem length_le_of_collect {α : Type} {read : Nat → Except Error (Option α)} {tags : List Nat}
    {values : List α} (h : collect read tags = .ok values) : values.length ≤ tags.length := by
  induction tags generalizing values with
  | nil => cases h; exact Nat.le_refl _
  | cons tag tags ih =>
    obtain ⟨value?, _, h⟩ := bind_eq_ok_iff.mp h
    obtain ⟨rest, hrest, h⟩ := bind_eq_ok_iff.mp h
    cases h
    have := ih hrest
    cases value? <;> simp <;> omega

/-- The entries behind tag 0, each finished by `finish`. An empty page has none, whatever its tags
say. -/
def entriesWith {α : Type} (page : Page) (finish : Entry → Except Error α) :
    Except Error (List α) :=
  if page.flags.isEmpty ∨ page.tagCount ≤ 1 then .ok []
  else do
    let common ← page.commonKey
    let read (tag : Nat) : Except Error (Option α) := do
      match ← page.entry? common tag with
      | none => return none
      | some entry => return some (← finish entry)
    collect read (List.range' 1 (page.tagCount - 1))

/-- The child of an entry is the number at the start of its payload. -/
def branchEntry (entry : Entry) : Except Error BranchEntry := do
  let child ← entry.data.readU32 0 "child page number"
  return { toEntry := entry, child := child }

def bodyOf (page : Page) : Except Error NodeBody :=
  if page.flags.isLeaf then
    (entriesWith page fun entry => .ok { toEntry := entry, kind := page.flags.leafKind }).map .leaf
  else (entriesWith page branchEntry).map .branch

def ofPage (page : Page) : Except Error Node :=
  (bodyOf page).map fun body =>
    { page := page.number
      extended := page.extended
      previous := page.header.previous
      next := page.header.next
      body := body }

/-- Reads `data` as the node on page `number`. -/
def ofBytes (number : PageNumber) (data : Bytes) (format : Format) : Except Error Node := do
  ofPage (← Page.ofBytes number data format)

def isLeaf (node : Node) : Bool :=
  match node.body with
  | .leaf _ => true
  | .branch _ => false

def entries (node : Node) : List Entry := node.body.entries

/-- The entry at a position of the node. -/
def entryAt (node : Node) (index : Nat) : Except Error Entry :=
  match node.entries[index]? with
  | some entry => .ok entry
  | none => .error (.request (.noSuchEntry node.page index node.entries.length))

/-! ## The size of a node

Tags are counted by a 16-bit field, so a node has fewer than `0x10000` entries. The searches below
end because of this bound. -/

theorem tagCount_lt (page : Page) : page.tagCount < 0x10000 := page.header.tagCount.toNat_lt

theorem length_lt_of_entriesWith {α : Type} {page : Page} {finish : Entry → Except Error α}
    {values : List α} (h : entriesWith page finish = .ok values) : values.length < 0x10000 := by
  have hc := tagCount_lt page
  unfold entriesWith at h
  split at h
  · cases h; simp
  · obtain ⟨common, _, h⟩ := bind_eq_ok_iff.mp h
    have := length_le_of_collect h
    rw [List.length_range'] at this
    omega

theorem entries_length_lt_of_bodyOf {page : Page} {body : NodeBody} (h : bodyOf page = .ok body) :
    body.entries.length < 0x10000 := by
  unfold bodyOf at h
  split at h <;>
    · obtain ⟨_, hv, rfl⟩ := map_eq_ok_iff.mp h
      simpa [NodeBody.entries] using length_lt_of_entriesWith hv

theorem entries_length_lt_of_ofBytes {number : PageNumber} {data : Bytes} {format : Format}
    {node : Node} (h : ofBytes number data format = .ok node) : node.entries.length < 0x10000 := by
  obtain ⟨page, _, h⟩ := bind_eq_ok_iff.mp h
  obtain ⟨body, hbody, rfl⟩ := map_eq_ok_iff.mp h
  exact entries_length_lt_of_bodyOf hbody

end Node

end EseReader
