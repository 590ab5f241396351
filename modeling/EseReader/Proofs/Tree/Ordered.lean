import EseReader.Proofs.Key.Order
import EseReader.Proofs.Page.Image
import EseReader.Source.Memory
import EseReader.Tree.Forest

/-!
# `EseReader/Proofs/Tree/Ordered.lean` — ordered trees and their leaves

What a tree **contains** is said here without any of the searches: `leavesBelow` unfolds the pages
below a root, and the values of these leaves from left to right are the contents. What it takes for
the contents to be found is `IsOrdered`:

* every page that belongs to the tree can be read, and no path is longer than `levels`. A page that
  were its own ancestor would have paths of every length, so there is none;
* the keys of a leaf do not go down;
* the key of a branch entry **parts** the values: nothing below the entry is behind it, and nothing
  below a later entry is before it. Only the last entry may do without a key (`Parted`).

The levels are counted down, as the descents count them, so that the proofs about a descent are
inductions on the same number.
-/

set_option autoImplicit false

namespace EseReader

namespace Node

/-- The values of a leaf. A branch has none of its own. -/
def values (node : Node) : List LeafValue :=
  match node.body with
  | .leaf values => values
  | .branch _ => []

theorem values_of_leaf {node : Node} {values : List LeafValue} (h : node.body = .leaf values) :
    node.values = values := by
  rw [Node.values, h]

end Node

namespace Forest

/-- The leaves below `page` from left to right, down to `levels` levels. -/
def leavesBelow (forest : Forest) : (levels : Nat) → (page : PageNumber) → List Node
  | 0, _ => []
  | levels + 1, page =>
    match forest.node page with
    | .error _ => []
    | .ok node =>
      match node.body with
      | .leaf _ => [node]
      | .branch entries => entries.flatMap fun entry => forest.leavesBelow levels entry.child

/-- The values below `page` from left to right. -/
def valuesBelow (forest : Forest) (levels : Nat) (page : PageNumber) : List LeafValue :=
  (forest.leavesBelow levels page).flatMap Node.values

/-- The branches below `page`, each with its entries. -/
def branchesBelow (forest : Forest) : (levels : Nat) → (page : PageNumber) → List (List BranchEntry)
  | 0, _ => []
  | levels + 1, page =>
    match forest.node page with
    | .error _ => []
    | .ok node =>
      match node.body with
      | .leaf _ => []
      | .branch entries =>
        entries :: entries.flatMap fun entry => forest.branchesBelow levels entry.child

end Forest

/-! ## What is asked of a node -/

namespace KeyOrder

/-- The keys do not go down. -/
def Sorted (order : KeyOrder) (values : List LeafValue) : Prop :=
  values.Pairwise fun value later => order.Le value.key later.key

instance {order : KeyOrder} {values : List LeafValue} : Decidable (order.Sorted values) :=
  inferInstanceAs (Decidable (List.Pairwise _ _))

/-- The keys of `entries` part the values `below` them. -/
def Parted (order : KeyOrder) (below : BranchEntry → List LeafValue) : List BranchEntry → Prop
  | [] => True
  | entry :: later =>
    (entry.key.bytes ≠ [] → ∀ value ∈ below entry, order.Le value.key entry.key) ∧
    (∀ other ∈ later,
      entry.key.bytes ≠ [] ∧
      (other.key.bytes ≠ [] → order.Le entry.key other.key) ∧
      ∀ value ∈ below other, order.Le entry.key value.key) ∧
    order.Parted below later

instance decidableParted {order : KeyOrder} {below : BranchEntry → List LeafValue} :
    (entries : List BranchEntry) → Decidable (order.Parted below entries)
  | [] => isTrue trivial
  | _ :: later =>
    have : Decidable (order.Parted below later) := decidableParted later
    inferInstanceAs (Decidable (_ ∧ _ ∧ _))

end KeyOrder

namespace NodeBody

/-- A node in order: `below` are the values below a page one level down, and `sub` is what holds of
that page. -/
def InOrder (order : KeyOrder) (below : PageNumber → List LeafValue) (sub : PageNumber → Prop) :
    NodeBody → Prop
  | leaf values => order.Sorted values
  | branch entries =>
    order.Parted (fun entry => below entry.child) entries ∧ ∀ entry ∈ entries, sub entry.child

instance {order : KeyOrder} {below : PageNumber → List LeafValue} {sub : PageNumber → Prop}
    [DecidablePred sub] : (body : NodeBody) → Decidable (body.InOrder order below sub)
  | leaf _ => inferInstanceAs (Decidable (order.Sorted _))
  | branch _ => inferInstanceAs (Decidable (_ ∧ _))

end NodeBody

instance decidableExistsOk {ε α : Type} {p : α → Prop} [DecidablePred p] :
    (result : Except ε α) → Decidable (∃ a, result = .ok a ∧ p a)
  | .ok a => decidable_of_iff (p a) ⟨fun h => ⟨a, rfl, h⟩, fun ⟨_, ha, h⟩ => by cases ha; exact h⟩
  | .error _ => isFalse fun ⟨_, ha, _⟩ => by cases ha

namespace Forest

/-- **An ordered tree** of at most `levels` levels, rooted at a page. -/
def IsOrdered (forest : Forest) (order : KeyOrder) : (levels : Nat) → (page : PageNumber) → Prop
  | 0, _ => False
  | levels + 1, page =>
    ∃ node, forest.node page = .ok node ∧
      node.body.InOrder order (forest.valuesBelow levels) (forest.IsOrdered order levels)

instance decidableIsOrdered {forest : Forest} {order : KeyOrder} :
    (levels : Nat) → (page : PageNumber) → Decidable (forest.IsOrdered order levels page)
  | 0, _ => isFalse id
  | levels + 1, _ =>
    have : DecidablePred (forest.IsOrdered order levels) := decidableIsOrdered levels
    inferInstanceAs (Decidable (∃ _, _ = _ ∧ _))

variable {forest : Forest} {order : KeyOrder} {levels : Nat} {page : PageNumber}

/-! ## The two kinds of nodes -/

theorem page_eq_of_node {node : Node} (h : forest.node page = .ok node) : node.page = page := by
  obtain ⟨data, _, h⟩ := bind_eq_ok_iff.mp h
  obtain ⟨read, hread, h⟩ := bind_eq_ok_iff.mp h
  obtain ⟨body, _, rfl⟩ := map_eq_ok_iff.mp h
  simp only [Page.ofBytes] at hread
  split at hread
  · cases hread
  · cases hread
    rfl

theorem leavesBelow_leaf {node : Node} {values : List LeafValue} (hnode : forest.node page = .ok node)
    (hbody : node.body = .leaf values) : forest.leavesBelow (levels + 1) page = [node] := by
  simp only [leavesBelow, hnode, hbody]

theorem leavesBelow_branch {node : Node} {entries : List BranchEntry}
    (hnode : forest.node page = .ok node) (hbody : node.body = .branch entries) :
    forest.leavesBelow (levels + 1) page =
      entries.flatMap fun entry => forest.leavesBelow levels entry.child := by
  simp only [leavesBelow, hnode, hbody]

theorem branchesBelow_branch {node : Node} {entries : List BranchEntry}
    (hnode : forest.node page = .ok node) (hbody : node.body = .branch entries) :
    forest.branchesBelow (levels + 1) page =
      entries :: entries.flatMap fun entry => forest.branchesBelow levels entry.child := by
  simp only [branchesBelow, hnode, hbody]

theorem valuesBelow_leaf {node : Node} {values : List LeafValue} (hnode : forest.node page = .ok node)
    (hbody : node.body = .leaf values) : forest.valuesBelow (levels + 1) page = values := by
  rw [valuesBelow, leavesBelow_leaf hnode hbody, List.flatMap_singleton, Node.values_of_leaf hbody]

theorem valuesBelow_branch {node : Node} {entries : List BranchEntry}
    (hnode : forest.node page = .ok node) (hbody : node.body = .branch entries) :
    forest.valuesBelow (levels + 1) page =
      entries.flatMap fun entry => forest.valuesBelow levels entry.child := by
  rw [valuesBelow, leavesBelow_branch hnode hbody, List.flatMap_assoc]
  rfl

/-- An ordered tree has at least one level. Its root is a leaf with sorted values, or a branch whose
keys part the ordered trees below it. -/
theorem IsOrdered.cases (h : forest.IsOrdered order levels page) :
    ∃ below node, levels = below + 1 ∧ forest.node page = .ok node ∧
      ((∃ values, node.body = .leaf values ∧ order.Sorted values) ∨
        ∃ entries, node.body = .branch entries ∧
          order.Parted (fun entry => forest.valuesBelow below entry.child) entries ∧
          ∀ entry ∈ entries, forest.IsOrdered order below entry.child) := by
  cases levels with
  | zero => exact absurd h id
  | succ below =>
    obtain ⟨node, hnode, hbody⟩ := h
    refine ⟨below, node, rfl, hnode, ?_⟩
    cases hkind : node.body with
    | leaf values => rw [hkind] at hbody; exact .inl ⟨values, rfl, hbody⟩
    | branch entries => rw [hkind] at hbody; exact .inr ⟨entries, rfl, hbody⟩

end Forest

/-! ## The contents are sorted -/

namespace KeyOrder

variable {order : KeyOrder} {below : BranchEntry → List LeafValue} {entry : BranchEntry}
  {entries later : List BranchEntry}

theorem Parted.tail (h : order.Parted below (entry :: later)) : order.Parted below later := h.2.2

theorem Parted.le_key (h : order.Parted below entries) (hentry : entry ∈ entries)
    (hkey : entry.key.bytes ≠ []) {value : LeafValue} (hvalue : value ∈ below entry) :
    order.Le value.key entry.key := by
  induction entries with
  | nil => exact absurd hentry List.not_mem_nil
  | cons first later ih =>
    rcases List.mem_cons.mp hentry with rfl | hentry
    · exact h.1 hkey value hvalue
    · exact ih h.tail hentry

theorem Parted.key_le (h : order.Parted below (entry :: later)) {value : LeafValue}
    (hvalue : value ∈ later.flatMap below) : entry.key.bytes ≠ [] ∧ order.Le entry.key value.key := by
  obtain ⟨other, hother, hvalue⟩ := List.mem_flatMap.mp hvalue
  obtain ⟨hkey, _, hlow⟩ := h.2.1 other hother
  exact ⟨hkey, hlow value hvalue⟩

theorem Parted.le (h : order.Parted below (entry :: later)) {value behind : LeafValue}
    (hvalue : value ∈ below entry) (hbehind : behind ∈ later.flatMap below) :
    order.Le value.key behind.key :=
  have ⟨hkey, hlow⟩ := h.key_le hbehind
  (h.le_key List.mem_cons_self hkey hvalue).trans hlow

theorem Parted.sorted (h : order.Parted below entries)
    (hsub : ∀ entry ∈ entries, order.Sorted (below entry)) :
    order.Sorted (entries.flatMap below) := by
  induction entries with
  | nil => exact .nil
  | cons entry later ih =>
    rw [List.flatMap_cons]
    refine List.pairwise_append.mpr ⟨hsub entry List.mem_cons_self, ?_, ?_⟩
    · exact ih h.tail fun other hother => hsub other (List.mem_cons_of_mem _ hother)
    · exact fun value hvalue behind hbehind => h.le hvalue hbehind

end KeyOrder

namespace Forest

variable {forest : Forest} {order : KeyOrder} {levels : Nat} {page : PageNumber}

/-- **The contents of an ordered tree are sorted.** -/
theorem IsOrdered.sorted (h : forest.IsOrdered order levels page) :
    order.Sorted (forest.valuesBelow levels page) := by
  induction levels generalizing page with
  | zero => exact absurd h id
  | succ levels ih =>
    obtain ⟨below, node, hlevels, hnode, hkind⟩ := h.cases
    obtain rfl : levels = below := Nat.succ_inj.mp hlevels
    rcases hkind with ⟨values, hbody, hsorted⟩ | ⟨entries, hbody, hparted, hsub⟩
    · rw [valuesBelow_leaf hnode hbody]
      exact hsorted
    · rw [valuesBelow_branch hnode hbody]
      exact hparted.sorted fun entry hentry => ih (hsub entry hentry)

/-! ## A small forest

Three levels, with an empty leaf between two others. The first child of the root ends with the key
`d`, and the first value behind it has that key; `bound` closes the empty leaf. -/

def samplePages (bound : Bytes) : MemoryPages where
  pageSize := 72
  slots := 13
  stored := [
    (4, (PageImage.branch 72 [([0x64], 5), ([], 6)]).bytes),
    (5, (PageImage.branch 72 [([0x62], 10), (bound, 11)]).bytes),
    (6, (PageImage.branch 72 [([], 12)]).bytes),
    (10, (PageImage.leaf 72 11 [[0x61], [0x62]]).bytes),
    (11, (PageImage.leaf 72 12 []).bytes),
    (12, (PageImage.leaf 72 0 [[0x64], [0x65]]).bytes)]

/-- The tree of this forest has page 4 as its root. -/
def sample (bound : Bytes) : Forest := ⟨(samplePages bound).source, .standard⟩

/-- A value of the sample, which stands on `page` at `tag`. -/
def sampleValue (byte : UInt8) (page : PageNumber) (offset tag : Nat) : LeafValue where
  key := ⟨[byte]⟩
  data := [byte]
  location := ⟨page, offset, tag, 3⟩
  kind := .record

end Forest

end EseReader
