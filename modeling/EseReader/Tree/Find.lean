import EseReader.Tree.Forest

/-!
# `EseReader/Tree/Find.lean` — looking up one key

A search keeps the **path** from the root to the page it is about to read, innermost page first,
each with the position from which its entries are still to be tried. Reading that page is one step:

* in a leaf, the first value whose key is not before the target decides. If it is the target the
  search is over; if it comes later the target is nowhere; if there is none the search goes on
  where the path says;
* in a branch, the first entry whose key covers the target leads to the next page. The key of an
  entry is the highest one below it, so the entries behind it are of interest only if that key
  **equals** the target: then the target may also be at the beginning of the next child, and the
  search may have to come back.

The path is never longer than `Forest.maxDepth`. That is what makes searching a total function even
where pages point back to themselves: `effort` is a number that every step lowers.
-/

set_option autoImplicit false

namespace EseReader

/-- A page on the path of a search, and the first of its entries not yet tried. -/
structure Position where
  page : PageNumber
  start : Nat
  deriving DecidableEq, Repr

namespace Find

/-- What one step of a search leads to. -/
inductive Progress where
  | found (value : LeafValue)
  | missing
  | searching (path : List Position)
  deriving DecidableEq, Repr

/-- The position from which a branch with `count` entries is tried again after its entry at `index`
led nowhere: only a key equal to the target leaves anything to try. -/
def resumption (order : KeyOrder) (target key : Key) (index count : Nat) : Nat :=
  if key.bytes.isEmpty || order.compare target key == .lt then count else index + 1

/-- One step: what the node at the position `here` says about `target`, with `above` the rest of
the path. -/
def step (order : KeyOrder) (target : Key) (here : Position) (above : List Position)
    (body : NodeBody) : Except Error Progress :=
  match body with
  | .leaf values =>
    match (values.drop here.start).find? (order.compare ·.key target != .lt) with
    | none => .ok (.searching above)
    | some value =>
      if order.compare value.key target = .eq then .ok (.found value) else .ok .missing
  | .branch entries =>
    match ((entries.drop here.start).zipIdx here.start).find? (order.covers ·.1.key target) with
    | none => .ok (.searching above)
    | some (entry, index) =>
      if Forest.maxDepth < above.length + 2 then
        .error (.tree here.page (.tooDeep Forest.maxDepth))
      else
        let resume := resumption order target entry.key index entries.length
        .ok (.searching (⟨entry.child, 0⟩ :: ⟨here.page, resume⟩ :: above))

/-! ## Why a search ends

A position is worth more the more entries it has left, and a position is worth more than everything
that can come to stand below it on the path. -/

/-- More than any position is worth by itself. -/
def base : Nat := 0x10000 + 2

/-- An upper bound for the number of steps a search with this path can still take. -/
def effort : List Position → Nat
  | [] => 0
  | here :: above =>
    (0x10000 - here.start + 1) * base.pow (Forest.maxDepth - above.length) + effort above

theorem effort_lt_cons (here : Position) (above : List Position) :
    effort above < effort (here :: above) := by
  have : 0 < (0x10000 - here.start + 1) * base.pow (Forest.maxDepth - above.length) :=
    Nat.mul_pos (Nat.succ_pos _) (Nat.pow_pos (by decide))
  simp only [effort]
  omega

/-- Going down costs less than the position it uses up. -/
theorem effort_descend_lt (here : Position) (above : List Position) (child : PageNumber)
    {resume : Nat} (hstart : here.start < resume) (hresume : resume < 0x10000)
    (hdepth : above.length + 2 ≤ Forest.maxDepth) :
    effort (⟨child, 0⟩ :: ⟨here.page, resume⟩ :: above) < effort (here :: above) := by
  obtain ⟨e, he⟩ : ∃ e, Forest.maxDepth - above.length = e + 1 :=
    ⟨Forest.maxDepth - above.length - 1, by omega⟩
  have he' : Forest.maxDepth - (above.length + 1) = e := by omega
  have hpos : 0 < base.pow e := Nat.pow_pos (by decide)
  have hpow : base.pow (e + 1) = base.pow e * base := Nat.pow_succ _ _
  simp only [effort, List.length_cons, he, he', hpow]
  generalize base.pow e = x at hpos
  have hle : (0x10000 - resume + 2) * (x * base) ≤ (0x10000 - here.start + 1) * (x * base) :=
    Nat.mul_le_mul_right _ (by omega)
  have hsplit : (0x10000 - resume + 2) * (x * base)
      = (0x10000 - resume + 1) * (x * base) + x * base := by
    rw [show 0x10000 - resume + 2 = (0x10000 - resume + 1) + 1 from rfl, Nat.succ_mul]
  have hchild : (0x10000 - 0 + 1) * x < x * base := by
    rw [Nat.mul_comm x base]
    exact Nat.mul_lt_mul_of_pos_right (by decide) hpos
  omega

/-- **Every step lowers the effort**, on a node of the size a page can have. -/
theorem effort_step_lt {order : KeyOrder} {target : Key} {here : Position} {above path : List Position}
    {body : NodeBody} (hsize : body.entries.length < 0x10000)
    (h : step order target here above body = .ok (.searching path)) :
    effort path < effort (here :: above) := by
  unfold step at h
  cases body with
  | leaf values =>
    simp only at h
    split at h
    · cases h; exact effort_lt_cons _ _
    · split at h <;> cases h
  | branch entries =>
    simp only at h
    split at h
    · cases h; exact effort_lt_cons _ _
    · rename_i entry index hfind
      have hmem := List.mem_of_find?_eq_some hfind
      obtain ⟨hlow, hhigh, _⟩ := List.mem_zipIdx hmem
      have hcount : entries.length < 0x10000 := by simpa [NodeBody.entries] using hsize
      rw [List.length_drop] at hhigh
      split at h
      · cases h
      · cases h
        refine effort_descend_lt here above entry.child ?_ ?_ (by omega)
        · unfold resumption; split <;> omega
        · unfold resumption; split <;> omega

end Find

namespace Forest

/-- Searches on from `path`, innermost page first. -/
def search (forest : Forest) (order : KeyOrder) (target : Key) (path : List Position) :
    Walk (Except Error (Option LeafValue)) :=
  match path with
  | [] => ⟨[], .ok none⟩
  | here :: above =>
    match _ : forest.node here.page with
    | .error e => .visit here.page (.error e)
    | .ok node =>
      match _ : Find.step order target here above node.body with
      | .error e => .visit here.page (.error e)
      | .ok (.found value) => .visit here.page (.ok (some value))
      | .ok .missing => .visit here.page (.ok none)
      | .ok (.searching path) => (forest.search order target path).after here.page
termination_by Find.effort path
decreasing_by exact Find.effort_step_lt (entries_length_lt_of_node ‹_›) ‹_›

/-- The first value under `key` in the tree at `root`, if the tree has one. -/
def find (forest : Forest) (root : PageNumber) (key : Key) (order : KeyOrder) :
    Walk (Except Error (Option LeafValue)) :=
  forest.search order key [⟨root, 0⟩]

end Forest

end EseReader
