import EseReader.Proofs.Tree.Ordered
import Mathlib.Data.Fintype.Pigeonhole
import Mathlib.Tactic.Choose

/-!
# `EseReader/Proofs/Tree/Trail.lean` — following pages from one to the next

Where a descent takes one entry of each branch, and where the chain of leaves takes the one link of
each leaf, a page leads to at most one other page. `trail` follows such a step as often as one
likes, on pages that need not form a tree: it may end, and it may run in a circle.

A trail that comes to the same page twice **recurs**, and then it never ends (`Recurs.exists_trail`).
There are only as many pages below a bound as the bound says, so a trail of more pages than that
recurs (`recurs_of_bounded`).
-/

set_option autoImplicit false

namespace EseReader

/-! ## Pages as they are read -/

namespace Forest

/-- The page is a branch with these entries. -/
def BranchAt (forest : Forest) (page : PageNumber) (entries : List BranchEntry) : Prop :=
  ∃ node, forest.node page = .ok node ∧ node.body = .branch entries

/-- The node is a leaf, on the page that it names. -/
def LeafAt (forest : Forest) (leaf : Node) : Prop :=
  forest.node leaf.page = .ok leaf ∧ ∃ values, leaf.body = .leaf values

variable {forest : Forest} {page : PageNumber} {leaf : Node}

theorem BranchAt.unique {entries other : List BranchEntry} (h : forest.BranchAt page entries)
    (hother : forest.BranchAt page other) : entries = other := by
  obtain ⟨node, hnode, hbody⟩ := h
  obtain ⟨node', hnode', hbody'⟩ := hother
  obtain rfl := Except.ok.inj (hnode.symm.trans hnode')
  exact NodeBody.branch.inj (hbody.symm.trans hbody')

theorem LeafAt.body (h : forest.LeafAt leaf) : leaf.body = .leaf leaf.values := by
  obtain ⟨_, values, hbody⟩ := h
  rw [hbody, Node.values_of_leaf hbody]

end Forest

/-! ## Trails -/

/-- The page that lies `count` steps behind `page`, where `go` is one step. -/
def trail (go : PageNumber → Option PageNumber) :
    (page : PageNumber) → (count : Nat) → Option PageNumber
  | page, 0 => some page
  | page, count + 1 => (go page).bind fun next => trail go next count

/-- The trail comes to some page twice. -/
def Recurs (go : PageNumber → Option PageNumber) (page : PageNumber) : Prop :=
  ∃ earlier later again, earlier < later ∧ trail go page earlier = some again ∧
    trail go page later = some again

variable {go : PageNumber → Option PageNumber} {page next last : PageNumber} {count less : Nat}

theorem trail_succ_of_some (h : go page = some next) :
    trail go page (count + 1) = trail go next count := by
  rw [trail, h, Option.bind_some]

theorem trail_add (go : PageNumber → Option PageNumber) (page : PageNumber) (count more : Nat) :
    trail go page (count + more) = (trail go page count).bind (trail go · more) := by
  induction count generalizing page with
  | zero => rw [Nat.zero_add, trail, Option.bind_some]
  | succ count ih =>
    rw [Nat.succ_add, trail, trail, Option.bind_assoc]
    congr 1
    funext next
    exact ih next

/-- The last step of a trail. -/
theorem trail_succ (go : PageNumber → Option PageNumber) (page : PageNumber) (count : Nat) :
    trail go page (count + 1) = (trail go page count).bind go := by
  rw [trail_add]
  congr 1
  funext next
  rw [trail]
  cases go next <;> rfl

theorem exists_trail_of_le (hle : less ≤ count) (h : trail go page count = some last) :
    ∃ before, trail go page less = some before := by
  rw [← Nat.add_sub_of_le hle, trail_add] at h
  obtain ⟨before, hbefore, _⟩ := Option.bind_eq_some_iff.mp h
  exact ⟨before, hbefore⟩

/-- **A trail that recurs never ends**: from the second time on it goes as from the first. -/
theorem Recurs.exists_trail (h : Recurs go page) (count : Nat) :
    ∃ last, trail go page count = some last := by
  obtain ⟨earlier, later, again, hlt, hearlier, hlater⟩ := h
  induction count using Nat.strongRecOn with
  | ind count ih =>
    by_cases hcount : count ≤ later
    · exact exists_trail_of_le hcount hlater
    · obtain ⟨more, rfl⟩ : ∃ more, count = later + more := ⟨count - later, by omega⟩
      obtain ⟨last, hlast⟩ := ih (earlier + more) (by omega)
      rw [trail_add, hearlier] at hlast
      exact ⟨last, by rw [trail_add, hlater]; exact hlast⟩

/-- **A trail of more pages than there are below a bound recurs.** -/
theorem recurs_of_bounded {bound : PageNumber} (hlast : trail go page bound.toNat = some last)
    (hbound : ∀ count ≤ bound.toNat, ∀ other, trail go page count = some other → other < bound) :
    Recurs go page := by
  have hpage (index : Fin (bound.toNat + 1)) :
      ∃ other : PageNumber, trail go page index = some other ∧ other.toNat < bound.toNat := by
    have hle : index.val ≤ bound.toNat := Nat.le_of_lt_succ index.isLt
    obtain ⟨other, hother⟩ := exists_trail_of_le hle hlast
    exact ⟨other, hother, UInt32.lt_iff_toNat_lt.mp (hbound index hle other hother)⟩
  choose place hplace hlt using hpage
  obtain ⟨first, second, hne, heq⟩ := Fintype.exists_ne_map_eq_of_card_lt
    (fun index => (⟨(place index).toNat, hlt index⟩ : Fin bound.toNat)) (by simp)
  have hsame : place first = place second := UInt32.toNat_inj.mp (Fin.mk.inj heq)
  rcases Nat.lt_or_gt_of_ne (Fin.val_ne_of_ne hne) with horder | horder
  · exact ⟨first, second, place first, horder, hplace first, hsame ▸ hplace second⟩
  · exact ⟨second, first, place second, horder, hplace second, hsame ▸ hplace first⟩

end EseReader
