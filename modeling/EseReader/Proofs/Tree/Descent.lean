import EseReader.Proofs.Tree.Chain

/-!
# `EseReader/Proofs/Tree/Descent.lean` — going down to one leaf

`Forest.leaves` and `Forest.seek` go down by taking one entry of each branch, the first one that
`pick` accepts. On an ordered tree this has two ends (`descend_of_isOrdered`): a leaf with nothing
but **early** values to its left, or a branch that has no accepted entry at all. The second end is
not an error for the reading, it is simply over; whether it can happen is a question about the
branches of the tree, and it cannot if the last entry of each of them has no key (`EndsOpen`).

`Reaches` is the same descent without a bound on the levels.
-/

set_option autoImplicit false

namespace EseReader

/-- There is a last entry, and it takes every key that the others do not. -/
def EndsOpen (entries : List BranchEntry) : Prop :=
  ∃ last, entries.getLast? = some last ∧ last.key.bytes = []

instance {entries : List BranchEntry} : Decidable (EndsOpen entries) :=
  match hlast : entries.getLast? with
  | some last => decidable_of_iff (last.key.bytes = []) (by simp [EndsOpen, hlast])
  | none => isFalse (by simp [EndsOpen, hlast])

theorem EndsOpen.exists_open {entries : List BranchEntry} (h : EndsOpen entries) :
    ∃ entry ∈ entries, entry.key.bytes = [] :=
  have ⟨last, hlast, hopen⟩ := h
  ⟨last, List.mem_of_getLast? hlast, hopen⟩

namespace Forest

/-- `leaf` is where a descent from `page` arrives that takes the entry `choose` gives for each
branch. -/
inductive Reaches (forest : Forest) (choose : List BranchEntry → Option BranchEntry) :
    (page : PageNumber) → (leaf : Node) → Prop where
  | leaf {page : PageNumber} {node : Node} {values : List LeafValue}
      (hnode : forest.node page = .ok node) (hbody : node.body = .leaf values) :
      Reaches forest choose page node
  | branch {page : PageNumber} {node leaf : Node} {entries : List BranchEntry} {entry : BranchEntry}
      (hnode : forest.node page = .ok node) (hbody : node.body = .branch entries)
      (hchoose : choose entries = some entry) (hrest : Reaches forest choose entry.child leaf) :
      Reaches forest choose page leaf

variable {forest : Forest} {order : KeyOrder} {choose : List BranchEntry → Option BranchEntry}
  {root page : PageNumber} {levels : Nat} {node leaf : Node} {entries : List BranchEntry}

theorem Reaches.unique {other : Node} (h : forest.Reaches choose page leaf)
    (hother : forest.Reaches choose page other) : leaf = other := by
  induction h with
  | leaf hnode hbody =>
    cases hother with
    | leaf hnode' _ => exact Except.ok.inj (hnode.symm.trans hnode')
    | branch hnode' hbody' _ _ =>
      obtain rfl := Except.ok.inj (hnode.symm.trans hnode')
      rw [hbody] at hbody'
      cases hbody'
  | branch hnode hbody hchoose _ ih =>
    cases hother with
    | leaf hnode' hbody' =>
      obtain rfl := Except.ok.inj (hnode.symm.trans hnode')
      rw [hbody] at hbody'
      cases hbody'
    | branch hnode' hbody' hchoose' hrest' =>
      obtain rfl := Except.ok.inj (hnode.symm.trans hnode')
      obtain rfl := NodeBody.branch.inj (hbody.symm.trans hbody')
      obtain rfl := Option.some.inj (hchoose.symm.trans hchoose')
      exact ih hrest'

/-! ## One level of a descent -/

theorem value_descend_leaf {values : List LeafValue} (hnode : forest.node page = .ok node)
    (hbody : node.body = .leaf values) :
    (forest.descend root choose (levels + 1) page).value = .ok (some (node, values)) := by
  simp only [descend, hnode, hbody, Walk.visit]

theorem value_descend_none (hnode : forest.node page = .ok node)
    (hbody : node.body = .branch entries) (hchoose : choose entries = none) :
    (forest.descend root choose (levels + 1) page).value = .ok none := by
  simp only [descend, hnode, hbody, hchoose, Walk.visit]

theorem value_descend_some {entry : BranchEntry} (hnode : forest.node page = .ok node)
    (hbody : node.body = .branch entries) (hchoose : choose entries = some entry) :
    (forest.descend root choose (levels + 1) page).value =
      (forest.descend root choose levels entry.child).value := by
  simp only [descend, hnode, hbody, hchoose, Walk.value_after]

theorem Reaches.value_descend_ne (h : forest.Reaches choose page leaf) :
    (forest.descend root choose levels page).value ≠ .ok none := by
  induction h generalizing levels with
  | leaf hnode hbody =>
    cases levels with
    | zero => exact fun h => by cases h
    | succ levels => rw [value_descend_leaf hnode hbody]; exact fun h => by cases h
  | branch hnode hbody hchoose _ ih =>
    cases levels with
    | zero => exact fun h => by cases h
    | succ levels => rw [value_descend_some hnode hbody hchoose]; exact ih

/-! ## Descents in an ordered tree -/

/-- The two ends of a descent from `page` that takes the first entry with `pick` in each branch. -/
inductive Descent (forest : Forest) (pick : BranchEntry → Bool) (early : Key → Prop)
    (root : PageNumber) (levels : Nat) (page : PageNumber) : Prop where
  | landed {before after : List Node} {leaf : Node}
      (hleaves : forest.leavesBelow levels page = before ++ leaf :: after)
      (hbefore : ∀ value ∈ before.flatMap Node.values, early value.key)
      (hreaches : forest.Reaches (·.find? pick) page leaf)
      (hdescend : (forest.descend root (·.find? pick) levels page).value =
        .ok (some (leaf, leaf.values)))
  | stranded {entries : List BranchEntry} (hbranch : entries ∈ forest.branchesBelow levels page)
      (hnone : ∀ entry ∈ entries, pick entry = false)
      (hdescend : (forest.descend root (·.find? pick) levels page).value = .ok none)

variable {pick : BranchEntry → Bool} {early : Key → Prop}

/-- A descent that goes on below an entry ends as it does there, if the values below the entries
that were passed over are early. -/
theorem Descent.of_child {entry : BranchEntry} {passed later : List BranchEntry}
    (hnode : forest.node page = .ok node) (hbody : node.body = .branch entries)
    (hfind : entries.find? pick = some entry) (hentries : entries = passed ++ entry :: later)
    (hpassed : ∀ other ∈ passed, ∀ value ∈ forest.valuesBelow levels other.child, early value.key)
    (h : Descent forest pick early root levels entry.child) :
    Descent forest pick early root (levels + 1) page := by
  cases h with
  | stranded hbranch hnone hdescend =>
    refine .stranded ?_ hnone (by rw [value_descend_some hnode hbody hfind, hdescend])
    rw [branchesBelow_branch hnode hbody]
    apply List.mem_cons_of_mem
    exact List.mem_flatMap.mpr ⟨entry, List.mem_of_find?_eq_some hfind, hbranch⟩
  | @landed before after leaf hleaves hbefore hreaches hdescend =>
    have hsplit : forest.leavesBelow (levels + 1) page =
        (passed.flatMap (fun entry => forest.leavesBelow levels entry.child) ++ before) ++
          leaf :: (after ++ later.flatMap fun entry => forest.leavesBelow levels entry.child) := by
      rw [leavesBelow_branch hnode hbody, hentries, List.flatMap_append, List.flatMap_cons, hleaves]
      simp only [List.append_assoc, List.cons_append]
    refine .landed hsplit ?_ (.branch hnode hbody hfind hreaches)
      (by rw [value_descend_some hnode hbody hfind, hdescend])
    intro value hvalue
    rw [List.flatMap_append, List.mem_append] at hvalue
    rcases hvalue with hvalue | hvalue
    · rw [List.flatMap_assoc] at hvalue
      obtain ⟨other, hother, hvalue⟩ := List.mem_flatMap.mp hvalue
      exact hpassed other hother value hvalue
    · exact hbefore value hvalue

/-- **A descent in an ordered tree** leaves early values to its left, where early is what the entries
without `pick` say of the values below them. -/
theorem descend_of_isOrdered (root : PageNumber)
    (hpick : ∀ entry, pick entry = false →
      entry.key.bytes ≠ [] ∧ ∀ key, order.Le key entry.key → early key)
    (h : forest.IsOrdered order levels page) : Descent forest pick early root levels page := by
  induction levels generalizing page with
  | zero => exact absurd h id
  | succ levels ih =>
    obtain ⟨below, node, hlevels, hnode, hkind⟩ := h.cases
    obtain rfl : levels = below := Nat.succ_inj.mp hlevels
    rcases hkind with ⟨values, hbody, -⟩ | ⟨entries, hbody, hparted, hsub⟩
    · have hleaves : forest.leavesBelow (levels + 1) page = [] ++ node :: [] :=
        leavesBelow_leaf hnode hbody
      refine .landed hleaves ?_ (.leaf hnode hbody) ?_
      · intro _ hvalue
        exact absurd hvalue List.not_mem_nil
      · rw [value_descend_leaf hnode hbody, Node.values_of_leaf hbody]
    · cases hfind : entries.find? pick with
      | none =>
        have hbranch : entries ∈ forest.branchesBelow (levels + 1) page := by
          rw [branchesBelow_branch hnode hbody]
          exact List.mem_cons_self
        refine .stranded hbranch ?_ (value_descend_none hnode hbody hfind)
        simpa using List.find?_eq_none.mp hfind
      | some entry =>
        obtain ⟨_, passed, later, hentries, hpassed⟩ := List.find?_eq_some_iff_append.mp hfind
        have hchild := ih (hsub entry (List.mem_of_find?_eq_some hfind))
        refine hchild.of_child hnode hbody hfind hentries ?_
        -- A value below an entry that was passed over is not behind the key of that entry.
        intro other hother value hvalue
        obtain ⟨hkey, hearly⟩ := hpick other (by simpa using hpassed other hother)
        have hmem : other ∈ entries := hentries ▸ List.mem_append_left _ hother
        exact hearly value.key (hparted.le_key hmem hkey hvalue)

end Forest

end EseReader
