import EseReader.Proofs.Tree.Step
import EseReader.Proofs.Tree.Trail

/-!
# `EseReader/Proofs/Tree/Requests.lean` — which pages a search asks for

A search should touch no page that cannot hold its target. What a branch says about that is the
**range** of each entry: the target must not be behind the key of the entry, and not before the key
of any entry in front of it (`KeyOrder.InRange`).

The pages that a search asks for are told here as a `Forest.Tour`. A tour stands on a page and has a
path above it, and knows two moves only: down into a child whose range has the target in it, and
back to the page above. Where the loop of the search stands in a page, and which positions it keeps,
does not occur in it. That each search is a tour (`tour_search`) rests on what the kept positions
mean: **a branch that is on the path is done with, or the target is not before any of the entries
that were tried** (`Suspended`).

Nothing is assumed of the pages. They need not be ordered, and they may lead back to themselves.
-/

set_option autoImplicit false

namespace EseReader

namespace KeyOrder

/-- The target is not before any of these entries. An entry without a key has nothing behind it. -/
def Passes (order : KeyOrder) (target : Key) (entries : List BranchEntry) : Prop :=
  ∀ other ∈ entries, other.key.bytes ≠ [] ∧ order.Le other.key target

/-- The target may be below `entry`, which stands behind the entries `before` in its branch. -/
structure InRange (order : KeyOrder) (target : Key) (before : List BranchEntry)
    (entry : BranchEntry) : Prop where
  upper : entry.key.bytes = [] ∨ order.Le target entry.key
  lower : order.Passes target before

/-- The target is in the closed interval between the separators on both sides of `entry`. A missing
separator, or one without a key, does not close it. -/
structure Between (order : KeyOrder) (target : Key) (before : List BranchEntry)
    (entry : BranchEntry) : Prop where
  upper : entry.key.bytes = [] ∨ order.Le target entry.key
  lower : ∀ other ∈ before.getLast?, order.Le other.key target

variable {order : KeyOrder} {target : Key} {start : Nat} {before after : List BranchEntry}
  {entry : BranchEntry}

theorem InRange.between (h : order.InRange target before entry) : order.Between target before entry :=
  ⟨h.upper, fun other hother => (h.lower other (List.mem_of_getLast? hother)).2⟩

theorem passes_of_not_covers
    (h : ∀ other ∈ before, order.covers other.key target = false) : order.Passes target before :=
  fun other hother =>
    have ⟨hkey, hlt⟩ := not_covers_iff.mp (h other hother)
    ⟨hkey, hlt.le⟩

end KeyOrder

namespace Forest

open Find

/-- **A tour** asks for the first page of its path, which leads up to the root, and then moves on.
These are all the pages it asks for. -/
inductive Tour (forest : Forest) (order : KeyOrder) (target : Key) :
    (path visited : List PageNumber) → Prop where
  | done {page : PageNumber} {above : List PageNumber} : Tour forest order target (page :: above) [page]
  /-- To a child of the page that was just read. -/
  | down {page : PageNumber} {above visited : List PageNumber} {before after : List BranchEntry}
      {entry : BranchEntry} (hbranch : forest.BranchAt page (before ++ entry :: after))
      (hrange : order.InRange target before entry) (hroom : above.length + 2 ≤ maxDepth)
      (hrest : Tour forest order target (entry.child :: page :: above) visited) :
      Tour forest order target (page :: above) (page :: visited)
  /-- To the branch above, which is read again. -/
  | back {page parent : PageNumber} {above visited : List PageNumber} {entries : List BranchEntry}
      (hbranch : forest.BranchAt parent entries)
      (hrest : Tour forest order target (parent :: above) visited) :
      Tour forest order target (page :: parent :: above) (page :: visited)

variable {forest : Forest} {order : KeyOrder} {target : Key} {page root number : PageNumber}
  {start levels : Nat} {path visited above : List PageNumber} {before after entries : List BranchEntry}
  {entry : BranchEntry}

/-! ## The positions of a search -/

/-- What a position means that is on the path: the search is through with that branch, or the target
is not before any entry in front of the position. -/
def Suspended (forest : Forest) (order : KeyOrder) (target : Key) (position : Position) : Prop :=
  ∃ entries, forest.BranchAt position.page entries ∧
    (position.start = entries.length ∨ order.Passes target (entries.take position.start))

/-- The first position of a path may also be at the start of a page that was not read yet. -/
def OnWay (forest : Forest) (order : KeyOrder) (target : Key) : List Position → Prop
  | [] => True
  | here :: above =>
    (here.start = 0 ∨ forest.Suspended order target here) ∧
      ∀ position ∈ above, forest.Suspended order target position

theorem onWay_of_suspended {path : List Position}
    (h : ∀ position ∈ path, forest.Suspended order target position) :
    forest.OnWay order target path := by
  cases path with
  | nil => trivial
  | cons here above =>
    exact ⟨.inr (h here List.mem_cons_self), fun position hposition =>
      h position (List.mem_cons_of_mem _ hposition)⟩

/-- The entry that a search takes has the target in its range: the entries in front of it were tried
before the search left the branch, or are passed over now. -/
theorem inRange_of_isFirst (hbranch : forest.BranchAt page (before ++ entry :: after))
    (hhere : start = 0 ∨ forest.Suspended order target ⟨page, start⟩)
    (hfirst : IsFirst order target start before entry) : order.InRange target before entry := by
  have hfront : order.Passes target (before.take start) := by
    rcases hhere with rfl | ⟨entries, hentries, hstart⟩
    · rw [List.take_zero]
      exact fun _ hother => absurd hother List.not_mem_nil
    · obtain rfl := hentries.unique hbranch
      have hle := hfirst.start_le
      rcases hstart with hdone | hpasses
      · -- A branch that is done with has no entry left to take.
        simp only [List.length_append, List.length_cons] at hdone
        omega
      · rwa [List.take_append_of_le_length hle] at hpasses
  refine ⟨KeyOrder.covers_iff.mp hfirst.covers, fun other hother => ?_⟩
  rw [← List.take_append_drop start before] at hother
  rcases List.mem_append.mp hother with hother | hother
  · exact hfront other hother
  · exact KeyOrder.passes_of_not_covers hfirst.passed other hother

/-- Only a key equal to the target leaves entries to be tried, and then the target is not before the
entry that was taken either. -/
theorem suspended_of_inRange (hbranch : forest.BranchAt page (before ++ entry :: after))
    (hrange : order.InRange target before entry) :
    forest.Suspended order target ⟨page,
      resumption order target entry.key before.length (before ++ entry :: after).length⟩ := by
  refine ⟨_, hbranch, ?_⟩
  by_cases hdone : entry.key.bytes.isEmpty || order.compare target entry.key == .lt
  · exact .inl (if_pos hdone)
  · right
    have hresume : resumption order target entry.key before.length
        (before ++ entry :: after).length = before.length + 1 := if_neg hdone
    have hkey : entry.key.bytes ≠ [] := by
      intro hempty
      simp [hempty] at hdone
    have hle : order.Le entry.key target := by
      refine KeyOrder.not_lt.mp fun hlt => hdone ?_
      rw [show order.compare target entry.key = .lt from hlt, BEq.rfl, Bool.or_true]
    rw [hresume, List.take_length_add_append]
    refine fun other hother => ?_
    rcases List.mem_append.mp hother with hother | hother
    · exact hrange.lower other hother
    · obtain rfl := List.mem_singleton.mp hother
      exact ⟨hkey, hle⟩

/-! ## A search is a tour -/

theorem tour_search (path : List Position) (h : forest.OnWay order target path) :
    path = [] ∨
      forest.Tour order target (path.map (·.page)) (forest.search order target path).visited := by
  fun_induction search forest order target path with
  | case1 => exact .inl rfl
  | case2 | case3 | case4 | case5 => exact .inr .done
  | case6 here above node hnode path hstep ih =>
    right
    rw [Walk.visited_after]
    rcases of_step_searching hstep with rfl | ⟨before, entry, after, hbody, hfirst, hroom, rfl⟩
    · -- Nothing is left in this page, and the search goes back if the path has a page above it.
      match path with
      | [] =>
        rw [search]
        exact .done
      | parent :: above =>
        obtain ⟨entries, hparent, _⟩ := h.2 parent List.mem_cons_self
        exact .back hparent ((ih (onWay_of_suspended h.2)).resolve_left (List.cons_ne_nil _ _))
    · have hbranch : forest.BranchAt here.page (before ++ entry :: after) := ⟨node, hnode, hbody⟩
      have hrange := inRange_of_isFirst hbranch h.1 hfirst
      have hway : forest.OnWay order target (⟨entry.child, 0⟩ :: _ :: above) :=
        ⟨.inl rfl, List.forall_mem_cons.mpr ⟨suspended_of_inRange hbranch hrange, h.2⟩⟩
      have hlength : (above.map (·.page)).length + 2 ≤ maxDepth := by rwa [List.length_map]
      exact .down hbranch hrange hlength ((ih hway).resolve_left (List.cons_ne_nil _ _))

theorem tour_find (forest : Forest) (root : PageNumber) (target : Key) (order : KeyOrder) :
    forest.Tour order target [root] (forest.find root target order).visited :=
  (tour_search [⟨root, 0⟩] ⟨.inl rfl, fun _ h => absurd h List.not_mem_nil⟩).resolve_left
    (List.cons_ne_nil _ _)

/-! ## The places of the pages in a tree -/

/-- A path from a page up to the root, each page a child of the next one. -/
inductive Lineage (forest : Forest) (root : PageNumber) : (path : List PageNumber) → Prop where
  | root : Lineage forest root [root]
  | child {page : PageNumber} {above : List PageNumber} {entries : List BranchEntry}
      {entry : BranchEntry} (hpage : Lineage forest root (page :: above))
      (hbranch : forest.BranchAt page entries) (hentry : entry ∈ entries) :
      Lineage forest root (entry.child :: page :: above)

theorem Lineage.tail {parent : PageNumber} (h : forest.Lineage root (page :: parent :: above)) :
    forest.Lineage root (parent :: above) := by
  cases h with
  | child hpage _ _ => exact hpage

/-- The branches below a page of a lineage are branches below the root. -/
theorem Lineage.branchesBelow_subset (h : forest.Lineage root (page :: above)) (levels : Nat) :
    forest.branchesBelow levels page ⊆ forest.branchesBelow (above.length + levels) root := by
  generalize hpath : page :: above = path at h
  induction h generalizing page above levels with
  | root =>
    cases hpath
    rw [List.length_nil, Nat.zero_add]
    exact List.Subset.refl _
  | @child parent above entries entry _ hbranch hentry ih =>
    cases hpath
    obtain ⟨node, hnode, hbody⟩ := hbranch
    have hparent := ih (levels + 1) rfl
    rw [List.length_cons, Nat.add_right_comm, Nat.add_assoc]
    intro branch hmem
    refine hparent ?_
    rw [branchesBelow_branch hnode hbody]
    exact List.mem_cons_of_mem _ (List.mem_flatMap.mpr ⟨entry, hentry, hmem⟩)

theorem Lineage.mem_branchesBelow (h : forest.Lineage root (page :: above))
    (hbranch : forest.BranchAt page entries) (hroom : above.length < levels) :
    entries ∈ forest.branchesBelow levels root := by
  obtain ⟨node, hnode, hbody⟩ := hbranch
  obtain ⟨below, rfl⟩ : ∃ below, levels = above.length + (below + 1) :=
    ⟨levels - above.length - 1, by omega⟩
  refine h.branchesBelow_subset (below + 1) ?_
  rw [branchesBelow_branch hnode hbody]
  exact List.mem_cons_self

/-- What a tour asks for is on the path it started with, or has a place in the tree whose range has
the target in it. -/
theorem Tour.exists_inRange (h : forest.Tour order target path visited)
    (hpath : forest.Lineage root path) (hnumber : number ∈ visited) :
    number ∈ path ∨ ∃ before entry after,
      before ++ entry :: after ∈ forest.branchesBelow maxDepth root ∧ entry.child = number ∧
        order.InRange target before entry := by
  induction h with
  | done =>
    rw [List.mem_singleton.mp hnumber]
    exact .inl List.mem_cons_self
  | @down page above visited before after entry hbranch hrange hroom _ ih =>
    rcases List.mem_cons.mp hnumber with rfl | hnumber
    · exact .inl List.mem_cons_self
    have hentry : entry ∈ before ++ entry :: after := List.mem_append_right _ List.mem_cons_self
    rcases ih (.child hpath hbranch hentry) hnumber with hmem | hplace
    · rcases List.mem_cons.mp hmem with rfl | hmem
      · exact .inr ⟨before, entry, after,
          hpath.mem_branchesBelow hbranch (by omega), rfl, hrange⟩
      · exact .inl hmem
    · exact .inr hplace
  | back _ _ ih =>
    rcases List.mem_cons.mp hnumber with rfl | hnumber
    · exact .inl List.mem_cons_self
    · exact (ih hpath.tail hnumber).imp_left (List.mem_cons_of_mem _)

/-- **A search asks only for pages that can hold its target.** Whatever the pages hold, and in either
order, behind each page it goes on to a child of that page whose range has the target in it, or back
to the branch above; so a page other than the root is not asked for if the target is outside of the
closed interval between its separators wherever the page stands in the tree. -/
theorem find_requests_in_range (forest : Forest) (root : PageNumber) (target : Key)
    (order : KeyOrder) :
    forest.Tour order target [root] (forest.find root target order).visited ∧
      ∀ number, number ≠ root →
        (∀ before entry after, before ++ entry :: after ∈ forest.branchesBelow maxDepth root →
          entry.child = number → ¬ order.Between target before entry) →
        number ∉ (forest.find root target order).visited := by
  refine ⟨tour_find forest root target order, fun number hroot houtside hasked => ?_⟩
  rcases (tour_find forest root target order).exists_inRange .root hasked with
    hmem | ⟨before, entry, after, hbranch, hchild, hrange⟩
  · exact hroot (List.mem_singleton.mp hmem)
  · exact houtside before entry after hbranch hchild hrange.between

/-- A miss: no page is asked for behind the separator `d` of the root. -/
example : ((sample []).find 4 ⟨[0x63]⟩ .forward).visited = [4, 5, 11, 5, 4] := by decide +kernel

end Forest

end EseReader
