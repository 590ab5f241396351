import EseReader.Proofs.Tree.Scan
import EseReader.Proofs.Tree.Step
import EseReader.Proofs.Tree.Trail
import EseReader.Proofs.Verified

/-!
# `EseReader/Proofs/Tree/Depth.lean` — one limit of depth for every descent

Three ways lead down into a tree: `Forest.leaves` and `Forest.seek` count the levels that are left,
and `Forest.find` looks at the length of its path, which it takes apart and puts together again on
the way. That the two tests mean the same number of pages is shown here, on pages that need not be
ordered and may lead back to themselves.

What they share is the trail of the children that a descent takes (`Forest.childOf`). A page of the
trail has a page behind it exactly if it is a branch with such a child; so **the trail goes on for
`maxDepth` steps exactly if its first `maxDepth` pages are branches with a child to take**, and then
each descent gives up. A leaf among the first `maxDepth` pages is reached by all of them.
-/

set_option autoImplicit false

namespace EseReader

namespace Forest

variable {forest : Forest} {choose : List BranchEntry → Option BranchEntry} {bound : Option Key}
  {key : Key} {root page last child other : PageNumber} {levels count : Nat} {leaf : Node}
  {above : List Position}

/-- The child that a descent takes below a page, if the page is a branch with an entry to choose. -/
def childOf (forest : Forest) (choose : List BranchEntry → Option BranchEntry) (page : PageNumber) :
    Option PageNumber :=
  match forest.node page with
  | .error _ => none
  | .ok node =>
    match node.body with
    | .leaf _ => none
    | .branch entries => (choose entries).map (·.child)

theorem childOf_eq_some_iff :
    forest.childOf choose page = some child ↔
      ∃ entries entry, forest.BranchAt page entries ∧ choose entries = some entry ∧
        entry.child = child := by
  constructor
  · intro h
    unfold childOf at h
    split at h
    · cases h
    case h_2 node hnode =>
      split at h
      · cases h
      case h_2 entries hbody =>
        obtain ⟨entry, hchoose, rfl⟩ := Option.map_eq_some_iff.mp h
        exact ⟨entries, entry, ⟨node, hnode, hbody⟩, hchoose, rfl⟩
  · rintro ⟨entries, entry, ⟨node, hnode, hbody⟩, hchoose, rfl⟩
    simp only [childOf, hnode, hbody, hchoose, Option.map_some]

/-! ## Counting the levels that are left -/

theorem value_descend_child (h : forest.childOf choose page = some child) :
    (forest.descend root choose (levels + 1) page).value =
      (forest.descend root choose levels child).value := by
  obtain ⟨entries, entry, ⟨node, hnode, hbody⟩, hchoose, rfl⟩ := childOf_eq_some_iff.mp h
  exact value_descend_some hnode hbody hchoose

theorem value_descend_tooDeep (h : trail (forest.childOf choose) page levels = some last) :
    (forest.descend root choose levels page).value = .error (.tree root (.tooDeep maxDepth)) := by
  induction levels generalizing page with
  | zero => rfl
  | succ levels ih =>
    obtain ⟨child, hchild, hrest⟩ := Option.bind_eq_some_iff.mp h
    rw [value_descend_child hchild]
    exact ih hrest

/-- A descent that gives up has taken a step on each level, if no page was refused in these words. -/
theorem of_value_descend_tooDeep
    (hplain : ∀ number other, forest.node number ≠ .error (.tree other (.tooDeep maxDepth)))
    (h : (forest.descend root choose levels page).value = .error (.tree other (.tooDeep maxDepth))) :
    other = root ∧ ∃ last, trail (forest.childOf choose) page levels = some last := by
  induction levels generalizing page with
  | zero =>
    cases h
    exact ⟨rfl, page, rfl⟩
  | succ levels ih =>
    cases hnode : forest.node page with
    | error e =>
      simp only [descend, hnode, Walk.visit, Except.error.injEq] at h
      exact absurd (h ▸ hnode) (hplain page other)
    | ok node =>
      cases hbody : node.body with
      | leaf values =>
        rw [value_descend_leaf hnode hbody] at h
        cases h
      | branch entries =>
        cases hchoose : choose entries with
        | none =>
          rw [value_descend_none hnode hbody hchoose] at h
          cases h
        | some entry =>
          rw [value_descend_some hnode hbody hchoose] at h
          have hchild : forest.childOf choose page = some entry.child :=
            childOf_eq_some_iff.mpr ⟨entries, entry, ⟨node, hnode, hbody⟩, hchoose, rfl⟩
          obtain ⟨hroot, last, hlast⟩ := ih h
          exact ⟨hroot, last, by rw [trail_succ_of_some hchild, hlast]⟩

theorem value_descend_landed (h : trail (forest.childOf choose) page count = some leaf.page)
    (hleaf : forest.LeafAt leaf) (hcount : count < levels) :
    (forest.descend root choose levels page).value = .ok (some (leaf, leaf.values)) := by
  induction count generalizing page levels with
  | zero =>
    obtain rfl := Option.some.inj h
    obtain ⟨levels, rfl⟩ : ∃ less, levels = less + 1 := ⟨levels - 1, by omega⟩
    exact value_descend_leaf hleaf.1 hleaf.body
  | succ count ih =>
    obtain ⟨child, hchild, hrest⟩ := Option.bind_eq_some_iff.mp h
    obtain ⟨levels, rfl⟩ : ∃ less, levels = less + 1 := ⟨levels - 1, by omega⟩
    rw [value_descend_child hchild]
    exact ih hrest (by omega)

theorem value_cursorFrom_tooDeep_iff
    (hplain : ∀ number other, forest.node number ≠ .error (.tree other (.tooDeep maxDepth))) :
    (forest.cursorFrom root bound choose).value = .error (.tree other (.tooDeep maxDepth)) ↔
      other = root ∧ ∃ last, trail (forest.childOf choose) root maxDepth = some last := by
  constructor
  · intro h
    refine of_value_descend_tooDeep hplain ?_
    simp only [cursorFrom, Walk.value_bind] at h
    split at h
    case h_1 e hdescend =>
      cases h
      exact hdescend
    case h_2 => cases h
    case h_3 => cases h
  · rintro ⟨rfl, last, hlast⟩
    simp only [cursorFrom, Walk.value_bind, value_descend_tooDeep hlast]
    rfl

/-! ## Looking at the path -/

theorem visited_search_cons (forest : Forest) (order : KeyOrder) (key : Key) (here : Position)
    (above : List Position) :
    ∃ rest, (forest.search order key (here :: above)).visited = here.page :: rest := by
  rw [search_eq_enter, enter]
  exact ⟨_, rfl⟩

/-- The step of a search in a page that it has not read yet, if there is a child to take. -/
theorem step_child (above : List Position)
    (h : forest.childOf (covering key) page = some child) :
    ∃ node resume, forest.node page = .ok node ∧
      Find.step .forward key ⟨page, 0⟩ above node.body =
        if maxDepth < above.length + 2 then .error (.tree page (.tooDeep maxDepth))
        else .ok (.searching (⟨child, 0⟩ :: ⟨page, resume⟩ :: above)) := by
  obtain ⟨entries, entry, ⟨node, hnode, hbody⟩, hchoose, rfl⟩ := childOf_eq_some_iff.mp h
  obtain ⟨hcovers, before, after, rfl, hpassed⟩ := List.find?_eq_some_iff_append.mp hchoose
  have hfirst : Find.IsFirst .forward key 0 before entry :=
    ⟨Nat.zero_le _, by simpa using hpassed, hcovers⟩
  exact ⟨node, _, hnode, hbody ▸ Find.step_branch_first hfirst⟩

/-- A search goes down along the trail as long as there is room on its path. -/
theorem search_follows (above : List Position)
    (h : trail (forest.childOf (covering key)) page count = some last)
    (hroom : above.length + count < maxDepth) :
    ∃ path asked, path.length = above.length + count ∧ asked.length = count ∧
      forest.search .forward key (⟨page, 0⟩ :: above) =
        ⟨asked ++ (forest.search .forward key (⟨last, 0⟩ :: path)).visited,
          (forest.search .forward key (⟨last, 0⟩ :: path)).value⟩ := by
  induction count generalizing page above with
  | zero =>
    obtain rfl := Option.some.inj h
    exact ⟨above, [], rfl, rfl, rfl⟩
  | succ count ih =>
    obtain ⟨child, hchild, hrest⟩ := Option.bind_eq_some_iff.mp h
    obtain ⟨node, resume, hnode, hstep⟩ := step_child above hchild
    rw [if_neg (by omega)] at hstep
    obtain ⟨path, asked, hlength, hasked, hsearch⟩ :=
      ih (⟨page, resume⟩ :: above) hrest (by rw [List.length_cons]; omega)
    refine ⟨path, page :: asked, ?_, congrArg (· + 1) hasked, ?_⟩
    · rw [hlength, List.length_cons]
      omega
    · rw [search_cons hnode, hstep]
      simp only [hsearch, Walk.after, List.cons_append]

theorem value_find_tooDeep (h : trail (forest.childOf (covering key)) root maxDepth = some last) :
    ∃ page, trail (forest.childOf (covering key)) root (maxDepth - 1) = some page ∧
      (forest.find root key .forward).value = .error (.tree page (.tooDeep maxDepth)) := by
  -- The last page that there is room for is a branch with a child as well.
  have hsplit : trail (forest.childOf (covering key)) root (maxDepth - 1 + 1) = some last := h
  rw [trail_succ] at hsplit
  obtain ⟨page, hpage, hchild⟩ := Option.bind_eq_some_iff.mp hsplit
  obtain ⟨path, asked, hlength, _, hsearch⟩ :=
    search_follows [] hpage (show 0 + (maxDepth - 1) < maxDepth by decide)
  obtain ⟨node, resume, hnode, hstep⟩ := step_child path hchild
  have hfull : maxDepth < path.length + 2 := by
    rw [hlength]
    decide
  rw [if_pos hfull] at hstep
  refine ⟨page, hpage, ?_⟩
  rw [find, hsearch, search_cons hnode, hstep]
  rfl

theorem visited_find_getElem? (h : trail (forest.childOf (covering key)) root count = some last)
    (hcount : count < maxDepth) :
    (forest.find root key .forward).visited[count]? = some last := by
  obtain ⟨path, asked, _, hasked, hsearch⟩ := search_follows [] h (by simpa using hcount)
  obtain ⟨rest, hrest⟩ := visited_search_cons forest .forward key ⟨last, 0⟩ path
  rw [find, hsearch, hrest, List.getElem?_append_right (Nat.le_of_eq hasked), hasked, Nat.sub_self]
  rfl

/-- **All descents have the same limit of depth.** Where no page is refused in the words of the
limit itself, and so on every source all of whose pages can be read, seeking a key and reading the
leaves give up exactly if the first `maxDepth` pages of their trail are branches with a child to
take. Then searching for the key gives up as well, on the last of these pages. And if the trail ends
with a leaf among its first `maxDepth` pages, the readings start in that leaf, and the search reads
it after as many pages as the trail has in front of it. -/
theorem descents_share_limit
    (hplain : ∀ number other, forest.node number ≠ .error (.tree other (.tooDeep maxDepth)))
    (root : PageNumber) (key : Key) :
    (∀ other, (forest.seek root key).value = .error (.tree other (.tooDeep maxDepth)) ↔
        other = root ∧ ∃ last, trail (forest.childOf (covering key)) root maxDepth = some last) ∧
      (∀ other, (forest.leaves root).value = .error (.tree other (.tooDeep maxDepth)) ↔
        other = root ∧ ∃ last, trail (forest.childOf List.head?) root maxDepth = some last) ∧
      (∀ last, trail (forest.childOf (covering key)) root maxDepth = some last →
        ∃ page, trail (forest.childOf (covering key)) root (maxDepth - 1) = some page ∧
          (forest.find root key .forward).value = .error (.tree page (.tooDeep maxDepth))) ∧
      ∀ leaf count, forest.LeafAt leaf → count < maxDepth →
        (trail (forest.childOf (covering key)) root count = some leaf.page →
          (forest.seek root key).value =
              .ok (inLeaf (some key) leaf forest.source.pageCount.toNat) ∧
            (forest.find root key .forward).visited[count]? = some leaf.page) ∧
        (trail (forest.childOf List.head?) root count = some leaf.page →
          (forest.leaves root).value = .ok (inLeaf none leaf forest.source.pageCount.toNat)) := by
  refine ⟨fun _ => value_cursorFrom_tooDeep_iff hplain, fun _ => value_cursorFrom_tooDeep_iff hplain,
    fun last hlast => value_find_tooDeep hlast, fun leaf count hleaf hcount => ?_⟩
  refine ⟨fun h => ⟨?_, ?_⟩, fun h => ?_⟩
  · exact value_cursorFrom_landed (value_descend_landed h hleaf hcount)
  · exact visited_find_getElem? h hcount
  · exact value_cursorFrom_landed (value_descend_landed h hleaf hcount)

/-! ## A forest at the limit -/

/-- Every page can be read. Those below `limit` are branches that lead to the page behind them, the
others are leaves. -/
def descending (limit : PageNumber) : Forest where
  source :=
    { pageSize := 72
      pageCount := limit + 1
      page := fun number =>
        .ok (if number < limit then PageImage.branch 72 [([], number + 1)]
          else PageImage.leaf 72 0 [[0x61]]).bytes }
  format := .standard

variable {limit number : PageNumber}

theorem node_of_page {data : Bytes} (h : forest.source.page number = .ok data) :
    forest.node number = Node.ofBytes number data forest.format := by
  rw [node, h]
  rfl

theorem node_descending_leaf (h : ¬ number < limit) :
    (descending limit).node number =
      .ok ⟨number, false, 0, 0, .leaf [sampleValue 0x61 number 40 1]⟩ := by
  have hbytes : Node.ofBytes number (PageImage.leaf 72 0 [[0x61]]).bytes .standard =
      .ok ⟨number, false, 0, 0, .leaf [sampleValue 0x61 number 40 1]⟩ := by cbv
  have hpage : (descending limit).source.page number = .ok (PageImage.leaf 72 0 [[0x61]]).bytes := by
    simp only [descending, if_neg h]
  rw [node_of_page hpage, descending, hbytes]

theorem node_descending_branch (h : number < limit) :
    (descending limit).node number =
      .ok ⟨number, false, 0, 0, .branch
        [⟨⟨⟨[]⟩, leBytes 4 (number + 1).toNat, ⟨number, 40, 1, 2⟩⟩, number + 1⟩]⟩ := by
  have hbytes (child : PageNumber) :
      Node.ofBytes number (PageImage.branch 72 [([], child)]).bytes .standard =
        .ok ⟨number, false, 0, 0, .branch [⟨⟨⟨[]⟩, leBytes 4 child.toNat, ⟨number, 40, 1, 2⟩⟩,
          .ofNat (littleEndian (leBytes 4 child.toNat))⟩]⟩ := by
    -- Which four bytes they are is of no account to the layout.
    obtain ⟨a, b, c, d, hdata⟩ : ∃ a b c d, leBytes 4 child.toNat = [a, b, c, d] :=
      ⟨_, _, _, _, rfl⟩
    simp only [PageImage.branch, List.map_cons, List.map_nil, hdata]
    cbv
  have hchild : littleEndian (leBytes 4 (number + 1).toNat) = (number + 1).toNat :=
    littleEndian_leBytes 4 _ (number + 1).toNat_lt
  have hpage : (descending limit).source.page number =
      .ok (PageImage.branch 72 [([], number + 1)]).bytes := by
    simp only [descending, if_pos h]
  rw [node_of_page hpage, descending, hbytes, hchild, UInt32.ofNat_toNat]

theorem childOf_descending
    (hchoose : ∀ entry : BranchEntry, entry.key.bytes = [] → choose [entry] = some entry)
    (h : number < limit) : (descending limit).childOf choose number = some (number + 1) :=
  childOf_eq_some_iff.mpr ⟨_, _, ⟨_, node_descending_branch h, rfl⟩, hchoose _ rfl, rfl⟩

theorem trail_descending
    (hchoose : ∀ entry : BranchEntry, entry.key.bytes = [] → choose [entry] = some entry)
    (hcount : count < limit.toNat) :
    trail ((descending limit).childOf choose) 1 count = some (.ofNat (count + 1)) := by
  induction count with
  | zero => rfl
  | succ count ih =>
    have hlt : UInt32.ofNat (count + 1) < limit := by
      rw [UInt32.lt_iff_toNat_lt, UInt32.toNat_ofNat_of_lt' (Nat.lt_trans hcount limit.toNat_lt)]
      exact hcount
    rw [trail_succ, ih (Nat.lt_of_succ_lt hcount), Option.bind_some, childOf_descending hchoose hlt,
      UInt32.ofNat_add (count + 1) 1]
    rfl

/-- With 64 levels the leaf is reached, with one more it is too deep. -/
theorem descents_share_limit_sample :
    let leaf : Node := ⟨64, false, 0, 0, .leaf [sampleValue 0x61 64 40 1]⟩
    ((descending 64).seek 1 ⟨[0x61]⟩).value = .ok (inLeaf (some ⟨[0x61]⟩) leaf 65) ∧
      ((descending 64).leaves 1).value = .ok (inLeaf none leaf 65) ∧
      ((descending 64).find 1 ⟨[0x61]⟩ .forward).visited[63]? = some 64 ∧
      ((descending 65).seek 1 ⟨[0x61]⟩).value = .error (.tree 1 (.tooDeep maxDepth)) ∧
      ((descending 65).leaves 1).value = .error (.tree 1 (.tooDeep maxDepth)) ∧
      ((descending 65).find 1 ⟨[0x61]⟩ .forward).value = .error (.tree 64 (.tooDeep maxDepth)) := by
  intro leaf
  have hplain (limit number other : PageNumber) :
      (descending limit).node number ≠ .error (.tree other (.tooDeep maxDepth)) := by
    intro hnode
    by_cases h : number < limit
    · rw [node_descending_branch h] at hnode
      cases hnode
    · rw [node_descending_leaf h] at hnode
      cases hnode
  have hfirst (entry : BranchEntry) (_ : entry.key.bytes = []) : [entry].head? = some entry := rfl
  have hcovering (entry : BranchEntry) (h : entry.key.bytes = []) :
      covering ⟨[0x61]⟩ [entry] = some entry := by
    simp only [covering, List.find?_singleton, KeyOrder.covers_iff.mpr (.inl h), if_true]
  obtain ⟨-, -, -, hlanded⟩ := descents_share_limit (hplain 64) 1 ⟨[0x61]⟩
  obtain ⟨hseek, hleaves, hfind, -⟩ := descents_share_limit (hplain 65) 1 ⟨[0x61]⟩
  have hleaf : (descending 64).LeafAt leaf := ⟨node_descending_leaf (by decide), _, rfl⟩
  obtain ⟨hseekLanded, hleavesLanded⟩ := hlanded leaf 63 hleaf (by decide)
  obtain ⟨hseekOk, hvisited⟩ := hseekLanded (trail_descending hcovering (by decide))
  obtain ⟨page, hpage, hfindError⟩ := hfind _ (trail_descending hcovering (by decide))
  obtain rfl : 64 = page := Option.some.inj ((trail_descending hcovering (by decide)).symm.trans hpage)
  exact ⟨hseekOk, hleavesLanded (trail_descending hfirst (by decide)), hvisited,
    (hseek 1).mpr ⟨rfl, _, trail_descending hcovering (by decide)⟩,
    (hleaves 1).mpr ⟨rfl, _, trail_descending hfirst (by decide)⟩, hfindError⟩

end Forest

end EseReader
