import EseReader.Proofs.Tree.Ordered
import EseReader.Tree.Find

/-!
# `EseReader/Proofs/Tree/Lookup.lean` — a search finds what the tree contains

`Forest.find` keeps a path of positions and takes one step at a time; the tree it walks over is
nowhere in its state. The bridge is a statement about **a subtree in front of an arbitrary rest of
the path** (`Settled`): searching on from the root of the subtree either ends with the first value
of the subtree under the target, or ends with nothing because a value of the subtree is behind the
target, or comes back to the rest of the path, and then the subtree has nothing under the target.

Nothing has to be assumed about the rest of the path. What a separator *equal* to the target means
is decided inside the branch that holds it: the search comes back to the position behind the
separator, and the induction over the entries of the branch goes on there.
-/

set_option autoImplicit false

namespace EseReader

namespace Find

variable {order : KeyOrder} {target : Key} {page : PageNumber} {above : List Position}
  {values : List LeafValue} {before later : List BranchEntry} {entry : BranchEntry}

/-! ## The steps of a search -/

theorem step_leaf_exhausted (h : ∀ value ∈ values, order.Lt value.key target) :
    step order target ⟨page, 0⟩ above (.leaf values) = .ok (.searching above) := by
  have hnone : values.find? (order.compare ·.key target != .lt) = none := by
    rw [List.find?_eq_none]
    intro value hvalue
    rw [show order.compare value.key target = .lt from h value hvalue]
    decide
  simp only [step, List.drop_zero, hnone]

theorem step_leaf_decided {early late : List LeafValue} {value : LeafValue}
    (hearly : ∀ value ∈ early, order.Lt value.key target) (hvalue : order.Le target value.key) :
    step order target ⟨page, 0⟩ above (.leaf (early ++ value :: late)) =
      .ok (if value.key = target then .found value else .missing) := by
  have hfirst : (early ++ value :: late).find? (order.compare ·.key target != .lt) = some value := by
    refine List.find?_eq_some_iff_append.mpr ⟨?_, early, late, rfl, fun other hother => ?_⟩
    · exact bne_iff_ne.mpr (KeyOrder.not_lt.mpr hvalue)
    · rw [show order.compare other.key target = .lt from hearly other hother]
      decide
  simp only [step, List.drop_zero, hfirst, KeyOrder.compare_eq_iff]
  split <;> rfl

theorem step_branch_exhausted {entries : List BranchEntry} :
    step order target ⟨page, entries.length⟩ above (.branch entries) = .ok (.searching above) := by
  simp only [step, List.drop_length, List.zipIdx_nil, List.find?_nil]

theorem step_branch_passed (h : order.covers entry.key target = false) :
    step order target ⟨page, before.length⟩ above (.branch (before ++ entry :: later)) =
      step order target ⟨page, before.length + 1⟩ above (.branch (before ++ entry :: later)) := by
  have hdrop : (before ++ entry :: later).drop (before.length + 1) = later := by
    rw [List.drop_append, List.drop_eq_nil_of_le (Nat.le_succ _), Nat.add_sub_cancel_left,
      List.nil_append, List.drop_one, List.tail_cons]
  simp only [step, List.drop_left, hdrop, List.zipIdx_cons, List.find?_cons, h]

theorem step_branch_covered (h : order.covers entry.key target = true)
    (hdepth : above.length + 2 ≤ Forest.maxDepth) :
    step order target ⟨page, before.length⟩ above (.branch (before ++ entry :: later)) =
      .ok (.searching (⟨entry.child, 0⟩ ::
        ⟨page, resumption order target entry.key before.length (before ++ entry :: later).length⟩ ::
        above)) := by
  simp only [step, List.drop_left, List.zipIdx_cons, List.find?_cons, h, Nat.not_lt.mpr hdepth,
    if_false]

/-- After an entry without a key, or with one behind the target, a branch is done. -/
theorem resumption_of_done {key : Key} {index count : Nat}
    (h : key.bytes = [] ∨ order.Lt target key) : resumption order target key index count = count := by
  rcases h with h | h
  · simp only [resumption, h, List.isEmpty_nil, Bool.true_or, if_true]
  · simp only [resumption, show order.compare target key = .lt from h, BEq.rfl, Bool.or_true, if_true]

/-- After an entry whose key is the target, the next entry is tried. -/
theorem resumption_of_eq {index count : Nat} (h : target.bytes ≠ []) :
    resumption order target target index count = index + 1 := by
  have hkey : target.bytes.isEmpty = false := List.isEmpty_eq_false_iff.mpr h
  have hcompare : (order.compare target target == .lt) = false := by
    rw [KeyOrder.compare_eq_iff.mpr rfl]
    rfl
  simp only [resumption, hkey, hcompare, Bool.or_self, Bool.false_eq_true, if_false]

end Find

namespace Forest

variable {forest : Forest} {order : KeyOrder} {target : Key} {page : PageNumber} {levels : Nat}
  {here : Position} {above path : List Position} {node : Node}

/-! ## A search and its first step -/

theorem search_cons (hnode : forest.node here.page = .ok node) :
    forest.search order target (here :: above) =
      match Find.step order target here above node.body with
      | .error e => .visit here.page (.error e)
      | .ok (.found value) => .visit here.page (.ok (some value))
      | .ok .missing => .visit here.page (.ok none)
      | .ok (.searching path) => (forest.search order target path).after here.page := by
  rw [search]
  split
  case h_1 e h =>
    rw [hnode] at h
    cases h
  case h_2 node' h =>
    rw [hnode] at h
    cases h
    split <;> rename_i hstep <;> rw [hstep]

theorem value_search_searching (hnode : forest.node here.page = .ok node)
    (hstep : Find.step order target here above node.body = .ok (.searching path)) :
    (forest.search order target (here :: above)).value = (forest.search order target path).value := by
  rw [search_cons hnode, hstep]
  rfl

/-- Positions from which the step is the same lead to the same result. -/
theorem value_search_congr {there : Position} (hpage : there.page = here.page)
    (hnode : forest.node here.page = .ok node)
    (hstep : Find.step order target here above node.body =
      Find.step order target there above node.body) :
    (forest.search order target (here :: above)).value =
      (forest.search order target (there :: above)).value := by
  rw [search_cons hnode, search_cons (hpage ▸ hnode), hstep, hpage]

/-! ## Searching a subtree -/

/-- How the `outcome` of a search that starts in front of `values` is related to them, where
`onward` is the outcome of searching the rest of the path. -/
inductive Settled (order : KeyOrder) (target : Key) (values : List LeafValue)
    (outcome onward : Except Error (Option LeafValue)) : Prop where
  | found {value : LeafValue} (hfirst : values.find? (·.key == target) = some value)
      (houtcome : outcome = .ok (some value))
  | passed {value : LeafValue} (hvalue : value ∈ values) (hbehind : order.Lt target value.key)
      (hnone : ∀ value ∈ values, value.key ≠ target) (houtcome : outcome = .ok none)
  | exhausted (hnone : ∀ value ∈ values, value.key ≠ target) (houtcome : outcome = onward)

namespace Settled

variable {values first rest : List LeafValue} {outcome onward between : Except Error (Option LeafValue)}

theorem find?_eq_none (h : ∀ value ∈ values, value.key ≠ target) :
    values.find? (·.key == target) = none :=
  List.find?_eq_none.mpr fun value hvalue => by simpa using h value hvalue

/-- With nothing behind the subtree, a search that is settled finds the first value under the
target, or nothing. -/
theorem outcome_eq (h : Settled order target values outcome (.ok none)) :
    outcome = .ok (values.find? (·.key == target)) := by
  cases h with
  | found hfirst houtcome => rw [hfirst, houtcome]
  | passed _ _ hnone houtcome => rw [find?_eq_none hnone, houtcome]
  | exhausted hnone houtcome => rw [find?_eq_none hnone, houtcome]

theorem append_left (hfirst : ∀ value ∈ first, value.key ≠ target)
    (h : Settled order target rest outcome onward) :
    Settled order target (first ++ rest) outcome onward := by
  have hnone (hrest : ∀ value ∈ rest, value.key ≠ target) :
      ∀ value ∈ first ++ rest, value.key ≠ target := fun value hvalue =>
    (List.mem_append.mp hvalue).elim (hfirst value) (hrest value)
  cases h with
  | found hfind houtcome =>
    exact .found (by rw [List.find?_append, find?_eq_none hfirst, hfind]; rfl) houtcome
  | passed hvalue hbehind hrest houtcome =>
    exact .passed (List.mem_append_right _ hvalue) hbehind (hnone hrest) houtcome
  | exhausted hrest houtcome => exact .exhausted (hnone hrest) houtcome

/-- Two subtrees one after the other: if the first is settled, it decides or the second does. The
values of the second must not be before those of the first, so that a value behind the target in
the first rules out the second. -/
theorem append (hsorted : ∀ value ∈ first, ∀ behind ∈ rest, order.Le value.key behind.key)
    (hfirst : Settled order target first outcome between)
    (hrest : Settled order target rest between onward) :
    Settled order target (first ++ rest) outcome onward := by
  cases hfirst with
  | found hfind houtcome => exact .found (by rw [List.find?_append, hfind]; rfl) houtcome
  | exhausted hnone houtcome => exact append_left hnone (houtcome ▸ hrest)
  | @passed value hvalue hbehind hnone houtcome =>
    refine .passed (List.mem_append_left _ hvalue) hbehind (fun other hother => ?_) houtcome
    rcases List.mem_append.mp hother with hother | hother
    · exact hnone other hother
    · exact (hbehind.trans_le (hsorted value hvalue other hother)).ne.symm

end Settled

theorem settled_leaf {values : List LeafValue} (hnode : forest.node page = .ok node)
    (hbody : node.body = .leaf values) (hsorted : order.Sorted values) :
    Settled order target values (forest.search order target (⟨page, 0⟩ :: above)).value
      (forest.search order target above).value := by
  by_cases hall : ∀ value ∈ values, order.Lt value.key target
  · refine .exhausted (fun value hvalue => (hall value hvalue).ne) ?_
    exact value_search_searching hnode (hbody ▸ Find.step_leaf_exhausted hall)
  -- The first value that is not before the target parts the leaf.
  obtain ⟨value, hfirst⟩ : ∃ value,
      values.find? (fun value => !decide (order.Lt value.key target)) = some value := by
    rw [← Option.isSome_iff_exists, List.find?_isSome]
    simpa using hall
  obtain ⟨hvalue, early, late, rfl, hearly⟩ := List.find?_eq_some_iff_append.mp hfirst
  have hvalue : order.Le target value.key := KeyOrder.not_lt.mp (by simpa using hvalue)
  have hearly : ∀ value ∈ early, order.Lt value.key target := by simpa using hearly
  have hstep : Find.step order target ⟨page, 0⟩ above (.leaf (early ++ value :: late)) = _ :=
    Find.step_leaf_decided hearly hvalue
  have hmem : value ∈ early ++ value :: late := List.mem_append_right _ List.mem_cons_self
  by_cases hkey : value.key = target
  · rw [if_pos hkey] at hstep
    have hfind : (early ++ value :: late).find? (·.key == target) = some value := by
      refine List.find?_eq_some_iff_append.mpr ⟨beq_iff_eq.mpr hkey, early, late, rfl, ?_⟩
      intro other hother
      simpa using (hearly other hother).ne
    refine .found hfind ?_
    rw [search_cons hnode, hbody, hstep]
    rfl
  · rw [if_neg hkey] at hstep
    have hbehind : order.Lt target value.key := hvalue.eq_or_lt.resolve_left (Ne.symm hkey)
    refine .passed hmem hbehind (fun other hother => ?_) ?_
    · rcases List.mem_append.mp hother with hother | hother
      · exact (hearly other hother).ne
      · rcases List.mem_cons.mp hother with rfl | hother
        · exact hkey
        · have hlate := (List.pairwise_cons.mp (List.pairwise_append.mp hsorted).2.1).1 other hother
          exact (hbehind.trans_le hlate).ne.symm
    · rw [search_cons hnode, hbody, hstep]
      rfl

/-- A branch is settled from any of its entries on, if the subtrees below it are. The induction is
on the entries that are left. -/
theorem settled_branch (before : List BranchEntry) {later : List BranchEntry}
    {below : BranchEntry → List LeafValue} (hnode : forest.node page = .ok node)
    (hbody : node.body = .branch (before ++ later))
    (hdepth : later ≠ [] → above.length + 2 ≤ maxDepth) (hparted : order.Parted below later)
    (hsub : ∀ entry ∈ later, ∀ resume,
      Settled order target (below entry)
        (forest.search order target (⟨entry.child, 0⟩ :: ⟨page, resume⟩ :: above)).value
        (forest.search order target (⟨page, resume⟩ :: above)).value) :
    Settled order target (later.flatMap below)
      (forest.search order target (⟨page, before.length⟩ :: above)).value
      (forest.search order target above).value := by
  induction later generalizing before with
  | nil =>
    refine .exhausted (fun _ hvalue => absurd hvalue List.not_mem_nil) ?_
    rw [List.append_nil] at hbody
    exact value_search_searching hnode (hbody ▸ Find.step_branch_exhausted)
  | cons entry later ih =>
    have hnext := ih (before ++ [entry]) (by rw [hbody, List.append_assoc]; rfl)
      (fun _ => hdepth (List.cons_ne_nil _ _)) hparted.tail
      fun other hother => hsub other (List.mem_cons_of_mem _ hother)
    rw [List.length_append, List.length_singleton] at hnext
    rw [List.flatMap_cons]
    cases hcovers : order.covers entry.key target with
    | false =>
      obtain ⟨hkey, hbehind⟩ := KeyOrder.not_covers_iff.mp hcovers
      have hskip : (forest.search order target (⟨page, before.length⟩ :: above)).value =
          (forest.search order target (⟨page, before.length + 1⟩ :: above)).value :=
        value_search_congr rfl hnode (hbody ▸ Find.step_branch_passed hcovers)
      rw [hskip]
      exact hnext.append_left fun value hvalue =>
        ((hparted.le_key List.mem_cons_self hkey hvalue).trans_lt hbehind).ne
    | true =>
      have hstep : Find.step order target ⟨page, before.length⟩ above
          (.branch (before ++ entry :: later)) = _ :=
        Find.step_branch_covered hcovers (hdepth (List.cons_ne_nil _ _))
      rw [value_search_searching hnode (hbody ▸ hstep)]
      refine Settled.append (fun value hvalue behind => hparted.le hvalue)
        (hsub entry List.mem_cons_self _) ?_
      by_cases hequal : entry.key = target ∧ target.bytes ≠ []
      · -- The separator is the target itself: the next child may still hold it.
        rw [hequal.1, Find.resumption_of_eq hequal.2]
        exact hnext
      · -- Otherwise nothing behind the separator has the target as its key.
        have hdone : entry.key.bytes = [] ∨ order.Lt target entry.key := by
          rcases KeyOrder.covers_iff.mp hcovers with hempty | hle
          · exact .inl hempty
          · rcases hle.eq_or_lt with rfl | hlt
            · exact .inl (Decidable.not_not.mp fun hkey => hequal ⟨rfl, hkey⟩)
            · exact .inr hlt
        rw [Find.resumption_of_done hdone]
        refine .exhausted (fun value hvalue => ?_) ?_
        · obtain ⟨hkey, hlow⟩ := hparted.key_le hvalue
          exact ((hdone.resolve_left hkey).trans_le hlow).ne.symm
        · exact value_search_searching hnode (hbody ▸ Find.step_branch_exhausted)

/-- **Every ordered subtree is settled**, wherever on a path it stands, as long as its levels fit
below the path. -/
theorem settled_of_isOrdered (above : List Position) (h : forest.IsOrdered order levels page)
    (hdepth : above.length + levels ≤ maxDepth) :
    Settled order target (forest.valuesBelow levels page)
      (forest.search order target (⟨page, 0⟩ :: above)).value
      (forest.search order target above).value := by
  induction levels generalizing page above with
  | zero => exact absurd h id
  | succ levels ih =>
    obtain ⟨below, node, hlevels, hnode, hkind⟩ := h.cases
    obtain rfl : levels = below := Nat.succ_inj.mp hlevels
    rcases hkind with ⟨values, hbody, hsorted⟩ | ⟨entries, hbody, hparted, hsub⟩
    · rw [valuesBelow_leaf hnode hbody]
      exact settled_leaf hnode hbody hsorted
    · rw [valuesBelow_branch hnode hbody]
      refine settled_branch [] hnode hbody (fun hentries => ?_) hparted fun entry hentry resume => ?_
      · -- A branch with an entry has an ordered tree below it, so at least one more level.
        obtain ⟨entry, hentry⟩ := List.exists_mem_of_ne_nil _ hentries
        obtain ⟨_, _, hlevel, _⟩ := (hsub entry hentry).cases
        omega
      · exact ih _ (hsub entry hentry) (by simp only [List.length_cons]; omega)

theorem value_find {root : PageNumber} (h : forest.IsOrdered order maxDepth root) :
    (forest.find root target order).value =
      .ok ((forest.valuesBelow maxDepth root).find? (·.key == target)) := by
  have hsettled : Settled order target (forest.valuesBelow maxDepth root)
      (forest.find root target order).value (forest.search order target []).value :=
    settled_of_isOrdered [] h (by simp)
  rw [search] at hsettled
  exact hsettled.outcome_eq

/-- **A search is exact.** On an ordered tree it never fails. It finds the first value under the key,
from left to right, and finds nothing exactly if there is none: no separator hides a value, whatever
keys it equals and on however many levels. -/
theorem find_eq_first_value {root : PageNumber} (h : forest.IsOrdered order maxDepth root) :
    (forest.find root target order).value =
        .ok ((forest.valuesBelow maxDepth root).find? (·.key == target)) ∧
      ((forest.find root target order).value = .ok none ↔
        ∀ value ∈ forest.valuesBelow maxDepth root, value.key ≠ target) := by
  refine ⟨value_find h, ?_⟩
  rw [value_find h, Except.ok.injEq, List.find?_eq_none]
  simp only [beq_iff_eq]

/-- The separator of the root and that of its first child are both the key that is looked for; the
value is below the second child of the root. -/
theorem find_eq_first_value_sample :
    (sample [0x64]).IsOrdered .forward maxDepth 4 ∧
      ((sample [0x64]).find 4 ⟨[0x64]⟩ .forward).value = .ok (some (sampleValue 0x64 12 40 1)) :=
  have h : (sample [0x64]).IsOrdered .forward maxDepth 4 := by decide
  ⟨h, (find_eq_first_value h).1.trans (congrArg Except.ok (by decide))⟩

end Forest

end EseReader
