import EseReader.Proofs.Tree.Descent
import EseReader.Proofs.Tree.Lookup

/-!
# `EseReader/Proofs/Tree/Scan.lean` — reading a tree in order

Three traversals of one tree are compared here: the leaves from left to right, which is what the
tree contains; the leftmost descent with the chain behind its leaf; and the descent to a key with
the part of the chain that is not before the key. On a tree whose leaves are chained and whose
branches all end with an open entry they agree (`scan_eq_contents`).

**Seeking needs the open entries and searching does not.** In a branch whose last key is before the
key that is looked for, a search goes back and tries what follows in the branch above; `Forest.seek`
is over, and says nothing. `seek_starts_with_found_iff` tells for every ordered tree when the two
agree.
-/

set_option autoImplicit false

namespace EseReader

namespace LeafCursor

theorem exists_admitted {values : List LeafValue} (key : Key)
    (h : KeyOrder.forward.Sorted values) :
    ∃ early, values = early ++ admitted (some key) values ∧
      (∀ value ∈ early, KeyOrder.forward.Lt value.key key) ∧
      ∀ value ∈ admitted (some key) values, KeyOrder.forward.Le key value.key := by
  induction values with
  | nil => exact ⟨[], rfl, by simp, by simp [admitted]⟩
  | cons value values ih =>
    obtain ⟨hvalue, hvalues⟩ := List.pairwise_cons.mp h
    by_cases hearly : KeyOrder.forward.Lt value.key key
    · obtain ⟨early, hsplit, hearlier, hlate⟩ := ih hvalues
      have hadmitted : admitted (some key) (value :: values) = admitted (some key) values := by
        simp only [admitted]
        exact List.filter_cons_of_neg (by simpa [KeyOrder.Lt] using hearly)
      refine ⟨value :: early, ?_, ?_, hadmitted ▸ hlate⟩
      · rw [hadmitted, List.cons_append, ← hsplit]
      · exact List.forall_mem_cons.mpr ⟨hearly, hearlier⟩
    · -- From the first value on that is not before the key, no value is.
      have hall : ∀ other ∈ value :: values, KeyOrder.forward.Le key other.key := by
        refine List.forall_mem_cons.mpr ⟨KeyOrder.not_lt.mp hearly, fun other hother => ?_⟩
        exact (KeyOrder.not_lt.mp hearly).trans (hvalue other hother)
      have hadmitted : admitted (some key) (value :: values) = value :: values :=
        List.filter_eq_self.mpr fun other hother =>
          bne_iff_ne.mpr (KeyOrder.not_lt.mpr (hall other hother))
      exact ⟨[], hadmitted.symm, by simp, hadmitted.symm ▸ hall⟩

/-- Of sorted values, the first one that is not before a key is the first one under the key, if there
is one under the key at all. -/
theorem head?_admitted {values : List LeafValue} {key : Key} {value : LeafValue}
    (h : KeyOrder.forward.Sorted values) (hfind : values.find? (·.key == key) = some value) :
    (admitted (some key) values).head? = some value := by
  obtain ⟨early, hsplit, hearly, hlate⟩ := exists_admitted key h
  have hnone : early.find? (·.key == key) = none :=
    Forest.Settled.find?_eq_none fun other hother => (hearly other hother).ne
  rw [hsplit, List.find?_append, hnone, Option.none_or] at hfind
  have hsorted : KeyOrder.forward.Sorted (admitted (some key) values) :=
    (List.pairwise_append.mp (hsplit ▸ h)).2.1
  cases hadmitted : admitted (some key) values with
  | nil =>
    rw [hadmitted] at hfind
    cases hfind
  | cons first rest =>
    rw [hadmitted] at hfind hlate hsorted
    rcases (hlate first List.mem_cons_self).eq_or_lt with hkey | hbehind
    · have hfirst : (first.key == key) = true := beq_iff_eq.mpr hkey.symm
      rw [List.find?_cons, hfirst] at hfind
      exact hfind
    · -- A value behind the key would leave no room for one under it.
      have hrest : ∀ other ∈ first :: rest, other.key ≠ key := by
        refine List.forall_mem_cons.mpr ⟨hbehind.ne.symm, fun other hother => ?_⟩
        exact (hbehind.trans_le ((List.pairwise_cons.mp hsorted).1 other hother)).ne.symm
      rw [Forest.Settled.find?_eq_none hrest] at hfind
      cases hfind

end LeafCursor

namespace Forest

variable {forest : Forest} {root : PageNumber} {bound : Option Key} {key : Key}
  {choose : List BranchEntry → Option BranchEntry} {leaf : Node} {before after : List Node}

/-! ## Where a reading starts -/

/-- The entry that `Forest.seek` takes. -/
def covering (key : Key) (entries : List BranchEntry) : Option BranchEntry :=
  entries.find? fun entry => KeyOrder.forward.covers entry.key key

theorem value_cursorFrom_landed
    (h : (forest.descend root choose maxDepth root).value = .ok (some (leaf, leaf.values))) :
    (forest.cursorFrom root bound choose).value =
      .ok (inLeaf bound leaf forest.source.pageCount.toNat) := by
  simp only [cursorFrom, Walk.value_bind, h]
  rfl

theorem value_cursorFrom_stranded (h : (forest.descend root choose maxDepth root).value = .ok none) :
    (forest.cursorFrom root bound choose).value = .ok .ended := by
  simp only [cursorFrom, Walk.value_bind, h]
  rfl

theorem chain_of_leavesBelow (hchained : Chained (forest.leavesBelow maxDepth root))
    (hleaves : forest.leavesBelow maxDepth root = before ++ leaf :: after) :
    forest.Chain leaf.next after := by
  rw [hleaves] at hchained
  refine chain_of_chained (fun other hother => ?_) hchained.of_append
  have hmem : other ∈ forest.leavesBelow maxDepth root := by
    rw [hleaves]
    exact List.mem_append_right _ (List.mem_cons_of_mem _ hother)
  exact node_of_mem_leavesBelow hmem

theorem length_behind_le (hchained : Chained (forest.leavesBelow maxDepth root))
    (hcount : ∀ leaf ∈ forest.leavesBelow maxDepth root, leaf.page < forest.source.pageCount)
    (hleaves : forest.leavesBelow maxDepth root = before ++ leaf :: after) :
    after.length ≤ forest.source.pageCount.toNat := by
  apply (chain_of_leavesBelow hchained hleaves).length_le
  intro other hother
  apply hcount other
  rw [hleaves]
  exact List.mem_append_right _ (List.mem_cons_of_mem _ hother)

theorem allItems_from_leaf (hchained : Chained (forest.leavesBelow maxDepth root))
    (hcount : ∀ leaf ∈ forest.leavesBelow maxDepth root, leaf.page < forest.source.pageCount)
    (hleaves : forest.leavesBelow maxDepth root = before ++ leaf :: after) :
    (forest.allItems (inLeaf bound leaf forest.source.pageCount.toNat)).value =
      (LeafCursor.admitted bound ((leaf :: after).flatMap Node.values)).map .ok :=
  allItems_inLeaf (chain_of_leavesBelow hchained hleaves)
    (length_behind_le hchained hcount hleaves)

theorem valuesBelow_of_leavesBelow (hleaves : forest.leavesBelow maxDepth root = before ++ after) :
    forest.valuesBelow maxDepth root =
      before.flatMap Node.values ++ after.flatMap Node.values := by
  rw [valuesBelow, hleaves, List.flatMap_append]

theorem sorted_behind (hordered : forest.IsOrdered .forward maxDepth root)
    (hleaves : forest.leavesBelow maxDepth root = before ++ after) :
    KeyOrder.forward.Sorted (after.flatMap Node.values) := by
  have hsorted := hordered.sorted
  rw [valuesBelow_of_leavesBelow hleaves] at hsorted
  exact (List.pairwise_append.mp hsorted).2.1

/-- What a seek leaves to its left is before the key. -/
theorem seek_descent (key : Key) (hordered : forest.IsOrdered .forward maxDepth root) :
    Descent forest (fun entry => KeyOrder.forward.covers entry.key key)
      (KeyOrder.forward.Lt · key) root maxDepth root :=
  descend_of_isOrdered root
    (fun _ hpick =>
      have ⟨hkey, hlt⟩ := KeyOrder.not_covers_iff.mp hpick
      ⟨hkey, fun _ hle => hle.trans_lt hlt⟩)
    hordered

theorem leaves_descent (hordered : forest.IsOrdered .forward maxDepth root) :
    Descent forest (fun _ => true) (fun _ => False) root maxDepth root :=
  descend_of_isOrdered root (fun _ hpick => absurd hpick (by decide)) hordered

/-- No descent is stranded where every branch ends with an open entry. -/
theorem not_stranded {pick : BranchEntry → Bool} {entries : List BranchEntry}
    (hopen : ∀ entries ∈ forest.branchesBelow maxDepth root, EndsOpen entries)
    (hpick : ∀ entry : BranchEntry, entry.key.bytes = [] → pick entry = true)
    (hbranch : entries ∈ forest.branchesBelow maxDepth root) :
    ¬ ∀ entry ∈ entries, pick entry = false := by
  intro hnone
  obtain ⟨entry, hentry, hkey⟩ := (hopen entries hbranch).exists_open
  exact Bool.false_ne_true ((hnone entry hentry).symm.trans (hpick entry hkey))

theorem allItems_leaves (hordered : forest.IsOrdered .forward maxDepth root)
    (hopen : ∀ entries ∈ forest.branchesBelow maxDepth root, EndsOpen entries)
    (hchained : Chained (forest.leavesBelow maxDepth root))
    (hcount : ∀ leaf ∈ forest.leavesBelow maxDepth root, leaf.page < forest.source.pageCount) :
    ∃ cursor, (forest.leaves root).value = .ok cursor ∧
      (forest.allItems cursor).value = (forest.valuesBelow maxDepth root).map .ok := by
  have hhead : (List.head? : List BranchEntry → _) = (·.find? fun _ => true) := by
    funext entries
    cases entries <;> rfl
  cases leaves_descent hordered with
  | stranded hbranch hnone _ => exact absurd hnone (not_stranded hopen (fun _ _ => rfl) hbranch)
  | @landed before after leaf hleaves hbefore _ hdescend =>
    refine ⟨_, value_cursorFrom_landed (hhead ▸ hdescend), ?_⟩
    have hnothing : before.flatMap Node.values = [] :=
      List.eq_nil_iff_forall_not_mem.mpr hbefore
    rw [allItems_from_leaf hchained hcount hleaves, valuesBelow_of_leavesBelow hleaves, hnothing]
    rfl

theorem values_leaves (hordered : forest.IsOrdered .forward maxDepth root)
    (hopen : ∀ entries ∈ forest.branchesBelow maxDepth root, EndsOpen entries)
    (hchained : Chained (forest.leavesBelow maxDepth root))
    (hcount : ∀ leaf ∈ forest.leavesBelow maxDepth root, leaf.page < forest.source.pageCount) :
    ∃ cursor, (forest.leaves root).value = .ok cursor ∧
      (forest.values cursor).value = .ok (forest.valuesBelow maxDepth root) := by
  obtain ⟨cursor, hcursor, hitems⟩ := allItems_leaves hordered hopen hchained hcount
  exact ⟨cursor, hcursor, value_values hitems⟩

theorem allItems_seek (hordered : forest.IsOrdered .forward maxDepth root)
    (hopen : ∀ entries ∈ forest.branchesBelow maxDepth root, EndsOpen entries)
    (hchained : Chained (forest.leavesBelow maxDepth root))
    (hcount : ∀ leaf ∈ forest.leavesBelow maxDepth root, leaf.page < forest.source.pageCount)
    (key : Key) :
    ∃ cursor early late, (forest.seek root key).value = .ok cursor ∧
      forest.valuesBelow maxDepth root = early ++ late ∧
      (∀ value ∈ early, KeyOrder.forward.Lt value.key key) ∧
      (∀ value ∈ late, KeyOrder.forward.Le key value.key) ∧
      (forest.allItems cursor).value = late.map .ok := by
  cases seek_descent key hordered with
  | stranded hbranch hnone _ =>
    -- An open entry covers every key.
    have hcovers : ∀ entry : BranchEntry, entry.key.bytes = [] →
        KeyOrder.forward.covers entry.key key = true :=
      fun _ hkey => KeyOrder.covers_iff.mpr (.inl hkey)
    exact absurd hnone (not_stranded hopen hcovers hbranch)
  | @landed before after leaf hleaves hbefore _ hdescend =>
    obtain ⟨early, hsplit, hearly, hlate⟩ :=
      LeafCursor.exists_admitted key (sorted_behind hordered hleaves)
    refine ⟨_, before.flatMap Node.values ++ early, _, value_cursorFrom_landed hdescend, ?_, ?_,
      hlate, allItems_from_leaf hchained hcount hleaves⟩
    · rw [valuesBelow_of_leavesBelow hleaves, List.append_assoc, ← hsplit]
    · intro value hvalue
      rcases List.mem_append.mp hvalue with hvalue | hvalue
      · exact hbefore value hvalue
      · exact hearly value hvalue

theorem values_seek (hordered : forest.IsOrdered .forward maxDepth root)
    (hopen : ∀ entries ∈ forest.branchesBelow maxDepth root, EndsOpen entries)
    (hchained : Chained (forest.leavesBelow maxDepth root))
    (hcount : ∀ leaf ∈ forest.leavesBelow maxDepth root, leaf.page < forest.source.pageCount)
    (key : Key) :
    ∃ cursor early late, (forest.seek root key).value = .ok cursor ∧
      forest.valuesBelow maxDepth root = early ++ late ∧
      (∀ value ∈ early, KeyOrder.forward.Lt value.key key) ∧
      (∀ value ∈ late, KeyOrder.forward.Le key value.key) ∧
      (forest.values cursor).value = .ok late := by
  obtain ⟨cursor, early, late, hcursor, hsplit, hearly, hlate, hitems⟩ :=
    allItems_seek hordered hopen hchained hcount key
  exact ⟨cursor, early, late, hcursor, hsplit, hearly, hlate, value_values hitems⟩

/-- **Readings are complete and in order.** In an ordered tree whose branches end with an open entry
and whose leaves are chained and counted, reading the leaves gives the values of the tree, each once
and from left to right; and seeking a key gives the part of them that is not before the key. -/
theorem scan_eq_contents (hordered : forest.IsOrdered .forward maxDepth root)
    (hopen : ∀ entries ∈ forest.branchesBelow maxDepth root, EndsOpen entries)
    (hchained : Chained (forest.leavesBelow maxDepth root))
    (hcount : ∀ leaf ∈ forest.leavesBelow maxDepth root, leaf.page < forest.source.pageCount) :
    (∃ cursor, (forest.leaves root).value = .ok cursor ∧
      (forest.values cursor).value = .ok (forest.valuesBelow maxDepth root)) ∧
    ∀ key, ∃ cursor early late, (forest.seek root key).value = .ok cursor ∧
      forest.valuesBelow maxDepth root = early ++ late ∧
      (∀ value ∈ early, KeyOrder.forward.Lt value.key key) ∧
      (∀ value ∈ late, KeyOrder.forward.Le key value.key) ∧
      (forest.values cursor).value = .ok late := by
  constructor
  · exact values_leaves hordered hopen hchained hcount
  · intro key
    exact values_seek hordered hopen hchained hcount key

/-- A tree with an empty leaf in the middle, read from its first value on and from any other. -/
theorem scan_eq_contents_sample :
    (sample []).IsOrdered .forward maxDepth 4 ∧
      (∀ entries ∈ (sample []).branchesBelow maxDepth 4, EndsOpen entries) ∧
      Chained ((sample []).leavesBelow maxDepth 4) ∧
      (∀ leaf ∈ (sample []).leavesBelow maxDepth 4, leaf.page < (sample []).source.pageCount) ∧
      (∃ cursor, ((sample []).leaves 4).value = .ok cursor ∧
        ((sample []).values cursor).value =
          .ok [sampleValue 0x61 10 40 1, sampleValue 0x62 10 44 2,
            sampleValue 0x64 12 40 1, sampleValue 0x65 12 44 2]) ∧
      ∃ cursor late, ((sample []).seek 4 ⟨[0x63]⟩).value = .ok cursor ∧
        (∀ value ∈ late, KeyOrder.forward.Le ⟨[0x63]⟩ value.key) ∧
        ((sample []).values cursor).value = .ok late := by
  have hordered : (sample []).IsOrdered .forward maxDepth 4 := by decide
  have hopen : ∀ entries ∈ (sample []).branchesBelow maxDepth 4, EndsOpen entries := by decide
  have hchained : Chained ((sample []).leavesBelow maxDepth 4) := by decide
  have hcount : ∀ leaf ∈ (sample []).leavesBelow maxDepth 4,
      leaf.page < (sample []).source.pageCount := by decide
  obtain ⟨⟨first, hleaves, hvalues⟩, hseek⟩ := scan_eq_contents hordered hopen hchained hcount
  obtain ⟨cursor, _, late, hcursor, _, _, hlate, hrest⟩ := hseek ⟨[0x63]⟩
  refine ⟨hordered, hopen, hchained, hcount, ⟨first, hleaves, hvalues.trans ?_⟩,
    cursor, late, hcursor, hlate, hrest⟩
  exact congrArg Except.ok (by decide)

/-! ## Seeking against searching -/

/-- **When a seek starts with what a search finds.** On an ordered tree with chained leaves the seek
never fails. It starts with the value that the search found exactly if its descent arrives at a leaf
and the source counts as many pages as leaves without a value to give stand in between. On a source
that counts its leaves only the descent matters; and where that arrives nowhere, the seek gives
nothing at all, although the value is there. -/
theorem seek_starts_with_found_iff {value : LeafValue}
    (hordered : forest.IsOrdered .forward maxDepth root)
    (hchained : Chained (forest.leavesBelow maxDepth root))
    (hfound : (forest.find root key .forward).value = .ok (some value)) :
    ∃ cursor, (forest.seek root key).value = .ok cursor ∧
      ((forest.next cursor).value.1 = some (.ok value) ↔
        ∃ before leaf after, forest.leavesBelow maxDepth root = before ++ leaf :: after ∧
          forest.Reaches (covering key) root leaf ∧
          (LeafCursor.passed (some key) (leaf :: after)).length ≤ forest.source.pageCount.toNat) ∧
      ((∀ leaf ∈ forest.leavesBelow maxDepth root, leaf.page < forest.source.pageCount) →
        ((forest.next cursor).value.1 = some (.ok value) ↔
          ∃ leaf, forest.Reaches (covering key) root leaf)) ∧
      ((¬ ∃ leaf, forest.Reaches (covering key) root leaf) → cursor = .ended) := by
  cases seek_descent key hordered with
  | stranded hbranch hnone hdescend =>
    have hnowhere (leaf : Node) : ¬ forest.Reaches (covering key) root leaf :=
      fun hreaches => hreaches.value_descend_ne hdescend
    have hnothing : (forest.next .ended).value.1 ≠ some (.ok value) := fun h => by cases h
    refine ⟨.ended, value_cursorFrom_stranded hdescend, ?_, fun _ => ?_, fun _ => rfl⟩
    · exact iff_of_false hnothing fun ⟨_, leaf, _, _, hreaches, _⟩ => hnowhere leaf hreaches
    · exact iff_of_false hnothing fun ⟨leaf, hreaches⟩ => hnowhere leaf hreaches
  | @landed before after leaf hleaves hbefore hreaches hdescend =>
    have hchain := chain_of_leavesBelow hchained hleaves
    rw [value_find hordered, valuesBelow_of_leavesBelow hleaves, Except.ok.injEq, List.find?_append,
      Settled.find?_eq_none fun value hvalue => (hbefore value hvalue).ne, Option.none_or] at hfound
    have hfirst := LeafCursor.head?_admitted (sorted_behind hordered hleaves) hfound
    have hstart := first_inLeaf forest.source.pageCount.toNat hchain hfirst
    refine ⟨_, value_cursorFrom_landed hdescend, hstart.trans ⟨fun hle => ?_, ?_⟩, fun hcount => ?_, ?_⟩
    · exact ⟨before, leaf, after, hleaves, hreaches, hle⟩
    · -- The leaf that the descent arrives at is this one, and so are those behind it.
      rintro ⟨before', leaf', after', hleaves', hreaches', hle⟩
      obtain rfl := hreaches.unique hreaches'
      rwa [hchain.unique (chain_of_leavesBelow hchained hleaves')]
    · refine hstart.trans ⟨fun _ => ⟨leaf, hreaches⟩, fun _ => ?_⟩
      have hlater := length_behind_le hchained hcount hleaves
      exact Nat.le_trans (Nat.le_of_lt_succ (LeafCursor.length_passed_lt hfirst)) hlater
    · exact fun hnowhere => absurd ⟨leaf, hreaches⟩ hnowhere

/-- The first child of the root ends with the key that is looked for, and the last key below that
child is smaller: the search finds the value below the second child, the seek gives nothing. -/
theorem seek_starts_with_found_iff_sample :
    (sample [0x63]).IsOrdered .forward maxDepth 4 ∧
      Chained ((sample [0x63]).leavesBelow maxDepth 4) ∧
      ((sample [0x63]).find 4 ⟨[0x64]⟩ .forward).value = .ok (some (sampleValue 0x64 12 40 1)) ∧
      ((sample [0x63]).seek 4 ⟨[0x64]⟩).value = .ok .ended := by
  have hordered : (sample [0x63]).IsOrdered .forward maxDepth 4 := by decide
  have hchained : Chained ((sample [0x63]).leavesBelow maxDepth 4) := by decide
  have hfound : ((sample [0x63]).find 4 ⟨[0x64]⟩ .forward).value =
      .ok (some (sampleValue 0x64 12 40 1)) :=
    (value_find hordered).trans (congrArg Except.ok (by decide))
  have hdescend : ((sample [0x63]).descend 4 (covering ⟨[0x64]⟩) maxDepth 4).value = .ok none := by
    rfl
  obtain ⟨cursor, hseek, _, _, hnowhere⟩ := seek_starts_with_found_iff hordered hchained hfound
  rw [hnowhere fun ⟨leaf, hreaches⟩ => hreaches.value_descend_ne hdescend] at hseek
  exact ⟨hordered, hchained, hfound, hseek⟩

end Forest

end EseReader
