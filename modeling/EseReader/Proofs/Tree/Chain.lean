import EseReader.Proofs.Tree.Ordered
import EseReader.Tree.Leaves

/-!
# `EseReader/Proofs/Tree/Chain.lean` — reading along the chain of leaves

A reading is known by what `Forest.next` answers, one item after the other. `allItems` is the list
of these answers, and everything that takes the items of a reading one by one is a function of that
list (`value_fold`): what is proved of `allItems` holds of every way to consume a reading.

The other half is the chain. `Chain next leaves` says that the links lead from `next` over exactly
these leaves to the end, whatever tree they belong to. A reading that stands in a leaf in front of
a chain gives the admitted values of that leaf and of the chain (`allItems_inLeaf`), provided that
the source counts enough pages for the leaves that are still to be entered; how far it comes if it
does not is `first_inLeaf`.

Links lead by page number, and a page number stands for one page, so **a chain that ends visits no
page twice** (`Chain.nodup_pages`). A source that counts all its pages therefore always counts
enough.
-/

set_option autoImplicit false

namespace EseReader

/-! ## The items of a reading -/

namespace Flow

variable {β : Type}

/-- Takes the items of a list into `state`, until there are no more or `take` has enough. -/
def consume (take : β → Except Error LeafValue → Flow β) : β → List (Except Error LeafValue) → β
  | state, [] => state
  | state, item :: items =>
    match take state item with
    | .enough state => state
    | .more state => consume take state items

theorem consume_map_ok {take : Except Error (Array LeafValue) → Except Error LeafValue →
      Flow (Except Error (Array LeafValue))}
    (htake : ∀ taken value, take (.ok taken) (.ok value) = .more (.ok (taken.push value)))
    (taken : Array LeafValue) (values : List LeafValue) :
    consume take (.ok taken) (values.map .ok) = .ok (taken ++ values.toArray) := by
  induction values generalizing taken with
  | nil => simp [consume]
  | cons value values ih => simp [consume, htake, ih]

theorem consume_take {limit : Nat} {taken : Array (Except Error LeafValue)} (h : taken.size < limit)
    (items : List (Except Error LeafValue)) :
    consume (fun (taken : Array (Except Error LeafValue)) item =>
      let taken := taken.push item
      if limit ≤ taken.size then .enough taken else .more taken) taken items =
        taken ++ (items.take (limit - taken.size)).toArray := by
  induction items generalizing taken with
  | nil => simp [consume]
  | cons item items ih =>
    have hleft : limit - taken.size = limit - (taken.push item).size + 1 := by
      rw [Array.size_push]
      omega
    rw [hleft, List.take_succ_cons, consume]
    by_cases hfull : limit ≤ (taken.push item).size
    · simp only [if_pos hfull, Nat.sub_eq_zero_of_le hfull, List.take_zero]
      simp
    · simp only [if_neg hfull]
      rw [ih (Nat.lt_of_not_le hfull)]
      simp

end Flow

namespace Forest

variable {forest : Forest} {cursor cursor' : LeafCursor} {bound : Option Key}
  {pending : List LeafValue} {page next : PageNumber} {left : Nat}

/-- All the items of a reading, errors included. -/
def allItems (forest : Forest) (cursor : LeafCursor) : Walk (List (Except Error LeafValue)) :=
  match _ : forest.next cursor with
  | ⟨visited, none, _⟩ => ⟨visited, []⟩
  | ⟨visited, some item, cursor⟩ =>
    let walk := forest.allItems cursor
    ⟨visited ++ walk.visited, item :: walk.value⟩
termination_by cursor.remaining
decreasing_by exact remaining_next_lt (congrArg Walk.value ‹_›)

theorem allItems_of_none (h : (forest.next cursor).value = (none, cursor')) :
    (forest.allItems cursor).value = [] := by
  rw [allItems]
  split <;> rename_i hnext
  · rfl
  · rw [hnext] at h
    cases h

theorem allItems_of_some {item : Except Error LeafValue}
    (h : (forest.next cursor).value = (some item, cursor')) :
    (forest.allItems cursor).value = item :: (forest.allItems cursor').value := by
  rw [allItems]
  split <;> rename_i hnext
  · rw [hnext] at h
    cases h
  · rw [hnext] at h
    cases h
    rfl

/-- Readings that go on in the same way have the same items. -/
theorem allItems_congr (h : (forest.next cursor).value = (forest.next cursor').value) :
    (forest.allItems cursor).value = (forest.allItems cursor').value := by
  cases hnext : (forest.next cursor').value with
  | mk item? after =>
    rw [hnext] at h
    cases item? with
    | none => rw [allItems_of_none h, allItems_of_none hnext]
    | some item => rw [allItems_of_some h, allItems_of_some hnext]

/-- **Every way to take the items of a reading takes them from `allItems`.** -/
theorem value_fold {β : Type} (take : β → Except Error LeafValue → Flow β) (state : β)
    (cursor : LeafCursor) :
    (forest.fold take state cursor).value =
      Flow.consume take state (forest.allItems cursor).value := by
  fun_induction fold forest take state cursor with
  | case1 state cursor visited _ hnext =>
    rw [allItems_of_none (congrArg Walk.value hnext), Flow.consume]
  | case2 state cursor visited item after hnext stop htake =>
    rw [allItems_of_some (congrArg Walk.value hnext), Flow.consume, htake]
  | case3 state cursor visited item after hnext more htake _ ih =>
    rw [allItems_of_some (congrArg Walk.value hnext), Flow.consume, htake]
    exact ih

/-- A reading without an error is read to its end by `Forest.values`. -/
theorem value_values {read : List LeafValue} (h : (forest.allItems cursor).value = read.map .ok) :
    (forest.values cursor).value = .ok read := by
  simp only [values, Walk.value_bind, Walk.value_pure, value_fold, h]
  rw [Flow.consume_map_ok fun _ _ => rfl]
  simp [Except.map]

/-- Whoever takes at most `limit` items takes the first ones. -/
theorem value_items (limit : Nat) (cursor : LeafCursor) :
    (forest.items limit cursor).value = (forest.allItems cursor).value.take limit := by
  rw [items]
  split
  case isTrue hnone => rw [hnone, List.take_zero, Walk.value_pure]
  case isFalse hsome =>
    simp only [Walk.value_bind, Walk.value_pure, value_fold]
    rw [Flow.consume_take (Nat.pos_of_ne_zero hsome)]
    simp

/-! ## One leaf -/

theorem allItems_pending :
    (forest.allItems (.reading bound pending page next left)).value =
      pending.map .ok ++ (forest.allItems (.reading bound [] page next left)).value := by
  induction pending with
  | nil => rfl
  | cons value pending ih => rw [allItems_of_some rfl, ih]; rfl

theorem value_next_ended : (forest.next (.reading bound [] page 0 left)).value = (none, .ended) := by
  rw [Forest.next, nextLeaf.eq_def]
  rfl

/-- No leaf is entered that the source has not counted. -/
theorem value_next_endless (hnext : next ≠ 0) :
    (forest.next (.reading bound [] page next 0)).value =
      (some (.error (.tree page .endlessChain)), .ended) := by
  rw [Forest.next, nextLeaf, if_neg hnext]

/-- The reading that has just entered `leaf`, with `left` more leaves to enter. -/
def inLeaf (bound : Option Key) (leaf : Node) (left : Nat) : LeafCursor :=
  .reading bound (LeafCursor.admitted bound leaf.values) leaf.page leaf.next left

/-- A reading at the end of a leaf goes on as if it had just entered the next one. -/
theorem value_next_entered {leaf : Node} {values : List LeafValue} (hnext : next ≠ 0)
    (hnode : forest.node next = .ok leaf) (hbody : leaf.body = .leaf values) :
    (forest.next (.reading bound [] page next (left + 1))).value =
      (forest.next (inLeaf bound leaf left)).value := by
  rw [Forest.next, nextLeaf, if_neg hnext, hnode, inLeaf, page_eq_of_node hnode,
    Node.values_of_leaf hbody]
  simp only [hbody]
  cases LeafCursor.admitted bound values with
  | nil => rfl
  | cons value pending => rfl

end Forest

namespace LeafCursor

@[simp] theorem admitted_append (bound : Option Key) (values more : List LeafValue) :
    admitted bound (values ++ more) = admitted bound values ++ admitted bound more := by
  cases bound with
  | none => rfl
  | some key => exact List.filter_append ..

/-- The leaves at the front of a chain that have no admitted value: a reading passes them before its
first item. -/
def passed (bound : Option Key) (leaves : List Node) : List Node :=
  leaves.takeWhile fun leaf => (admitted bound leaf.values).isEmpty

theorem passed_cons_of_empty {bound : Option Key} {leaf : Node} {leaves : List Node}
    (h : admitted bound leaf.values = []) :
    passed bound (leaf :: leaves) = leaf :: passed bound leaves := by
  rw [passed, List.takeWhile_cons_of_pos (by rw [h]; rfl), passed]

theorem passed_cons_of_ne {bound : Option Key} {leaf : Node} {leaves : List Node}
    (h : admitted bound leaf.values ≠ []) : passed bound (leaf :: leaves) = [] := by
  rw [passed, List.takeWhile_cons_of_neg (by simpa using h)]

theorem length_passed_lt {bound : Option Key} {leaves : List Node} {value : LeafValue}
    (h : (admitted bound (leaves.flatMap Node.values)).head? = some value) :
    (passed bound leaves).length < leaves.length := by
  induction leaves with
  | nil => cases bound <;> cases h
  | cons leaf leaves ih =>
    rw [List.flatMap_cons, admitted_append] at h
    by_cases hempty : admitted bound leaf.values = []
    · rw [hempty, List.nil_append] at h
      rw [passed_cons_of_empty hempty]
      exact Nat.succ_lt_succ (ih h)
    · rw [passed_cons_of_ne hempty]
      exact Nat.succ_pos _

end LeafCursor

/-! ## Chains of leaves -/

/-- The links of `leaves` lead from each one to the next, and the last one leads nowhere. The number
0 in a link is no page. -/
def Chained : (leaves : List Node) → Prop
  | [] => True
  | [last] => last.next = 0
  | leaf :: following :: later =>
    leaf.next = following.page ∧ following.page ≠ 0 ∧ Chained (following :: later)

instance decidableChained : (leaves : List Node) → Decidable (Chained leaves)
  | [] => isTrue trivial
  | [last] => inferInstanceAs (Decidable (last.next = 0))
  | _ :: following :: later =>
    have : Decidable (Chained (following :: later)) := decidableChained (following :: later)
    inferInstanceAs (Decidable (_ ∧ _ ∧ _))

theorem Chained.of_append {before leaves : List Node} (h : Chained (before ++ leaves)) :
    Chained leaves := by
  induction before with
  | nil => exact h
  | cons leaf before ih =>
    cases hrest : before ++ leaves with
    | nil => rw [(List.append_eq_nil_iff.mp hrest).2]; exact trivial
    | cons following later =>
      rw [List.cons_append, hrest] at h
      exact ih (hrest ▸ h.2.2)

namespace Forest

/-- From the page `next` on, the links lead over exactly these leaves. -/
inductive Chain (forest : Forest) : (next : PageNumber) → (leaves : List Node) → Prop where
  | nil : Chain forest 0 []
  | cons {next : PageNumber} {leaf : Node} {values : List LeafValue} {later : List Node}
      (hnext : next ≠ 0) (hnode : forest.node next = .ok leaf) (hbody : leaf.body = .leaf values)
      (hlater : Chain forest leaf.next later) : Chain forest next (leaf :: later)

variable {forest : Forest} {bound : Option Key} {leaf : Node} {later : List Node}
  {levels left : Nat} {page next : PageNumber}

/-- The leaves below a page are leaves, each on the page it names. -/
theorem node_of_mem_leavesBelow (h : leaf ∈ forest.leavesBelow levels page) :
    forest.node leaf.page = .ok leaf ∧ ∃ values, leaf.body = .leaf values := by
  induction levels generalizing page with
  | zero => exact absurd h List.not_mem_nil
  | succ levels ih =>
    cases hnode : forest.node page with
    | error e => simp only [leavesBelow, hnode, List.not_mem_nil] at h
    | ok node =>
      cases hbody : node.body with
      | leaf values =>
        rw [leavesBelow_leaf hnode hbody, List.mem_singleton] at h
        rw [h, page_eq_of_node hnode]
        exact ⟨hnode, values, hbody⟩
      | branch entries =>
        rw [leavesBelow_branch hnode hbody] at h
        obtain ⟨entry, _, h⟩ := List.mem_flatMap.mp h
        exact ih h

theorem chain_of_chained
    (hnodes : ∀ leaf ∈ later, forest.node leaf.page = .ok leaf ∧ ∃ values, leaf.body = .leaf values)
    (h : Chained (leaf :: later)) : forest.Chain leaf.next later := by
  induction later generalizing leaf with
  | nil => rw [show leaf.next = 0 from h]; exact .nil
  | cons following later ih =>
    obtain ⟨hlink, hpage, hrest⟩ := h
    obtain ⟨hnode, values, hbody⟩ := hnodes following List.mem_cons_self
    rw [hlink]
    refine .cons hpage hnode hbody (ih (fun other hother => ?_) hrest)
    exact hnodes other (List.mem_cons_of_mem _ hother)

theorem Chain.unique {leaves : List Node} (h : forest.Chain next later)
    (hleaves : forest.Chain next leaves) : later = leaves := by
  induction h generalizing leaves with
  | nil =>
    cases hleaves with
    | nil => rfl
    | cons hnext _ _ _ => exact absurd rfl hnext
  | cons hnext hnode _ _ ih =>
    cases hleaves with
    | nil => exact absurd rfl hnext
    | cons _ hnode' _ hlater' =>
      obtain rfl := Except.ok.inj (hnode.symm.trans hnode')
      rw [ih hlater']

theorem Chain.of_append {before : List Node} (h : forest.Chain next (before ++ leaf :: later)) :
    forest.Chain leaf.page (leaf :: later) := by
  induction before generalizing next with
  | nil =>
    cases h with
    | cons hnext hnode hbody hlater =>
      rw [page_eq_of_node hnode]
      exact .cons hnext hnode hbody hlater
  | cons _ before ih =>
    cases h with
    | cons _ _ _ hlater => exact ih hlater

/-- **A chain that ends visits no page twice**: from the second visit on it would have to be as long
as from the first. -/
theorem Chain.nodup_pages (h : forest.Chain next later) : (later.map Node.page).Nodup := by
  induction h with
  | nil => exact .nil
  | @cons next leaf values later hnext hnode hbody hlater ih =>
    refine List.nodup_cons.mpr ⟨fun hmem => ?_, ih⟩
    obtain ⟨other, hother, hpage⟩ := List.mem_map.mp hmem
    obtain ⟨before, rest, rfl⟩ := List.append_of_mem hother
    -- The chain from here and the one from the later visit start from the same number.
    have hagain : forest.Chain next (other :: rest) := by
      rw [← page_eq_of_node hnode, ← hpage]
      exact hlater.of_append
    have hlength := congrArg List.length ((Chain.cons hnext hnode hbody hlater).unique hagain)
    simp only [List.length_cons, List.length_append] at hlength
    omega

/-- A source that counts the pages of a chain counts as many pages as the chain has leaves. -/
theorem Chain.length_le {count : UInt32} (h : forest.Chain next later)
    (hcount : ∀ leaf ∈ later, leaf.page < count) : later.length ≤ count.toNat := by
  have hnodup : ((later.map Node.page).map UInt32.toNat).Nodup :=
    List.pairwise_map.mpr (h.nodup_pages.imp fun hne heq => hne (UInt32.toNat_inj.mp heq))
  have hsubset : (later.map Node.page).map UInt32.toNat ⊆ List.range count.toNat := by
    intro number hnumber
    obtain ⟨page, hpage, rfl⟩ := List.mem_map.mp hnumber
    obtain ⟨leaf, hleaf, rfl⟩ := List.mem_map.mp hpage
    exact List.mem_range.mpr (UInt32.lt_iff_toNat_lt.mp (hcount leaf hleaf))
  have hle := hnodup.length_le_of_subset hsubset
  rwa [List.length_map, List.length_map, List.length_range] at hle

/-! ## Reading a chain -/

theorem allItems_chain (hchain : forest.Chain next later) (hleft : later.length ≤ left) :
    (forest.allItems (.reading bound [] page next left)).value =
      (LeafCursor.admitted bound (later.flatMap Node.values)).map .ok := by
  induction hchain generalizing page left with
  | nil =>
    rw [allItems_of_none value_next_ended]
    cases bound <;> rfl
  | @cons next leaf values later hnext hnode hbody _ ih =>
    obtain ⟨rest, rfl⟩ : ∃ rest, left = rest + 1 := ⟨left - 1, by simp at hleft; omega⟩
    rw [allItems_congr (value_next_entered hnext hnode hbody), inLeaf, allItems_pending,
      ih (Nat.le_of_succ_le_succ hleft), List.flatMap_cons, LeafCursor.admitted_append,
      List.map_append]

/-- **A reading in front of a chain gives the admitted values of its leaves**, in their order and
without an error, if the source counts as many pages as there are leaves to enter. -/
theorem allItems_inLeaf (hchain : forest.Chain leaf.next later) (hleft : later.length ≤ left) :
    (forest.allItems (inLeaf bound leaf left)).value =
      (LeafCursor.admitted bound ((leaf :: later).flatMap Node.values)).map .ok := by
  rw [List.flatMap_cons, LeafCursor.admitted_append, List.map_append, inLeaf, allItems_pending,
    allItems_chain hchain hleft]

/-- **The first item of a reading** is the first admitted value of the chain exactly if the source
counts as many pages as leaves have to be passed to get to it. -/
theorem first_inLeaf {value : LeafValue} (left : Nat) (hchain : forest.Chain leaf.next later)
    (hfirst : (LeafCursor.admitted bound ((leaf :: later).flatMap Node.values)).head? = some value) :
    (forest.next (inLeaf bound leaf left)).value.1 = some (.ok value) ↔
      (LeafCursor.passed bound (leaf :: later)).length ≤ left := by
  induction later generalizing leaf left with
  | nil =>
    rw [List.flatMap_singleton] at hfirst
    obtain ⟨pending, hadmitted⟩ := List.head?_eq_some_iff.mp hfirst
    simp [inLeaf, hadmitted, LeafCursor.passed, Forest.next]
  | cons following later ih =>
    rw [List.flatMap_cons, LeafCursor.admitted_append] at hfirst
    cases hadmitted : LeafCursor.admitted bound leaf.values with
    | cons first pending =>
      rw [hadmitted, List.cons_append, List.head?_cons, Option.some.injEq] at hfirst
      rw [LeafCursor.passed_cons_of_ne (by rw [hadmitted]; exact List.cons_ne_nil _ _)]
      simp [inLeaf, hadmitted, Forest.next, hfirst]
    | nil =>
      -- This leaf is passed, so the next one has to be entered.
      rw [hadmitted, List.nil_append] at hfirst
      rw [LeafCursor.passed_cons_of_empty hadmitted, List.length_cons, inLeaf, hadmitted]
      generalize leaf.next = next at hchain
      cases hchain with
      | cons hnext hnode hbody hlater =>
        cases left with
        | zero => simp [value_next_endless hnext]
        | succ left =>
          rw [value_next_entered hnext hnode hbody, ih left hlater hfirst]
          exact Nat.succ_le_succ_iff.symm

end Forest

end EseReader
