import EseReader.Proofs.Tree.Chain
import EseReader.Proofs.Tree.Trail

/-!
# `EseReader/Proofs/Tree/Iteration.lean` — a reading of the leaves on any source

Whoever reads leaves calls for one item after the other, and may go on calling after the last one.
What the calls give is shown here on sources that are not the work of a database: links may lead
anywhere, keys may stand in any order, pages may be missing.

One call is described once (`Outcome`): either the reading is over and has nothing, or an error, in
the place of an item, or it gives a value, with fewer leaves left by as many as it has asked for.
From that it follows for any number of calls that a reading asks for no more pages than the source
counts, that it **ends**, and that **nothing comes after an error**.

The bound on the leaves is there for chains that run in a circle. That it turns down no other chain
is a matter of counting: a reading that has used it up stands on one page more than the source has
pages, so it has seen one of them twice (`recurs_of_trail`).
-/

set_option autoImplicit false

namespace EseReader

namespace LeafCursor

/-- The page that a reading stands on. -/
def page? : LeafCursor → Option PageNumber
  | ended => none
  | reading _ _ page _ _ => some page

/-- The number of leaves that a reading may still ask for. -/
def left : LeafCursor → Nat
  | ended => 0
  | reading _ _ _ _ left => left

@[simp] theorem left_ended : left ended = 0 := rfl

/-- The value is not before the bound, if there is one. -/
def Admits (bound : Option Key) (value : LeafValue) : Prop :=
  ∀ key ∈ bound, KeyOrder.forward.Le key value.key

theorem admits_of_mem_admitted {bound : Option Key} {values : List LeafValue} {value : LeafValue}
    (h : value ∈ admitted bound values) : Admits bound value := by
  intro key hkey
  cases hkey
  have hvalue := (List.mem_filter.mp h).2
  exact KeyOrder.not_lt.mp (bne_iff_ne.mp hvalue)

/-- The values that a reading holds are not before its bound. -/
def Keeps (bound : Option Key) : LeafCursor → Prop
  | ended => True
  | reading bound' pending _ _ _ => bound' = bound ∧ ∀ value ∈ pending, Admits bound value

end LeafCursor

namespace Forest

open LeafCursor

variable {forest : Forest} {bound : Option Key} {choose : List BranchEntry → Option BranchEntry}
  {cursor : LeafCursor} {leaf : Node} {root page next last : PageNumber}
  {levels left count later : Nat}

/-! ## One call -/

/-- What a call can do that has `left` leaves to ask for. -/
inductive Outcome (bound : Option Key) (left : Nat) :
    Walk (Option (Except Error LeafValue) × LeafCursor) → Prop where
  | finished {visited : List PageNumber} {item : Option (Except Error LeafValue)}
      (hitem : ∀ value, item ≠ some (.ok value)) (hvisited : visited.length ≤ left) :
      Outcome bound left ⟨visited, (item, .ended)⟩
  | given {visited : List PageNumber} {value : LeafValue} {cursor : LeafCursor}
      (hvalue : Admits bound value) (hkeeps : cursor.Keeps bound)
      (hvisited : visited.length + cursor.left ≤ left) :
      Outcome bound left ⟨visited, (some (.ok value), cursor)⟩

theorem Outcome.after {walk : Walk (Option (Except Error LeafValue) × LeafCursor)}
    (h : Outcome bound left walk) (page : PageNumber) :
    Outcome bound (left + 1) (walk.after page) := by
  cases h with
  | finished hitem hvisited => exact .finished hitem (Nat.succ_le_succ hvisited)
  | given hvalue hkeeps hvisited =>
    refine .given hvalue hkeeps ?_
    simp only [List.length_cons]
    omega

theorem outcome_nextLeaf (bound : Option Key) (left : Nat) (page next : PageNumber) :
    Outcome bound left (forest.nextLeaf bound left page next) := by
  induction left generalizing page next with
  | zero =>
    rw [nextLeaf]
    split
    · exact .finished (fun _ h => by cases h) (Nat.le_refl _)
    · exact .finished (fun _ h => by cases h) (Nat.le_refl _)
  | succ left ih =>
    have hone : 1 ≤ left + 1 := Nat.le_add_left 1 left
    rw [nextLeaf]
    split
    · exact .finished (fun _ h => by cases h) (Nat.zero_le _)
    · split
      · exact .finished (fun _ h => by cases h) hone
      · split
        · exact .finished (fun _ h => by cases h) hone
        · split
          · exact (ih _ _).after next
          case h_2 node _ _ values _ value pending hadmitted =>
            have hall (other : LeafValue) (hother : other ∈ value :: pending) : Admits bound other :=
              admits_of_mem_admitted (hadmitted ▸ hother)
            refine .given (hall value List.mem_cons_self)
              ⟨rfl, fun other hother => hall other (List.mem_cons_of_mem _ hother)⟩ ?_
            exact Nat.le_of_eq (Nat.add_comm 1 left)

theorem outcome_next (forest : Forest) (h : cursor.Keeps bound) :
    Outcome bound cursor.left (forest.next cursor) := by
  match cursor with
  | .ended => exact .finished (fun _ h => by cases h) (Nat.le_refl _)
  | .reading _ [] page next left =>
    obtain ⟨rfl, -⟩ := h
    exact outcome_nextLeaf _ left page next
  | .reading _ (value :: pending) page next left =>
    obtain ⟨rfl, hpending⟩ := h
    exact .given (hpending value List.mem_cons_self)
      ⟨rfl, fun other hother => hpending other (List.mem_cons_of_mem _ hother)⟩
      (Nat.le_of_eq (Nat.zero_add left))

/-! ## Any number of calls -/

/-- Where a reading stands after `count` calls. -/
def stateAfter (forest : Forest) (cursor : LeafCursor) (count : Nat) : LeafCursor :=
  (fun cursor => (forest.next cursor).value.2)^[count] cursor

/-- What the call answers that comes after `count` others. -/
def answer (forest : Forest) (cursor : LeafCursor) (count : Nat) :
    Option (Except Error LeafValue) :=
  (forest.next (forest.stateAfter cursor count)).value.1

/-- The pages that the first `count` calls ask for. -/
def requested (forest : Forest) (cursor : LeafCursor) : (count : Nat) → List PageNumber
  | 0 => []
  | count + 1 =>
    forest.requested cursor count ++ (forest.next (forest.stateAfter cursor count)).visited

theorem stateAfter_succ (cursor : LeafCursor) (count : Nat) :
    forest.stateAfter cursor (count + 1) =
      (forest.next (forest.stateAfter cursor count)).value.2 :=
  Function.iterate_succ_apply' _ _ _

theorem keeps_stateAfter (forest : Forest) (h : cursor.Keeps bound) (count : Nat) :
    (forest.stateAfter cursor count).Keeps bound := by
  induction count with
  | zero => exact h
  | succ count ih =>
    rw [stateAfter_succ]
    have houtcome := outcome_next forest ih
    generalize forest.next (forest.stateAfter cursor count) = walk at houtcome
    cases houtcome with
    | finished => trivial
    | given _ hkeeps _ => exact hkeeps

theorem length_requested_add_left_le (forest : Forest) (h : cursor.Keeps bound) (count : Nat) :
    (forest.requested cursor count).length + (forest.stateAfter cursor count).left ≤ cursor.left := by
  induction count with
  | zero => exact Nat.le_of_eq (Nat.zero_add _)
  | succ count ih =>
    rw [stateAfter_succ, requested, List.length_append]
    have houtcome := outcome_next forest (keeps_stateAfter forest h count)
    generalize forest.next (forest.stateAfter cursor count) = walk at houtcome ⊢
    cases houtcome with
    | finished _ hvisited =>
      simp only [left_ended]
      omega
    | given _ _ hvisited =>
      dsimp only
      omega

theorem admits_of_answer {value : LeafValue} (h : cursor.Keeps bound)
    (hanswer : forest.answer cursor count = some (.ok value)) : Admits bound value := by
  have houtcome := outcome_next forest (keeps_stateAfter forest h count)
  rw [answer] at hanswer
  generalize forest.next (forest.stateAfter cursor count) = walk at houtcome hanswer
  cases houtcome with
  | finished hitem _ => exact absurd hanswer (hitem value)
  | given hvalue _ _ =>
    cases hanswer
    exact hvalue

theorem stateAfter_eq_ended (h : cursor.Keeps bound) (hlater : count < later)
    (hover : ∀ value, forest.answer cursor count ≠ some (.ok value)) :
    forest.stateAfter cursor later = .ended := by
  induction later, hlater using Nat.le_induction with
  | base =>
    rw [stateAfter_succ]
    have houtcome := outcome_next forest (keeps_stateAfter forest h count)
    unfold answer at hover
    generalize forest.next (forest.stateAfter cursor count) = walk at houtcome hover
    cases houtcome with
    | finished => rfl
    | @given _ value => exact absurd rfl (hover value)
  | succ later _ ih =>
    rw [stateAfter_succ, ih]
    rfl

/-- **Nothing comes after an error**, and nothing after the end. -/
theorem answer_eq_none (h : cursor.Keeps bound) (hlater : count < later)
    (hover : ∀ value, forest.answer cursor count ≠ some (.ok value)) :
    forest.answer cursor later = none := by
  rw [answer, stateAfter_eq_ended h hlater hover]
  rfl

/-- The answers are the items of the reading, in their order. -/
theorem answer_eq_getElem? (h : cursor.Keeps bound) (count : Nat) :
    forest.answer cursor count = (forest.allItems cursor).value[count]? := by
  induction count generalizing cursor with
  | zero =>
    cases hnext : (forest.next cursor).value with
    | mk item? after =>
      rw [answer, stateAfter, Function.iterate_zero, id, hnext]
      cases item? with
      | none => rw [allItems_of_none hnext]; rfl
      | some item => rw [allItems_of_some hnext]; rfl
  | succ count ih =>
    cases hnext : (forest.next cursor).value with
    | mk item? after =>
      cases item? with
      | none =>
        have hover (value : LeafValue) : forest.answer cursor 0 ≠ some (.ok value) := by
          rw [answer, stateAfter, Function.iterate_zero, id, hnext]
          exact fun h => by cases h
        rw [answer_eq_none h (Nat.succ_pos count) hover, allItems_of_none hnext]
        rfl
      | some item =>
        have hafter : after = (forest.next cursor).value.2 := by rw [hnext]
        have hkeeps : after.Keeps bound := hafter ▸ keeps_stateAfter forest h 1
        have hshift : forest.answer cursor (count + 1) = forest.answer after count := by
          rw [answer, stateAfter, Function.iterate_succ_apply, ← hafter]
          rfl
        rw [hshift, ih hkeeps, allItems_of_some hnext, List.getElem?_cons_succ]

theorem exists_answer_eq_none (h : cursor.Keeps bound) :
    ∃ count, forest.answer cursor count = none :=
  ⟨(forest.allItems cursor).value.length, by
    rw [answer_eq_getElem? h, List.getElem?_eq_none_iff]⟩

theorem exists_answer_iff (h : cursor.Keeps bound) {item : Except Error LeafValue} :
    (∃ count, forest.answer cursor count = some item) ↔ item ∈ (forest.allItems cursor).value := by
  rw [List.mem_iff_getElem?]
  exact exists_congr fun count => by rw [answer_eq_getElem? h]

/-! ## Where a reading starts -/

theorem of_value_descend {values : List LeafValue}
    (h : (forest.descend root choose levels page).value = .ok (some (leaf, values))) :
    forest.LeafAt leaf ∧ leaf.values = values := by
  induction levels generalizing page with
  | zero => cases h
  | succ levels ih =>
    rw [descend] at h
    split at h
    · cases h
    case h_2 node hnode =>
      split at h
      case h_1 values' hbody =>
        cases h
        rw [← page_eq_of_node hnode] at hnode
        exact ⟨⟨hnode, _, hbody⟩, Node.values_of_leaf hbody⟩
      case h_2 =>
        split at h
        · cases h
        · exact ih h

/-- A reading starts at its end or in a leaf, with as many leaves left as the source counts pages. -/
theorem of_value_cursorFrom (h : (forest.cursorFrom root bound choose).value = .ok cursor) :
    cursor = .ended ∨
      ∃ leaf, forest.LeafAt leaf ∧ cursor = inLeaf bound leaf forest.source.pageCount.toNat := by
  simp only [cursorFrom, Walk.value_bind] at h
  split at h
  · cases h
  · cases h
    exact .inl rfl
  case h_3 node values hdescend =>
    cases h
    obtain ⟨hleaf, rfl⟩ := of_value_descend hdescend
    exact .inr ⟨node, hleaf, rfl⟩

theorem keeps_inLeaf (bound : Option Key) (leaf : Node) (left : Nat) :
    (inLeaf bound leaf left).Keeps bound :=
  ⟨rfl, fun _ => admits_of_mem_admitted⟩

/-! ## The chain from a leaf on -/

/-- The page that the link of a leaf leads to. -/
def linkOf (forest : Forest) (page : PageNumber) : Option PageNumber :=
  match forest.node page with
  | .error _ => none
  | .ok node =>
    match node.body with
    | .branch _ => none
    | .leaf _ => if node.next = 0 then none else some node.next

theorem linkOf_of_leafAt (h : forest.LeafAt leaf) :
    forest.linkOf leaf.page = if leaf.next = 0 then none else some leaf.next := by
  simp only [linkOf, h.1, h.body]

theorem linkOf_of_next (h : forest.LeafAt leaf) (hnext : leaf.next ≠ 0) :
    forest.linkOf leaf.page = some leaf.next := by
  rw [linkOf_of_leafAt h, if_neg hnext]

theorem exists_leafAt_of_linkOf (h : forest.linkOf page = some next) :
    ∃ leaf, forest.LeafAt leaf ∧ leaf.page = page := by
  unfold linkOf at h
  split at h
  · cases h
  case h_2 node hnode =>
    split at h
    · cases h
    case h_2 values hbody =>
      have hpage := page_eq_of_node hnode
      exact ⟨node, ⟨hpage.symm ▸ hnode, values, hbody⟩, hpage⟩

/-- A reading that has more links in front of it than leaves left ends with the error of an endless
chain. -/
theorem endless_of_trail (bound : Option Key) (hleaf : forest.LeafAt leaf)
    (h : trail forest.linkOf leaf.page (left + 1) = some last) :
    ∃ page, .error (.tree page .endlessChain) ∈ (forest.allItems (inLeaf bound leaf left)).value := by
  induction left generalizing leaf with
  | zero =>
    have hnext : leaf.next ≠ 0 := by
      intro hzero
      rw [trail, linkOf_of_leafAt hleaf, if_pos hzero] at h
      cases h
    refine ⟨leaf.page, ?_⟩
    rw [inLeaf, allItems_pending, allItems_of_some (value_next_endless hnext)]
    exact List.mem_append_right _ List.mem_cons_self
  | succ left ih =>
    obtain ⟨next, hlink, hrest⟩ := Option.bind_eq_some_iff.mp h
    obtain ⟨_, hlink', _⟩ := Option.bind_eq_some_iff.mp hrest
    obtain ⟨following, hfollowing, rfl⟩ := exists_leafAt_of_linkOf hlink'
    rw [linkOf_of_leafAt hleaf] at hlink
    split at hlink
    case isTrue => cases hlink
    case isFalse hnext =>
      have hpage : leaf.next = following.page := Option.some.inj hlink
      obtain ⟨page, hmem⟩ := ih hfollowing hrest
      refine ⟨page, ?_⟩
      have hentered : (forest.next (.reading bound [] leaf.page leaf.next (left + 1))).value =
          (forest.next (inLeaf bound following left)).value :=
        value_next_entered hnext (hpage ▸ hfollowing.1) hfollowing.body
      rw [inLeaf, allItems_pending, allItems_congr hentered]
      exact List.mem_append_right _ hmem

/-- What a reading gives at the end of a leaf if it cannot read the next page. -/
theorem allItems_refused {e : Error} (hnext : next ≠ 0) (hnode : forest.node next = .error e) :
    (forest.allItems (.reading bound [] page next (left + 1))).value = [.error e] := by
  have hvalue : (forest.next (.reading bound [] page next (left + 1))).value =
      (some (.error e), .ended) := by
    rw [Forest.next, nextLeaf, if_neg hnext, hnode]
    rfl
  rw [allItems_of_some hvalue, allItems_of_none rfl]

/-- What a reading gives at the end of a leaf if the link leads to a branch. -/
theorem allItems_notALeaf {node : Node} {entries : List BranchEntry} (hnext : next ≠ 0)
    (hnode : forest.node next = .ok node) (hbody : node.body = .branch entries) :
    (forest.allItems (.reading bound [] page next (left + 1))).value =
      [.error (.tree next (.notALeaf page))] := by
  have hvalue : (forest.next (.reading bound [] page next (left + 1))).value =
      (some (.error (.tree next (.notALeaf page))), .ended) := by
    rw [Forest.next, nextLeaf, if_neg hnext, hnode]
    simp only [hbody]
    rfl
  rw [allItems_of_some hvalue, allItems_of_none rfl]

/-- The values that a reading holds are no errors: an error comes from behind the leaf. -/
theorem mem_allItems_of_error {e : Error}
    (h : .error e ∈ (forest.allItems (inLeaf bound leaf left)).value) :
    .error e ∈ (forest.allItems (.reading bound [] leaf.page leaf.next left)).value := by
  rw [inLeaf, allItems_pending, List.mem_append] at h
  refine h.resolve_left fun hpending => ?_
  obtain ⟨_, _, hvalue⟩ := List.mem_map.mp hpending
  cases hvalue

theorem next_ne_zero_of_error {e : Error}
    (h : .error e ∈ (forest.allItems (.reading bound [] page next left)).value) : next ≠ 0 := by
  rintro rfl
  rw [allItems_of_none value_next_ended] at h
  cases h

/-- The error of an endless chain comes only after more links than leaves were left, or from the
source, if it refuses a page of the chain with that error. -/
theorem trail_of_endless (hleaf : forest.LeafAt leaf)
    (h : .error (.tree page .endlessChain) ∈ (forest.allItems (inLeaf bound leaf left)).value) :
    (∃ last, trail forest.linkOf leaf.page (left + 1) = some last) ∨
      ∃ count number, trail forest.linkOf leaf.page count = some number ∧
        forest.node number = .error (.tree page .endlessChain) := by
  replace h := mem_allItems_of_error h
  have hnext := next_ne_zero_of_error h
  have hlink := linkOf_of_next hleaf hnext
  induction left generalizing leaf with
  | zero => exact .inl ⟨leaf.next, trail_succ_of_some hlink⟩
  | succ left ih =>
    cases hnode : forest.node leaf.next with
    | error e =>
      rw [allItems_refused hnext hnode, List.mem_singleton] at h
      obtain rfl := Except.error.inj h
      exact .inr ⟨1, leaf.next, trail_succ_of_some hlink, hnode⟩
    | ok following =>
      cases hbody : following.body with
      | branch entries =>
        rw [allItems_notALeaf hnext hnode hbody, List.mem_singleton] at h
        cases h
      | leaf values =>
        -- The reading goes on as if it had started in the leaf behind the link.
        rw [allItems_congr (value_next_entered hnext hnode hbody)] at h
        have hpage := page_eq_of_node hnode
        have hfollowing : forest.LeafAt following := ⟨hpage.symm ▸ hnode, values, hbody⟩
        have hbehind := mem_allItems_of_error h
        have hnextBehind := next_ne_zero_of_error hbehind
        rw [← hpage] at hlink
        obtain ⟨last, hlast⟩ | ⟨count, number, htrail, hrefused⟩ :=
          ih hfollowing hbehind hnextBehind (linkOf_of_next hfollowing hnextBehind)
        · exact .inl ⟨last, (trail_succ_of_some hlink).trans hlast⟩
        · exact .inr ⟨count + 1, number, (trail_succ_of_some hlink).trans htrail, hrefused⟩

/-! ## On a source that counts its pages -/

/-- The source refuses every page that it has not counted. -/
def CountsPages (forest : Forest) : Prop :=
  ∀ number, forest.source.pageCount ≤ number → ∃ e, forest.source.page number = .error e

/-- A chain of more leaves than the source counts pages comes to some page twice. -/
theorem recurs_of_trail (hsource : forest.CountsPages)
    (h : trail forest.linkOf page (forest.source.pageCount.toNat + 1) = some last) :
    Recurs forest.linkOf page := by
  obtain ⟨before, hbefore⟩ := exists_trail_of_le (Nat.le_succ _) h
  refine recurs_of_bounded hbefore fun count hcount other hother => ?_
  -- There is a link on every page that the chain has come to, so the source has given that page.
  obtain ⟨following, hfollowing⟩ := exists_trail_of_le (Nat.succ_le_succ hcount) h
  rw [trail_succ, hother, Option.bind_some] at hfollowing
  obtain ⟨leaf, hleaf, rfl⟩ := exists_leafAt_of_linkOf hfollowing
  by_contra hbeyond
  obtain ⟨e, he⟩ := hsource leaf.page (UInt32.not_lt.mp hbeyond)
  have hnode := hleaf.1
  rw [node, he] at hnode
  cases hnode

/-- What holds of a reading on any source that counts its pages. -/
structure Bounded (forest : Forest) (cursor : LeafCursor) : Prop where
  /-- However often it is called, it asks for no more pages than the source counts. -/
  requested_le (count : Nat) :
    (forest.requested cursor count).length ≤ forest.source.pageCount.toNat
  ends : ∃ count, forest.answer cursor count = none
  /-- Nothing comes after an error. -/
  fused {count later : Nat} {e : Error} (herror : forest.answer cursor count = some (.error e))
    (hlater : count < later) : forest.answer cursor later = none
  /-- A chain that comes to no page twice is turned down only if the source itself does that. -/
  endless {count : Nat} {page : PageNumber}
    (herror : forest.answer cursor count = some (.error (.tree page .endlessChain))) :
    ∃ start, cursor.page? = some start ∧ (Recurs forest.linkOf start ∨
      ∃ behind number, trail forest.linkOf start behind = some number ∧
        forest.node number = .error (.tree page .endlessChain))
  /-- A chain that runs in a circle is turned down. -/
  circular {start : PageNumber} (hstart : cursor.page? = some start)
    (hrecurs : Recurs forest.linkOf start) :
    ∃ count page, forest.answer cursor count = some (.error (.tree page .endlessChain))

theorem keeps_ended : LeafCursor.ended.Keeps none := trivial

theorem bounded_ended (forest : Forest) : forest.Bounded .ended where
  requested_le count := by
    have hle := length_requested_add_left_le forest keeps_ended count
    exact Nat.le_trans (Nat.le_of_add_right_le hle) (Nat.zero_le _)
  ends := ⟨0, rfl⟩
  fused herror hlater := answer_eq_none keeps_ended hlater fun _ h => by
    rw [herror] at h
    cases h
  endless herror := by
    rw [answer_eq_getElem? keeps_ended, allItems_of_none rfl] at herror
    cases herror
  circular hstart _ := by cases hstart

theorem bounded_inLeaf (hsource : forest.CountsPages) (bound : Option Key)
    (hleaf : forest.LeafAt leaf) :
    forest.Bounded (inLeaf bound leaf forest.source.pageCount.toNat) where
  requested_le count :=
    Nat.le_of_add_right_le (length_requested_add_left_le forest (keeps_inLeaf bound leaf _) count)
  ends := exists_answer_eq_none (keeps_inLeaf bound leaf _)
  fused herror hlater := answer_eq_none (keeps_inLeaf bound leaf _) hlater fun _ h => by
    rw [herror] at h
    cases h
  endless herror := by
    have hmem := (exists_answer_iff (keeps_inLeaf bound leaf _)).mp ⟨_, herror⟩
    refine ⟨leaf.page, rfl, ?_⟩
    obtain ⟨last, hlast⟩ | hrefused := trail_of_endless hleaf hmem
    · exact .inl (recurs_of_trail hsource hlast)
    · exact .inr hrefused
  circular hstart hrecurs := by
    cases hstart
    obtain ⟨last, hlast⟩ := hrecurs.exists_trail (forest.source.pageCount.toNat + 1)
    obtain ⟨page, hmem⟩ := endless_of_trail bound hleaf hlast
    obtain ⟨count, hanswer⟩ := (exists_answer_iff (keeps_inLeaf bound leaf _)).mpr hmem
    exact ⟨count, page, hanswer⟩

theorem bounded_cursorFrom (hsource : forest.CountsPages)
    (h : (forest.cursorFrom root bound choose).value = .ok cursor) :
    forest.Bounded cursor ∧ cursor.Keeps bound := by
  obtain rfl | ⟨leaf, hleaf, rfl⟩ := of_value_cursorFrom h
  · exact ⟨bounded_ended forest, trivial⟩
  · exact ⟨bounded_inLeaf hsource bound hleaf, keeps_inLeaf bound leaf _⟩

/-- **A reading is bounded on any source that counts its pages**: it asks for no more pages than
there are, ends, gives nothing after an error, and turns down the chains that run in a circle and,
unless the source itself refuses a page with the same error, no others. What `seek` reads is **not
before the key**, in whatever order the keys are stored. -/
theorem reading_bounded (hsource : forest.CountsPages) (root : PageNumber) (cursor : LeafCursor) :
    ((forest.leaves root).value = .ok cursor → forest.Bounded cursor) ∧
      ∀ key, (forest.seek root key).value = .ok cursor →
        forest.Bounded cursor ∧
          ∀ count value, forest.answer cursor count = some (.ok value) →
            KeyOrder.forward.Le key value.key := by
  refine ⟨fun h => (bounded_cursorFrom hsource h).1, fun key h => ?_⟩
  obtain ⟨hbounded, hkeeps⟩ := bounded_cursorFrom hsource h
  exact ⟨hbounded, fun count value hanswer => admits_of_answer hkeeps hanswer key rfl⟩

/-! ## A chain in a circle -/

/-- Two leaves, each the next one of the other. The keys are in no order. -/
def circle : Forest where
  source :=
    { pageSize := 96
      pageCount := 3
      page := fun number =>
        if number = 1 then .ok (PageImage.leaf 96 2 [[0x63], [0x61]]).bytes
        else if number = 2 then .ok (PageImage.leaf 96 1 [[0x62]]).bytes
        else .error (.page number .notPresent) }
  format := .standard

theorem node_circle_one :
    circle.node 1 =
      .ok ⟨1, false, 0, 2, .leaf [sampleValue 0x63 1 40 1, sampleValue 0x61 1 44 2]⟩ := by cbv

theorem node_circle_two : circle.node 2 = .ok ⟨2, false, 0, 1, .leaf [sampleValue 0x62 2 40 1]⟩ := by
  cbv

/-- A reading from a key on leaves out what is before it. The circle is turned down all the same. -/
theorem reading_bounded_circle :
    let fromKey : LeafCursor := .reading (some ⟨[0x62]⟩) [sampleValue 0x63 1 40 1] 1 2 3
    let all : LeafCursor :=
      .reading none [sampleValue 0x63 1 40 1, sampleValue 0x61 1 44 2] 1 2 3
    (circle.seek 1 ⟨[0x62]⟩).value = .ok fromKey ∧ (circle.leaves 1).value = .ok all ∧
      circle.Bounded fromKey ∧ circle.Bounded all ∧ Recurs circle.linkOf 1 ∧
      circle.answer fromKey 1 = some (.ok (sampleValue 0x62 2 40 1)) ∧
      KeyOrder.forward.Le ⟨[0x62]⟩ (sampleValue 0x62 2 40 1).key ∧
      ∃ count page, circle.answer fromKey count = some (.error (.tree page .endlessChain)) := by
  intro fromKey all
  have hsource : circle.CountsPages := by
    intro number h
    have hone : number ≠ 1 := by rintro rfl; exact absurd h (by decide)
    have htwo : number ≠ 2 := by rintro rfl; exact absurd h (by decide)
    exact ⟨.page number .notPresent, by simp only [circle, if_neg hone, if_neg htwo]⟩
  have hseek : (circle.seek 1 ⟨[0x62]⟩).value = .ok fromKey := by decide +kernel
  have hleaves : (circle.leaves 1).value = .ok all := by decide +kernel
  have hanswer : circle.answer fromKey 1 = some (.ok (sampleValue 0x62 2 40 1)) := by
    decide +kernel
  have hthere : circle.linkOf 1 = some 2 := by rw [linkOf, node_circle_one]; rfl
  have hback : circle.linkOf 2 = some 1 := by rw [linkOf, node_circle_two]; rfl
  have hrecurs : Recurs circle.linkOf 1 :=
    ⟨0, 2, 1, by decide, rfl, by rw [trail_succ_of_some hthere, trail_succ_of_some hback, trail]⟩
  obtain ⟨hbounded, hbound⟩ := (reading_bounded hsource 1 fromKey).2 ⟨[0x62]⟩ hseek
  exact ⟨hseek, hleaves, hbounded, (reading_bounded hsource 1 all).1 hleaves, hrecurs, hanswer,
    hbound 1 _ hanswer, hbounded.circular rfl hrecurs⟩

end Forest

end EseReader
