import EseReader.Tree.Forest

/-!
# `EseReader/Tree/Leaves.lean` — reading the leaves in order

The leaves of a tree are chained by the links in their headers, so a range of values is read by
going down to one leaf and then along the chain. Going down takes one entry of each branch: the
first one (`leaves`), or the first one that covers a key (`seek`).

Along the chain, values come out one at a time and **a page is read only when a value of it is
asked for**. `LeafCursor` is the state in between. The chain is followed over at most as many pages
as the source has, so a chain that runs in a circle ends in an error; after an error nothing more
comes.
-/

set_option autoImplicit false

namespace EseReader

/-- Where a reading of the leaves stands. -/
inductive LeafCursor where
  | ended
  /-- In the leaf `page`, of whose values `pending` are still to come. No value before `bound` will
  come; `left` more leaves may be read. -/
  | reading (bound : Option Key) (pending : List LeafValue) (page next : PageNumber) (left : Nat)
  deriving DecidableEq, Repr

namespace LeafCursor

/-- The values that are not before the bound, if there is one. -/
def admitted (bound : Option Key) (values : List LeafValue) : List LeafValue :=
  match bound with
  | none => values
  | some key => values.filter (KeyOrder.forward.compare ·.key key != .lt)

/-- The number of leaves and values that may still come: what bounds a reading. -/
def remaining : LeafCursor → Nat × Nat
  | ended => (0, 0)
  | reading _ pending _ _ left => (left, pending.length + 1)

end LeafCursor

namespace Forest

/-! ## Going down -/

/-- The leaf below `page` that `choose` leads to; `none` if it finds no entry in some branch. At
most `levels` pages are read. -/
def descend (forest : Forest) (root : PageNumber) (choose : List BranchEntry → Option BranchEntry) :
    (levels : Nat) → (page : PageNumber) → Walk (Except Error (Option (Node × List LeafValue)))
  | 0, _ => ⟨[], .error (.tree root (.tooDeep maxDepth))⟩
  | levels + 1, page =>
    match forest.node page with
    | .error e => .visit page (.error e)
    | .ok node =>
      match node.body with
      | .leaf values => .visit page (.ok (some (node, values)))
      | .branch entries =>
        match choose entries with
        | none => .visit page (.ok none)
        | some entry => (forest.descend root choose levels entry.child).after page

/-- A cursor in the leaf that a descent from `root` reaches. -/
def cursorFrom (forest : Forest) (root : PageNumber) (bound : Option Key)
    (choose : List BranchEntry → Option BranchEntry) : Walk (Except Error LeafCursor) := do
  match ← forest.descend root choose maxDepth root with
  | .error e => return .error e
  | .ok none => return .ok .ended
  | .ok (some (node, values)) =>
    return .ok (.reading bound (LeafCursor.admitted bound values) node.page node.next
      forest.source.pageCount.toNat)

/-- All the values of the tree at `root`, from the first one on. -/
def leaves (forest : Forest) (root : PageNumber) : Walk (Except Error LeafCursor) :=
  forest.cursorFrom root none List.head?

/-- The values of the tree at `root` from `key` on. -/
def seek (forest : Forest) (root : PageNumber) (key : Key) : Walk (Except Error LeafCursor) :=
  forest.cursorFrom root (some key) fun entries =>
    entries.find? (KeyOrder.forward.covers ·.key key)

/-! ## Going along -/

/-- The first value behind the leaf `page`, whose successor is `next`. -/
def nextLeaf (forest : Forest) (bound : Option Key) :
    (left : Nat) → (page next : PageNumber) → Walk (Option (Except Error LeafValue) × LeafCursor)
  | left, page, next =>
    if next = 0 then ⟨[], (none, .ended)⟩
    else match left with
      | 0 => ⟨[], (some (.error (.tree page .endlessChain)), .ended)⟩
      | left + 1 =>
        match forest.node next with
        | .error e => .visit next (some (.error e), .ended)
        | .ok node =>
          match node.body with
          | .branch _ => .visit next (some (.error (.tree next (.notALeaf page))), .ended)
          | .leaf values =>
            match LeafCursor.admitted bound values with
            | [] => (forest.nextLeaf bound left next node.next).after next
            | value :: pending =>
              .visit next (some (.ok value), .reading bound pending next node.next left)

/-- The next value of a reading, or the error in its place, and where the reading stands then. -/
def next (forest : Forest) : LeafCursor → Walk (Option (Except Error LeafValue) × LeafCursor)
  | .ended => ⟨[], (none, .ended)⟩
  | .reading bound (value :: pending) page next left =>
    ⟨[], (some (.ok value), .reading bound pending page next left)⟩
  | .reading bound [] page next left => forest.nextLeaf bound left page next

theorem remaining_nextLeaf_lt {forest : Forest} {bound : Option Key} {left : Nat}
    {page next : PageNumber} {item : Except Error LeafValue} {cursor : LeafCursor}
    (h : (forest.nextLeaf bound left page next).value = (some item, cursor)) :
    Prod.Lex (· < ·) (· < ·) cursor.remaining (left, 1) := by
  induction left generalizing page next with
  | zero =>
    unfold nextLeaf at h
    split at h
    · cases h
    · cases h; exact .right _ (by decide)
  | succ left ih =>
    unfold nextLeaf at h
    split at h
    · cases h
    · simp only at h
      split at h
      · cases h; exact .left _ _ (Nat.succ_pos _)
      · split at h
        · cases h; exact .left _ _ (Nat.succ_pos _)
        · split at h
          · cases hc : cursor.remaining with
            | mk a b =>
              have hlt := ih h
              rw [hc] at hlt
              cases hlt with
              | left _ _ hlt => exact .left _ _ (Nat.lt_succ_of_lt hlt)
              | right _ _ => exact .left _ _ (Nat.lt_succ_self _)
          · cases h; exact .left _ _ (Nat.lt_succ_self _)

/-- **Every item uses up something**: a reading ends on any source. -/
theorem remaining_next_lt {forest : Forest} {cursor cursor' : LeafCursor}
    {item : Except Error LeafValue} (h : (forest.next cursor).value = (some item, cursor')) :
    Prod.Lex (· < ·) (· < ·) cursor'.remaining cursor.remaining := by
  cases cursor with
  | ended => cases h
  | reading bound pending page next left =>
    cases pending with
    | nil => exact remaining_nextLeaf_lt h
    | cons value pending => cases h; exact .right _ (Nat.lt_succ_self _)

end Forest

/-- Whether a fold goes on. -/
inductive Flow (β : Type) where
  | more (state : β)
  | enough (state : β)

namespace Forest

/-- Takes the items of a reading into `state` one after the other, until there are no more or
`take` has enough. No page is asked for after that. -/
def fold {β : Type} (forest : Forest) (take : β → Except Error LeafValue → Flow β) (state : β)
    (cursor : LeafCursor) : Walk β :=
  match _ : forest.next cursor with
  | ⟨visited, none, _⟩ => ⟨visited, state⟩
  | ⟨visited, some item, cursor⟩ =>
    match take state item with
    | .enough state => ⟨visited, state⟩
    | .more state =>
      let walk := forest.fold take state cursor
      ⟨visited ++ walk.visited, walk.value⟩
termination_by cursor.remaining
decreasing_by exact remaining_next_lt (congrArg Walk.value ‹_›)

/-- The items of a reading, at most `limit` of them. -/
def items (forest : Forest) (limit : Nat) (cursor : LeafCursor) :
    Walk (List (Except Error LeafValue)) :=
  if limit = 0 then pure []
  else do
    let taken ← forest.fold (fun (taken : Array (Except Error LeafValue)) item =>
      let taken := taken.push item
      if limit ≤ taken.size then .enough taken else .more taken) #[] cursor
    return taken.toList

/-- All the values of a reading, unless one of them is an error. -/
def values (forest : Forest) (cursor : LeafCursor) : Walk (Except Error (List LeafValue)) := do
  let result ← forest.fold (fun (taken : Except Error (Array LeafValue)) item =>
    match taken, item with
    | .ok values, .ok value => .more (.ok (values.push value))
    | _, .error e => .enough (.error e)
    | .error e, _ => .enough (.error e)) (.ok #[]) cursor
  return result.map (·.toList)

end Forest

end EseReader
