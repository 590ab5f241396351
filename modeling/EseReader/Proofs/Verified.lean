import EseReader.Proofs.Trace
import EseReader.Proofs.Tree.Lookup

/-!
# `EseReader/Proofs/Verified.lean` — reading through a test of checksums

`PageSource.verified` gives out a page only if its checksum is right, and whoever reads through it
should see nothing of that as long as all checksums are. Here a run on the tested source is compared
with the same run on the bare one (`run_verified`): it is the same run, event by event, up to the
first page with a wrong checksum, and ends there with that error.

A page is turned down by the test either because of its checksum or for what would have been an
error without the test as well, so nothing but the checksum can be the difference (`node_verified`).
From there on there is one argument for every loop. A loop asks for a page by **entering** it
(`Forest.enter`): it fails if the page is not a node and goes on with the node if it is. Entering
through the test is entering with the walk cut (`enter_verified`), and so it is of each loop, by
induction on the loop.
-/

set_option autoImplicit false

namespace EseReader

namespace Forest

variable {forest : Forest} {number page root : PageNumber} {order : KeyOrder} {target : Key}

/-- The same trees, read through a test of checksums. -/
def verified (forest : Forest) : Forest := ⟨forest.source.verified forest.format, forest.format⟩

/-- The page that the source has under a number, if it has one that is long enough. -/
def pageAt (forest : Forest) (number : PageNumber) : Except Error Page := do
  Page.ofBytes number (← forest.source.page number) forest.format

/-- What is wrong with the checksum of a page. There is nothing wrong with the checksum of a page
that cannot be had. -/
def checksumFault? (forest : Forest) (number : PageNumber) : Option Error :=
  match forest.pageAt number with
  | .error _ => none
  | .ok page =>
    match page.verifyChecksum forest.format with
    | .error e => some e
    | .ok () => none

theorem checksumFault?_of_ok {page : Page} (hpage : forest.pageAt number = .ok page) :
    forest.checksumFault? number =
      match page.verifyChecksum forest.format with
      | .error e => some e
      | .ok () => none := by
  rw [checksumFault?, hpage]

theorem node_eq_pageAt (number : PageNumber) :
    forest.node number = forest.pageAt number >>= Node.ofPage := by
  unfold node pageAt Node.ofBytes
  cases forest.source.page number <;> rfl

theorem pageAt_verified (number : PageNumber) :
    forest.verified.pageAt number =
      forest.pageAt number >>= fun page => page.verifyChecksum forest.format >>= fun _ => pure page := by
  unfold pageAt verified PageSource.verified
  cases hdata : forest.source.page number with
  | error e => simp only [hdata]; rfl
  | ok data =>
    simp only [hdata]
    show (Page.ofBytes number data forest.format >>= fun page =>
      page.verifyChecksum forest.format >>= fun _ => pure data) >>= _ =
        Page.ofBytes number data forest.format >>= _
    cases hpage : Page.ofBytes number data forest.format with
    | error e => rfl
    | ok page =>
      show (page.verifyChecksum forest.format >>= fun _ => pure data) >>= _ =
        page.verifyChecksum forest.format >>= _
      cases page.verifyChecksum forest.format with
      | error e => rfl
      | ok _ => exact hpage

/-- **The checksum is the only difference.** -/
theorem node_verified (number : PageNumber) :
    forest.verified.node number =
      match forest.checksumFault? number with
      | some e => .error e
      | none => forest.node number := by
  rw [node_eq_pageAt, node_eq_pageAt, pageAt_verified, checksumFault?]
  cases forest.pageAt number with
  | error e => rfl
  | ok page =>
    show (page.verifyChecksum forest.format >>= fun _ => pure page) >>= Node.ofPage = _
    cases hverify : page.verifyChecksum forest.format with
    | error e => simp only [hverify]; rfl
    | ok _ => simp only [hverify]; rfl

/-! ## Entering a page -/

variable {α : Type} {fail : Error → α}

/-- Asks for a page, and goes on with the node that is on it. -/
def enter (forest : Forest) (fail : Error → α) (page : PageNumber) (go : Node → Walk α) : Walk α :=
  Walk.after
    (match forest.node page with
      | .error e => ⟨[], fail e⟩
      | .ok node => go node)
    page

theorem enter_verified {go go' : Node → Walk α}
    (h : ∀ node, forest.node page = .ok node →
      go' node = (go node).cut forest.checksumFault? fail) :
    forest.verified.enter fail page go' =
      (forest.enter fail page go).cut forest.checksumFault? fail := by
  unfold enter
  rw [node_verified]
  cases hfault : forest.checksumFault? page with
  | some e => exact (Walk.cut_after_of_fault hfault _).symm
  | none =>
    rw [Walk.cut_after_of_none hfault]
    cases hnode : forest.node page with
    | error e => rfl
    | ok node => exact congrArg (Walk.after · page) (h node hnode)

/-! ## The loops -/

theorem search_eq_enter (here : Position) (above : List Position) :
    forest.search order target (here :: above) =
      forest.enter .error here.page fun node =>
        match Find.step order target here above node.body with
        | .error e => ⟨[], .error e⟩
        | .ok (.found value) => ⟨[], .ok (some value)⟩
        | .ok .missing => ⟨[], .ok none⟩
        | .ok (.searching path) => forest.search order target path := by
  rw [search, enter]
  split
  case h_1 e hnode => rw [hnode]; rfl
  case h_2 node hnode =>
    rw [hnode]
    split <;> rename_i hstep <;> simp only [hstep] <;> rfl

theorem search_verified (path : List Position) :
    forest.verified.search order target path =
      (forest.search order target path).cut forest.checksumFault? .error := by
  match path with
  | [] => rw [search, search]; rfl
  | here :: above =>
    rw [search_eq_enter, search_eq_enter]
    refine enter_verified fun node hnode => ?_
    cases hstep : Find.step order target here above node.body with
    | error e => rfl
    | ok progress =>
      cases progress with
      | found value => rfl
      | missing => rfl
      | searching path => exact search_verified path
termination_by Find.effort path
decreasing_by exact Find.effort_step_lt (entries_length_lt_of_node hnode) hstep

theorem descend_eq_enter (choose : List BranchEntry → Option BranchEntry) (levels : Nat)
    (page : PageNumber) :
    forest.descend root choose (levels + 1) page =
      forest.enter .error page fun node =>
        match node.body with
        | .leaf values => ⟨[], .ok (some (node, values))⟩
        | .branch entries =>
          match choose entries with
          | none => ⟨[], .ok none⟩
          | some entry => forest.descend root choose levels entry.child := by
  rw [descend, enter]
  cases forest.node page with
  | error e => rfl
  | ok node =>
    cases hbody : node.body with
    | leaf values => simp only [hbody]; rfl
    | branch entries =>
      simp only [hbody]
      cases choose entries <;> rfl

theorem descend_verified (choose : List BranchEntry → Option BranchEntry) (levels : Nat)
    (page : PageNumber) :
    forest.verified.descend root choose levels page =
      (forest.descend root choose levels page).cut forest.checksumFault? .error := by
  induction levels generalizing page with
  | zero => rfl
  | succ levels ih =>
    rw [descend_eq_enter, descend_eq_enter]
    refine enter_verified fun node _ => ?_
    cases node.body with
    | leaf values => rfl
    | branch entries =>
      cases hentry : choose entries with
      | none => simp only [hentry]; rfl
      | some entry =>
        simp only [hentry]
        exact ih entry.child

theorem cursorFrom_verified (bound : Option Key) (choose : List BranchEntry → Option BranchEntry) :
    forest.verified.cursorFrom root bound choose =
      (forest.cursorFrom root bound choose).cut forest.checksumFault? .error := by
  rw [cursorFrom, cursorFrom, descend_verified]
  refine Walk.cut_bind (fun _ => rfl) ?_
  match (forest.descend root choose maxDepth root).value with
  | .error e => rfl
  | .ok none => rfl
  | .ok (some (node, values)) => rfl

/-- What a reading that runs into a fault gives in the place of an item. It is over then. -/
def stopped (e : Error) : Option (Except Error LeafValue) × LeafCursor := (some (.error e), .ended)

theorem nextLeaf_eq_enter (bound : Option Key) (left : Nat) (page : PageNumber) {next : PageNumber}
    (hnext : next ≠ 0) :
    forest.nextLeaf bound (left + 1) page next =
      forest.enter stopped next fun node =>
        match node.body with
        | .branch _ => ⟨[], (some (.error (.tree next (.notALeaf page))), .ended)⟩
        | .leaf values =>
          match LeafCursor.admitted bound values with
          | [] => forest.nextLeaf bound left next node.next
          | value :: pending =>
            ⟨[], (some (.ok value), .reading bound pending next node.next left)⟩ := by
  rw [nextLeaf, if_neg hnext, enter]
  cases forest.node next with
  | error e => rfl
  | ok node =>
    cases hbody : node.body with
    | branch entries => simp only [hbody]; rfl
    | leaf values =>
      simp only [hbody]
      cases LeafCursor.admitted bound values <;> rfl

theorem nextLeaf_verified (bound : Option Key) (left : Nat) (page next : PageNumber) :
    forest.verified.nextLeaf bound left page next =
      (forest.nextLeaf bound left page next).cut forest.checksumFault? stopped := by
  induction left generalizing page next with
  | zero =>
    rw [nextLeaf, nextLeaf]
    split <;> rfl
  | succ left ih =>
    by_cases hnext : next = 0
    · rw [nextLeaf, nextLeaf, if_pos hnext, if_pos hnext, Walk.cut_nil]
    · rw [nextLeaf_eq_enter bound left page hnext, nextLeaf_eq_enter bound left page hnext]
      refine enter_verified fun node _ => ?_
      cases node.body with
      | branch entries => rfl
      | leaf values =>
        cases hvalues : LeafCursor.admitted bound values with
        | nil => simp only [hvalues]; exact ih next node.next
        | cons value pending => simp only [hvalues]; rfl

theorem next_verified (cursor : LeafCursor) :
    forest.verified.next cursor = (forest.next cursor).cut forest.checksumFault? stopped := by
  match cursor with
  | .ended => rfl
  | .reading bound (value :: pending) page next left => rfl
  | .reading bound [] page next left => exact nextLeaf_verified bound left page next

/-! ## Whole runs -/

theorem onward_stopped (e : Error) : forest.onward (stopped e) = [.given (.error e)] := by
  rw [stopped, onward, readingEvents_eq]
  rfl

theorem readingEvents_verified (cursor : LeafCursor) :
    forest.verified.readingEvents cursor =
      Event.cut forest.checksumFault? (forest.readingEvents cursor) := by
  rw [readingEvents_eq, readingEvents_eq, next_verified]
  refine Walk.events_cut onward_stopped ?_
  match hnext : (forest.next cursor).value with
  | (none, _) => rfl
  | (some item, after) => exact congrArg (.given item :: ·) (readingEvents_verified after)
termination_by cursor.remaining
decreasing_by exact remaining_next_lt hnext

theorem readAll_verified {opening : Walk (Except Error LeafCursor)} :
    forest.verified.readAll (opening.cut forest.checksumFault? .error) =
      Event.cut forest.checksumFault? (forest.readAll opening) := by
  refine Walk.events_cut (fun _ => rfl) ?_
  cases opening.value with
  | error e => rfl
  | ok cursor => exact congrArg (.ready :: ·) (readingEvents_verified cursor)

/-- Segments are put together until the first error. -/
theorem fold_assemble_verified (key : LongValueKey) (assembly : LongValue.Assembly)
    (cursor : LeafCursor) :
    forest.verified.fold (LongValue.assemble key) (.ok assembly) cursor =
      (forest.fold (LongValue.assemble key) (.ok assembly) cursor).cut forest.checksumFault?
        .error := by
  rw [fold_eq_consume, fold_eq_consume, readingEvents_verified]
  refine Event.consume_cut (fun found => ∃ assembly, found = .ok assembly) ?_ ?_
    ⟨assembly, rfl⟩ _
  · rintro _ e ⟨assembly, rfl⟩
    rfl
  · intro found item more h
    unfold LongValue.assemble at h
    split at h
    · cases h
    · cases h
    · split at h
      · cases h
      · split at h
        · cases h
          exact ⟨_, rfl⟩
        · dsimp only at h
          split at h <;> cases h
          exact ⟨_, rfl⟩

theorem longValueSegments_verified (key : LongValueKey) :
    forest.verified.longValueSegments root key =
      (forest.longValueSegments root key).cut forest.checksumFault? .error := by
  rw [longValueSegments, longValueSegments, seek, seek, cursorFrom_verified]
  refine Walk.cut_bind (fun _ => rfl) ?_
  cases (forest.cursorFrom root (some (key.segment 0)) _).value with
  | error e => rfl
  | ok cursor =>
    simp only [fold_assemble_verified]
    exact Walk.cut_bind (fun _ => rfl) rfl

theorem longValue_verified (key : LongValueKey) :
    forest.verified.longValue root key =
      (forest.longValue root key).cut forest.checksumFault? .error := by
  rw [longValue, longValue, find, find, search_verified]
  refine Walk.cut_bind (fun _ => rfl) ?_
  match (forest.search .forward key.anchor [⟨root, 0⟩]).value with
  | .error e => rfl
  | .ok none => rfl
  | .ok (some anchor) =>
    cases hdata : anchor.data.exactly 8 with
    | error e => simp only [hdata]; rfl
    | ok data =>
      simp only [hdata, longValueSegments_verified]
      exact Walk.cut_bind (fun _ => rfl) rfl

/-- **A tested run is the bare run, cut at the first wrong checksum.** -/
theorem run_verified_eq_cut (lookup : Lookup) :
    forest.verified.run lookup = Event.cut forest.checksumFault? (forest.run lookup) := by
  cases lookup with
  | find root key order =>
    rw [run, run, find, find, search_verified]
    exact Walk.events_cut (fun _ => rfl) rfl
  | leaves root =>
    rw [run, run, leaves, leaves, cursorFrom_verified]
    exact readAll_verified
  | seek root key =>
    rw [run, run, seek, seek, cursorFrom_verified]
    exact readAll_verified
  | longValue root key =>
    rw [run, run, longValue_verified]
    exact Walk.events_cut (fun _ => rfl) rfl

/-- The test has nothing to say about this page: its checksum is right, or it cannot be had at all. -/
def Passes (forest : Forest) (number : PageNumber) : Prop :=
  ∀ page, forest.pageAt number = .ok page → page.verifyChecksum forest.format = .ok ()

theorem Passes.checksumFault?_eq (h : forest.Passes number) : forest.checksumFault? number = none := by
  rw [checksumFault?]
  cases hpage : forest.pageAt number with
  | error e => rfl
  | ok page => simp only [h page hpage]

theorem number_of_pageAt {page : Page} (h : forest.pageAt number = .ok page) :
    page.number = number := by
  obtain ⟨data, _, h⟩ := bind_eq_ok_iff.mp h
  unfold Page.ofBytes at h
  dsimp only at h
  split at h <;> cases h
  rfl

theorem verifyChecksum_eq_error {page : Page} {format : Format}
    (h : page.verifyChecksum format ≠ .ok ()) :
    page.verifyChecksum format =
      .error (.checksum page.number page.header.checksum (page.checksum format)) := by
  unfold Page.verifyChecksum at h ⊢
  dsimp only at h ⊢
  split at h
  · exact absurd rfl h
  case isFalse htested =>
    rw [if_neg htested]
    split at h
    · exact absurd rfl h
    case isFalse hwrong => rw [if_neg hwrong]

/-- **Testing checksums is transparent up to the first wrong one.** Whatever the pages hold, a lookup
that asks for no page with a wrong checksum is the same, event by event, with the test and without:
the same pages, the same items, the same errors. Otherwise the tested run is the bare one up to and
including the first request for such a page, and ends there with the error of that checksum. -/
theorem run_verified (forest : Forest) (lookup : Lookup) :
    ((∀ number, .asked number ∈ forest.run lookup → forest.Passes number) →
      forest.verified.run lookup = forest.run lookup) ∧
    ∀ before number after page, forest.run lookup = before ++ .asked number :: after →
      (∀ earlier, .asked earlier ∈ before → forest.Passes earlier) →
      forest.pageAt number = .ok page → page.verifyChecksum forest.format ≠ .ok () →
      forest.verified.run lookup = before ++
        [.asked number,
          .given (.error (.checksum number page.header.checksum (page.checksum forest.format)))] := by
  constructor
  · intro hpasses
    rw [run_verified_eq_cut]
    exact Event.cut_of_clean fun number hasked => (hpasses number hasked).checksumFault?_eq
  · intro before number after page hrun hbefore hpage hwrong
    have hfault : forest.checksumFault? number =
        some (.checksum number page.header.checksum (page.checksum forest.format)) := by
      rw [checksumFault?_of_ok hpage, verifyChecksum_eq_error hwrong, number_of_pageAt hpage]
    rw [run_verified_eq_cut, hrun,
      Event.cut_append fun earlier hasked => (hbefore earlier hasked).checksumFault?_eq,
      Event.cut_asked_of_fault hfault]

/-- Three leaves in a chain. The checksum of the one in the middle is not that of its bytes. -/
def damagedPages : MemoryPages where
  pageSize := 72
  slots := 7
  stored := [
    (4, (PageImage.leaf 72 5 [[0x61]]).bytes),
    (5, leBytes 4 1 ++ (PageImage.leaf 72 6 [[0x62]]).bytes.drop 4),
    (6, (PageImage.leaf 72 0 [[0x63]]).bytes)]

def damaged : Forest := ⟨damagedPages.source, .standard⟩

theorem run_damaged :
    damaged.run (.leaves 4) = [.asked 4, .ready, .given (.ok (sampleValue 0x61 4 40 1)), .asked 5,
      .given (.ok (sampleValue 0x62 5 40 1)), .asked 6, .given (.ok (sampleValue 0x63 6 40 1))] := by
  have hopen : damaged.leaves 4 = ⟨[4], .ok (.reading none [sampleValue 0x61 4 40 1] 4 5 7)⟩ := rfl
  have hfirst : damaged.next (.reading none [sampleValue 0x61 4 40 1] 4 5 7) =
      ⟨[], (some (.ok (sampleValue 0x61 4 40 1)), .reading none [] 4 5 7)⟩ := rfl
  have hsecond : damaged.next (.reading none [] 4 5 7) =
      .visit 5 (some (.ok (sampleValue 0x62 5 40 1)), .reading none [] 5 6 6) := rfl
  have hthird : damaged.next (.reading none [] 5 6 6) =
      .visit 6 (some (.ok (sampleValue 0x63 6 40 1)), .reading none [] 6 0 5) := rfl
  have hend : damaged.next (.reading none [] 6 0 5) = ⟨[], (none, .ended)⟩ := rfl
  rw [run, readAll, hopen]
  simp only [Walk.events, Walk.visit, onward, readingEvents_eq, hfirst, hsecond, hthird, hend]
  rfl

theorem run_verified_sample :
    let first := sampleValue 0x61 4 40 1
    damaged.verified.run (.find 4 ⟨[0x61]⟩ .forward) = [.asked 4, .given (.ok (some first))] ∧
      ∃ calculated, damaged.verified.run (.leaves 4) = [.asked 4, .ready, .given (.ok first),
        .asked 5, .given (.error (.checksum 5 1 calculated))] := by
  intro first
  have hpasses : damaged.Passes 4 := by
    intro page hpage
    cases hpage
    rfl
  have hfind : damaged.run (.find 4 ⟨[0x61]⟩ .forward) = [.asked 4, .given (.ok (some first))] := by
    rw [run, find, search_eq_enter]
    rfl
  constructor
  · refine ((run_verified damaged (.find 4 ⟨[0x61]⟩ .forward)).1 fun number hasked => ?_).trans hfind
    rw [hfind] at hasked
    have hnumber : number = 4 := by simpa using hasked
    exact hnumber ▸ hpasses
  · refine ⟨_, (run_verified damaged (.leaves 4)).2 [.asked 4, .ready, .given (.ok first)] 5 _ _
      run_damaged (fun earlier hasked => ?_) rfl fun hverify => ?_⟩
    · have hearlier : earlier = 4 := by simpa using hasked
      exact hearlier ▸ hpasses
    · cases hverify

end Forest

end EseReader
