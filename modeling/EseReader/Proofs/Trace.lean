import EseReader.LongValue

/-!
# `EseReader/Proofs/Trace.lean` — a run told event by event

A `Walk` keeps apart what is one story for whoever watches: the pages that were asked for, and what
came of them. That is enough for a lookup with one result. A reading gives its values **in between**,
and which page was asked for before which value is not said by either list alone.

So here a run is a list of events. `Forest.run` has the run of each lookup that asks a source for
pages, a reading being run to its end, and whatever takes the items of a reading one after the other
is a function of its events (`fold_eq_consume`).

`Event.cut` is what becomes of a run if some pages cannot be had: the events up to the first of
those pages, and then an error. `Walk.cut` is the same of a walk.
-/

set_option autoImplicit false

namespace EseReader

/-- What can be seen of a run. -/
inductive Event (α : Type) where
  | asked (page : PageNumber)
  /-- A reading stands in front of its first item. -/
  | ready
  | given (item : Except Error α)

namespace Event

variable {α β : Type} {fault : PageNumber → Option Error} {events before after : List (Event α)}
  {page : PageNumber} {e : Error}

/-- The events of a run for which a page with a fault is not to be had: that page is the last one
asked for, and its fault is what the run ends with. -/
def cut (fault : PageNumber → Option Error) : List (Event α) → List (Event α)
  | [] => []
  | asked page :: events =>
    match fault page with
    | some e => [asked page, given (.error e)]
    | none => asked page :: cut fault events
  | ready :: events => ready :: cut fault events
  | given item :: events => given item :: cut fault events

theorem cut_asked_of_fault (h : fault page = some e) :
    cut fault (asked page :: events) = [asked page, given (.error e)] := by
  rw [cut, h]

theorem cut_asked_of_none (h : fault page = none) :
    cut fault (asked page :: events) = asked page :: cut fault events := by
  rw [cut, h]

/-- Events without a fault stay, whatever is behind them. -/
theorem cut_append (hbefore : ∀ page, asked page ∈ before → fault page = none) :
    cut fault (before ++ after) = before ++ cut fault after := by
  induction before with
  | nil => rfl
  | cons event before ih =>
    have hrest := ih fun page hpage => hbefore page (List.mem_cons_of_mem _ hpage)
    cases event with
    | asked page =>
      have hnone := hbefore page List.mem_cons_self
      rw [List.cons_append, List.cons_append, cut_asked_of_none hnone, hrest]
    | ready => exact congrArg (ready :: ·) hrest
    | given item => exact congrArg (given item :: ·) hrest

theorem cut_of_clean (h : ∀ page, asked page ∈ events → fault page = none) :
    cut fault events = events := by
  have hcut : cut fault (events ++ []) = events ++ cut fault [] := cut_append h
  rwa [List.append_nil, cut, List.append_nil] at hcut

/-- Takes the items among some events into `state`, until there are no more or `take` has enough. No
page is asked for after that. -/
def consume (take : β → Except Error α → Flow β) (state : β) : List (Event α) → Walk β
  | [] => ⟨[], state⟩
  | asked page :: events => (consume take state events).after page
  | ready :: events => consume take state events
  | given item :: events =>
    match take state item with
    | .enough state => ⟨[], state⟩
    | .more state => consume take state events

theorem consume_enough {take : β → Except Error α → Flow β} {state stop : β} {item : Except Error α}
    (h : take state item = .enough stop) : consume take state (given item :: events) = ⟨[], stop⟩ := by
  rw [consume, h]

theorem consume_more {take : β → Except Error α → Flow β} {state more : β} {item : Except Error α}
    (h : take state item = .more more) :
    consume take state (given item :: events) = consume take more events := by
  rw [consume, h]

theorem consume_asked (take : β → Except Error α → Flow β) (state : β) (pages : List PageNumber) :
    consume take state (pages.map asked ++ events) =
      ⟨pages ++ (consume take state events).visited, (consume take state events).value⟩ := by
  induction pages with
  | nil => rfl
  | cons page pages ih => rw [List.map_cons, List.cons_append, consume, ih]; rfl

end Event

/-! ## Walks -/

namespace Walk

variable {α β : Type} {fault : PageNumber → Option Error} {fail : Error → α} {page : PageNumber}
  {e : Error}

/-- The walk for which a page with a fault is not to be had: it ends there, with what `fail` makes of
the fault. -/
def cut (fault : PageNumber → Option Error) (fail : Error → α) (walk : Walk α) : Walk α :=
  walk.visited.foldr
    (fun page rest =>
      match fault page with
      | some e => .visit page (fail e)
      | none => rest.after page)
    ⟨[], walk.value⟩

theorem cut_nil (value : α) : cut fault fail ⟨[], value⟩ = ⟨[], value⟩ := rfl

theorem cut_after_of_fault (h : fault page = some e) (walk : Walk α) :
    (walk.after page).cut fault fail = .visit page (fail e) := by
  rw [cut, visited_after, List.foldr_cons, h]

theorem cut_after_of_none (h : fault page = none) (walk : Walk α) :
    (walk.after page).cut fault fail = (walk.cut fault fail).after page := by
  rw [cut, visited_after, List.foldr_cons, h]
  rfl

/-- One walk behind another. If the first one is cut, the second one has nothing to add. -/
theorem cut_bind {failFirst : Error → β} {first : Walk β} {next next' : β → Walk α}
    (hfail : ∀ e, next' (failFirst e) = pure (fail e))
    (hnext : next' first.value = (next first.value).cut fault fail) :
    first.cut fault failFirst >>= next' = (first >>= next).cut fault fail := by
  obtain ⟨pages, value⟩ := first
  induction pages with
  | nil => exact hnext
  | cons page pages ih =>
    show ((Walk.mk pages value).after page).cut fault failFirst >>= next' =
      ((Walk.mk pages value >>= next).after page).cut fault fail
    cases hfault : fault page with
    | none =>
      rw [cut_after_of_none hfault, cut_after_of_none hfault, ← ih hnext]
      rfl
    | some e =>
      rw [cut_after_of_fault hfault, cut_after_of_fault hfault]
      show (next' (failFirst e)).after page = visit page (fail e)
      rw [hfail]
      rfl

/-- The events of a walk, and then those that `go` knows of its value. -/
def events (walk : Walk α) (go : α → List (Event β)) : List (Event β) :=
  walk.visited.map .asked ++ go walk.value

theorem events_cut {go go' : α → List (Event β)} {walk : Walk α}
    (hfail : ∀ e, go' (fail e) = [.given (.error e)])
    (hgo : go' walk.value = Event.cut fault (go walk.value)) :
    (walk.cut fault fail).events go' = Event.cut fault (walk.events go) := by
  obtain ⟨pages, value⟩ := walk
  induction pages with
  | nil => exact hgo
  | cons page pages ih =>
    show (((Walk.mk pages value).after page).cut fault fail).events go' =
      Event.cut fault (.asked page :: (Walk.mk pages value).events go)
    cases hfault : fault page with
    | none =>
      rw [cut_after_of_none hfault, Event.cut_asked_of_none hfault, ← ih hgo]
      rfl
    | some e =>
      rw [cut_after_of_fault hfault, Event.cut_asked_of_fault hfault, ← hfail e]
      rfl

end Walk

namespace Event

variable {β : Type} {fault : PageNumber → Option Error}

/-- Whatever is over with the first error it takes, takes the error that a run is cut with. The states
in which it is not over are those that are `going`. -/
theorem consume_cut {take : β → Except Error LeafValue → Flow β} {fail : Error → β} (going : β → Prop)
    (htake : ∀ state e, going state → take state (.error e) = .enough (fail e))
    (hmore : ∀ state item more, take state item = .more more → going more) {state : β}
    (hstate : going state) (events : List (Event LeafValue)) :
    consume take state (cut fault events) = (consume take state events).cut fault fail := by
  induction events generalizing state with
  | nil => rfl
  | cons event events ih =>
    cases event with
    | asked page =>
      cases hfault : fault page with
      | none =>
        rw [cut_asked_of_none hfault, consume, consume, ih hstate, Walk.cut_after_of_none hfault]
      | some e =>
        rw [cut_asked_of_fault hfault, consume, consume, consume_enough (htake state e hstate),
          Walk.cut_after_of_fault hfault]
        rfl
    | ready => exact ih hstate
    | given item =>
      rw [cut]
      cases hitem : take state item with
      | enough stop =>
        rw [consume_enough hitem, consume_enough hitem]
        rfl
      | more more =>
        rw [consume_more hitem, consume_more hitem]
        exact ih (hmore state item more hitem)

end Event

/-! ## Lookups -/

/-- What a source can be asked about a tree. -/
inductive Lookup where
  | find (root : PageNumber) (key : Key) (order : KeyOrder)
  | leaves (root : PageNumber)
  | seek (root : PageNumber) (key : Key)
  | longValue (root : PageNumber) (key : LongValueKey)

/-- What a lookup gives, or what a reading gives one by one. -/
def Lookup.Answer : Lookup → Type
  | find .. => Option LeafValue
  | leaves _ => LeafValue
  | seek .. => LeafValue
  | longValue .. => Option LongValue

namespace Forest

variable {forest : Forest}

/-- A reading to its end. -/
def readingEvents (forest : Forest) (cursor : LeafCursor) : List (Event LeafValue) :=
  match _ : forest.next cursor with
  | ⟨visited, none, _⟩ => visited.map .asked
  | ⟨visited, some item, cursor⟩ =>
    visited.map .asked ++ .given item :: forest.readingEvents cursor
termination_by cursor.remaining
decreasing_by exact remaining_next_lt (congrArg Walk.value ‹_›)

/-- The events of a reading behind one step of it. -/
def onward (forest : Forest) :
    Option (Except Error LeafValue) × LeafCursor → List (Event LeafValue)
  | (none, _) => []
  | (some item, cursor) => .given item :: forest.readingEvents cursor

theorem readingEvents_eq (cursor : LeafCursor) :
    forest.readingEvents cursor = (forest.next cursor).events forest.onward := by
  rw [readingEvents]
  split <;> rename_i hnext
  · rw [hnext, Walk.events, onward, List.append_nil]
  · rw [hnext]
    rfl

/-- **Taking the items of a reading one by one takes them from its events.** -/
theorem fold_eq_consume {β : Type} (take : β → Except Error LeafValue → Flow β) (state : β)
    (cursor : LeafCursor) :
    forest.fold take state cursor = Event.consume take state (forest.readingEvents cursor) := by
  fun_induction fold forest take state cursor with
  | case1 state cursor visited _ hnext =>
    rw [readingEvents_eq, hnext, Walk.events, Event.consume_asked, onward, Event.consume,
      List.append_nil]
  | case2 state cursor visited item after hnext stop htake =>
    rw [readingEvents_eq, hnext, Walk.events, Event.consume_asked, onward,
      Event.consume_enough htake, List.append_nil]
  | case3 state cursor visited item after hnext more htake _ ih =>
    rw [readingEvents_eq, hnext, Walk.events, Event.consume_asked, onward,
      Event.consume_more htake, ← ih]

/-- The reading that some descent leads to. -/
def readAll (forest : Forest) (opening : Walk (Except Error LeafCursor)) :
    List (Event LeafValue) :=
  opening.events fun
    | .error e => [.given (.error e)]
    | .ok cursor => .ready :: forest.readingEvents cursor

/-- All that can be seen of a lookup. Readings are run to their end. -/
def run (forest : Forest) : (lookup : Lookup) → List (Event lookup.Answer)
  | .find root key order => (forest.find root key order).events fun result => [.given result]
  | .leaves root => forest.readAll (forest.leaves root)
  | .seek root key => forest.readAll (forest.seek root key)
  | .longValue root key => (forest.longValue root key).events fun result => [.given result]

end Forest

end EseReader
