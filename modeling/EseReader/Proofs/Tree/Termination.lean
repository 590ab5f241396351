import EseReader.Tree.Find
import Mathlib.Logic.Function.Iterate

/-!
# `EseReader/Proofs/Tree/Termination.lean` — a search ends on any source, and stays shallow

`Forest.search` is a total function because `Find.effort` says so, and that is not yet a statement
about the **loop** that it stands for. Here the loop is taken apart: `Forest.iterate` does what one
iteration does to the path, and can be repeated as often as one likes, whether anything bounds the
repetitions or not. Then two things are shown of the states that the loop passes through. It comes
to an end, which is the result of the search (`iterate_search`), and no path on the way is longer
than `maxDepth` (`frames_iterate_le`). An iteration first takes a position off and only then puts
positions on, so the path is never longer inside an iteration than at one of its ends.

Nothing is assumed of the pages: they may point to themselves or to each other, share their
subtrees, hold keys in any order, or be missing.
-/

set_option autoImplicit false

namespace EseReader

namespace Find

/-- Where the loop of a search stands. -/
inductive State where
  /-- In front of an iteration that takes the first position off this path. -/
  | searching (path : List Position)
  | ended (result : Except Error (Option LeafValue))

/-- The number of positions that the loop holds. -/
def State.frames : State → Nat
  | searching path => path.length
  | ended _ => 0

variable {order : KeyOrder} {target : Key} {here : Position} {above path : List Position}
  {body : NodeBody}

/-- A step takes one position off the path and puts two on it, or none. It puts two on it only after
it has seen that there is room for both. -/
theorem length_step_le (h : step order target here above body = .ok (.searching path)) :
    path.length ≤ max above.length Forest.maxDepth := by
  unfold step at h
  cases body with
  | leaf values =>
    simp only at h
    split at h
    · cases h
      exact Nat.le_max_left _ _
    · split at h <;> cases h
  | branch entries =>
    simp only at h
    split at h
    · cases h
      exact Nat.le_max_left _ _
    · split at h
      case isTrue => cases h
      case isFalse hroom =>
        cases h
        rw [List.length_cons, List.length_cons]
        exact Nat.le_trans (Nat.not_lt.mp hroom) (Nat.le_max_right _ _)

end Find

namespace Forest

open Find

variable {forest : Forest} {order : KeyOrder} {target : Key}

/-- One iteration of the loop. -/
def iterate (forest : Forest) (order : KeyOrder) (target : Key) : State → State
  | .ended result => .ended result
  | .searching [] => .ended (.ok none)
  | .searching (here :: above) =>
    match forest.node here.page with
    | .error e => .ended (.error e)
    | .ok node =>
      match step order target here above node.body with
      | .error e => .ended (.error e)
      | .ok (.found value) => .ended (.ok (some value))
      | .ok .missing => .ended (.ok none)
      | .ok (.searching path) => .searching path

/-! ## The loop ends -/

theorem iterate_ended (result : Except Error (Option LeafValue)) (count : Nat) :
    (forest.iterate order target)^[count] (.ended result) = .ended result :=
  Function.iterate_fixed rfl count

/-- **The loop ends, and with the result of the search.** Each iteration but the one that finds the
path empty asks for one page. -/
theorem iterate_search (path : List Position) :
    (forest.iterate order target)^[(forest.search order target path).visited.length + 1]
      (.searching path) = .ended (forest.search order target path).value := by
  fun_induction search forest order target path with
  | case1 => rfl
  | case2 here above e hnode =>
    rw [Function.iterate_succ_apply, iterate, hnode]
    exact iterate_ended _ _
  | case3 here above node hnode e hstep =>
    rw [Function.iterate_succ_apply, iterate, hnode]
    simp only [hstep]
    exact iterate_ended _ _
  | case4 here above node hnode value hstep =>
    rw [Function.iterate_succ_apply, iterate, hnode]
    simp only [hstep]
    exact iterate_ended _ _
  | case5 here above node hnode hstep =>
    rw [Function.iterate_succ_apply, iterate, hnode]
    simp only [hstep]
    exact iterate_ended _ _
  | case6 here above node hnode path hstep ih =>
    rw [Function.iterate_succ_apply, iterate, hnode]
    simp only [hstep]
    exact ih

theorem length_visited_search_le (path : List Position) :
    (forest.search order target path).visited.length ≤ effort path := by
  fun_induction search forest order target path with
  | case1 => exact Nat.le_refl 0
  | case2 here above | case3 here above | case4 here above | case5 here above =>
    exact Nat.lt_of_le_of_lt (Nat.zero_le _) (effort_lt_cons here above)
  | case6 here above node hnode path hstep ih =>
    rw [Walk.visited_after, List.length_cons]
    exact Nat.lt_of_le_of_lt ih (effort_step_lt (entries_length_lt_of_node hnode) hstep)

/-- The effort of a search from the root does not depend on any page. -/
theorem effort_root (root : PageNumber) :
    effort [⟨root, 0⟩] = (0x10000 + 1) * Find.base.pow maxDepth := by
  rw [effort, effort, Nat.add_zero, List.length_nil, Nat.sub_zero, Nat.sub_zero]

/-! ## The path stays short -/

theorem frames_iterate_le {state : State} (h : state.frames ≤ maxDepth) :
    (forest.iterate order target state).frames ≤ maxDepth := by
  match state with
  | .ended result => exact h
  | .searching [] => exact Nat.zero_le _
  | .searching (here :: above) =>
    have habove : above.length ≤ maxDepth := Nat.le_of_succ_le h
    rw [iterate]
    split
    · exact Nat.zero_le _
    · split
      case h_4 path hstep =>
        exact Nat.le_trans (length_step_le hstep) (Nat.max_le.mpr ⟨habove, Nat.le_refl _⟩)
      all_goals exact Nat.zero_le _

theorem frames_iterate_run_le {state : State} (h : state.frames ≤ maxDepth) (count : Nat) :
    ((forest.iterate order target)^[count] state).frames ≤ maxDepth := by
  induction count generalizing state with
  | zero => exact h
  | succ count ih =>
    rw [Function.iterate_succ_apply]
    exact ih (frames_iterate_le h)

/-- **A search ends on every source of pages**, with a value, with nothing or with an error. Its loop
is over after as many iterations as pages were asked for and at most one more, which is a number
that does not depend on the pages; and at no time is the path longer than `maxDepth`. -/
theorem find_ends (forest : Forest) (root : PageNumber) (key : Key) (order : KeyOrder) :
    (forest.iterate order key)^[(forest.find root key order).visited.length + 1]
        (.searching [⟨root, 0⟩]) = .ended (forest.find root key order).value ∧
      (forest.find root key order).visited.length ≤ (0x10000 + 1) * Find.base.pow maxDepth ∧
      ∀ count, ((forest.iterate order key)^[count] (.searching [⟨root, 0⟩])).frames ≤ maxDepth := by
  have hroot : (State.searching [⟨root, 0⟩]).frames ≤ maxDepth := by
    show 1 ≤ 64
    omega
  refine ⟨iterate_search _, ?_, frames_iterate_run_le hroot⟩
  rw [← effort_root root]
  exact length_visited_search_le _

end Forest

end EseReader
