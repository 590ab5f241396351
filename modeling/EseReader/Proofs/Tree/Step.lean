import EseReader.Proofs.Key.Order
import EseReader.Tree.Find

/-!
# `EseReader/Proofs/Tree/Step.lean` — what one step of a search can do

A step in a branch tries the entries from a position on and takes the first one that covers the
target. What it does is said here without the positions in between: either no entry from the
position on covers the target (`step_branch_none`), or there is a first one that does
(`step_branch_first`), and there is no third case (`none_or_first`).

`of_step_searching` is the same read backwards: all that a search can have done if it goes on behind
a step. What holds on every path of a search is shown with it alone.
-/

set_option autoImplicit false

namespace EseReader

namespace Find

variable {order : KeyOrder} {target : Key} {here : Position} {above path : List Position}
  {page : PageNumber} {start : Nat} {entries before after : List BranchEntry} {entry : BranchEntry}

/-- From `start` on, `entry` is the first entry of a branch that covers the target: it stands behind
the entries `before`, and in front of the entries `after`. -/
structure IsFirst (order : KeyOrder) (target : Key) (start : Nat) (before : List BranchEntry)
    (entry : BranchEntry) : Prop where
  start_le : start ≤ before.length
  passed : ∀ other ∈ before.drop start, order.covers other.key target = false
  covers : order.covers entry.key target = true

theorem none_or_first (order : KeyOrder) (target : Key) (start : Nat) (entries : List BranchEntry) :
    (∀ entry ∈ entries.drop start, order.covers entry.key target = false) ∨
      ∃ before entry after, entries = before ++ entry :: after ∧
        IsFirst order target start before entry := by
  cases hfind : (entries.drop start).find? (order.covers ·.key target) with
  | none => exact .inl (by simpa using List.find?_eq_none.mp hfind)
  | some entry =>
    obtain ⟨hcovers, passed, after, hsplit, hpassed⟩ := List.find?_eq_some_iff_append.mp hfind
    have hstart : start ≤ entries.length := by
      have hlength := congrArg List.length hsplit
      rw [List.length_drop, List.length_append, List.length_cons] at hlength
      omega
    have hfront : (entries.take start).length = start := List.length_take_of_le hstart
    refine .inr ⟨entries.take start ++ passed, entry, after, ?_, ?_, ?_, hcovers⟩
    · rw [List.append_assoc, ← hsplit, List.take_append_drop]
    · rw [List.length_append, hfront]
      exact Nat.le_add_right _ _
    · rw [List.drop_left' hfront]
      simpa using hpassed

theorem find?_zipIdx_eq_none (h : ∀ entry ∈ entries, order.covers entry.key target = false) :
    (entries.zipIdx start).find? (order.covers ·.1.key target) = none := by
  refine List.find?_eq_none.mpr fun pair hpair => ?_
  rw [h pair.1 (List.fst_mem_of_mem_zipIdx hpair)]
  exact Bool.false_ne_true

theorem step_branch_none
    (h : ∀ entry ∈ entries.drop start, order.covers entry.key target = false) :
    step order target ⟨page, start⟩ above (.branch entries) = .ok (.searching above) := by
  simp only [step, find?_zipIdx_eq_none h]

theorem step_branch_first (h : IsFirst order target start before entry) :
    step order target ⟨page, start⟩ above (.branch (before ++ entry :: after)) =
      if Forest.maxDepth < above.length + 2 then .error (.tree page (.tooDeep Forest.maxDepth))
      else .ok (.searching (⟨entry.child, 0⟩ ::
        ⟨page, resumption order target entry.key before.length (before ++ entry :: after).length⟩ ::
        above)) := by
  have hfirst : (((before ++ entry :: after).drop start).zipIdx start).find?
      (order.covers ·.1.key target) = some (entry, before.length) := by
    have hindex : start + (before.drop start).length = before.length := by
      rw [List.length_drop]
      exact Nat.add_sub_of_le h.start_le
    rw [List.drop_append_of_le_length h.start_le, List.zipIdx_append, List.find?_append, hindex]
    rw [find?_zipIdx_eq_none h.passed, Option.none_or, List.zipIdx_cons]
    exact List.find?_cons_of_pos h.covers
  simp only [step, hfirst]

/-- **A search goes on in one of two ways**: with the rest of its path, or into a child of the branch
it stands in, which then stays on the path. -/
theorem of_step_searching {body : NodeBody}
    (h : step order target here above body = .ok (.searching path)) :
    path = above ∨
      ∃ before entry after, body = .branch (before ++ entry :: after) ∧
        IsFirst order target here.start before entry ∧ above.length + 2 ≤ Forest.maxDepth ∧
        path = ⟨entry.child, 0⟩ ::
          ⟨here.page,
            resumption order target entry.key before.length (before ++ entry :: after).length⟩ ::
          above := by
  cases body with
  | leaf values =>
    simp only [step] at h
    split at h
    · cases h
      exact .inl rfl
    · split at h <;> cases h
  | branch entries =>
    rcases none_or_first order target here.start entries with
      hnone | ⟨before, entry, after, rfl, hfirst⟩
    · rw [step_branch_none hnone] at h
      cases h
      exact .inl rfl
    · rw [step_branch_first hfirst] at h
      split at h
      case isTrue => cases h
      case isFalse hroom =>
        cases h
        exact .inr ⟨before, entry, after, rfl, hfirst, Nat.not_lt.mp hroom, rfl⟩

end Find

end EseReader
