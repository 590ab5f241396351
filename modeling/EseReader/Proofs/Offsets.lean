import EseReader.Proofs.Row.Variable

/-!
# `EseReader/Proofs/Offsets.lean` — what a table of offsets divides

The index of tagged values and the table of a multi-value hold offsets of one kind: a value starts
at its own offset and ends where the next one starts, and the last value ends with the data. So both
divide their data alike, and under the same condition: with the end of the data behind them the
offsets are a chain, that is, they do not go back and the last one is inside.

Nothing is lost then. The values tile the data from the first offset on (`tiles_between`).
-/

set_option autoImplicit false

namespace EseReader

namespace Span

/-- The stretches from each start to the next one, and from the last one to `stop`. -/
def between (stop : Nat) : List Nat → List Span
  | [] => []
  | start :: starts => ⟨start, starts.headD stop⟩ :: between stop starts

variable {stop start : Nat} {starts : List Nat}

theorem length_between (stop : Nat) (starts : List Nat) :
    (between stop starts).length = starts.length := by
  induction starts with
  | nil => rfl
  | cons start starts ih => rw [between, List.length_cons, ih, List.length_cons]

theorem getElem?_between (stop : Nat) (starts : List Nat) (i : Nat) :
    (between stop starts)[i]? = starts[i]?.map fun start => ⟨start, starts[i + 1]?.getD stop⟩ := by
  induction starts generalizing i with
  | nil => rfl
  | cons start starts ih =>
    cases i with
    | zero =>
      rw [between, List.getElem?_cons_zero, List.getElem?_cons_zero, List.getElem?_cons_succ,
        Option.map_some, List.headD_eq_head?_getD, List.head?_eq_getElem?]
    | succ i => exact ih i

/-! ## Chains -/

theorem isChain_cons_append_iff :
    (start :: starts ++ [stop]).IsChain (· ≤ ·) ↔
      start ≤ starts.headD stop ∧ (starts ++ [stop]).IsChain (· ≤ ·) := by
  cases starts with
  | nil => exact List.isChain_cons_cons
  | cons next starts => exact List.isChain_cons_cons

/-- The condition said without the end of the data in the list. -/
theorem isChain_append_iff :
    (starts ++ [stop]).IsChain (· ≤ ·) ↔
      starts.Pairwise (· ≤ ·) ∧ starts.getLastD 0 ≤ stop := by
  rw [List.isChain_append, List.isChain_iff_pairwise, List.getLastD_eq_getLast?]
  refine and_congr_right fun _ => ?_
  rw [and_iff_right (List.isChain_singleton stop)]
  cases starts.getLast? with
  | none => simp
  | some last => simp

theorem tiles_between (h : (start :: starts ++ [stop]).IsChain (· ≤ ·)) :
    VariableRegion.Tiles start (between stop (start :: starts)) stop := by
  induction starts generalizing start with
  | nil => exact .cons (isChain_cons_append_iff.mp h).1 (.nil stop)
  | cons next starts ih =>
    obtain ⟨hstart, hnext⟩ := isChain_cons_append_iff.mp h
    exact .cons hstart (ih hnext)

theorem headD_le_of_isChain (h : (starts ++ [stop]).IsChain (· ≤ ·)) : starts.headD stop ≤ stop := by
  cases starts with
  | nil => exact Nat.le_refl stop
  | cons start starts => exact (tiles_between h).le

/-- **No byte behind the first start is lost.** -/
theorem flatten_cut_between {data : Bytes}
    (h : (start :: starts ++ [data.length]).IsChain (· ≤ ·)) :
    ((between data.length (start :: starts)).map (·.cut data)).flatten = data.drop start := by
  rw [(tiles_between h).flatten_cut data, Bytes.field, ← List.length_drop]
  exact List.take_length

end Span

end EseReader
