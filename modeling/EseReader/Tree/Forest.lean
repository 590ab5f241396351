import EseReader.Source
import EseReader.Tree.Node

/-!
# `EseReader/Tree/Forest.lean` — the trees of a page source

The pages of a source hold many trees; each is known by the number of its root page. A `Forest` is
a source together with the dialect its pages are read in.

Looking something up means asking the source for one page after the other. A `Walk` is what came of
that **together with the pages that were asked for**, in order, those that could not be read
included: which pages a search touches is part of what the theory is about.
-/

set_option autoImplicit false

namespace EseReader

/-- A result and the pages that were asked for to get it. -/
structure Walk (α : Type) where
  visited : List PageNumber
  value : α

namespace Walk

variable {α β : Type}

/-- The walk that asks for `page` first. -/
def after (walk : Walk α) (page : PageNumber) : Walk α := ⟨page :: walk.visited, walk.value⟩

/-- The walk that only asks for `page`. -/
def visit (page : PageNumber) (value : α) : Walk α := ⟨[page], value⟩

instance : Monad Walk where
  pure value := ⟨[], value⟩
  bind walk next := ⟨walk.visited ++ (next walk.value).visited, (next walk.value).value⟩

@[simp] theorem visited_pure (a : α) : (pure a : Walk α).visited = [] := rfl

@[simp] theorem value_pure (a : α) : (pure a : Walk α).value = a := rfl

@[simp] theorem visited_bind (walk : Walk α) (next : α → Walk β) :
    (walk >>= next).visited = walk.visited ++ (next walk.value).visited := rfl

@[simp] theorem value_bind (walk : Walk α) (next : α → Walk β) :
    (walk >>= next).value = (next walk.value).value := rfl

@[simp] theorem visited_after (walk : Walk α) (page : PageNumber) :
    (walk.after page).visited = page :: walk.visited := rfl

@[simp] theorem value_after (walk : Walk α) (page : PageNumber) :
    (walk.after page).value = walk.value := rfl

end Walk

/-- The trees in a page source. -/
structure Forest where
  source : PageSource
  format : Format

namespace Forest

/-- No path from a root to a leaf has more pages than this. -/
def maxDepth : Nat := 64

/-- The page `number` as a node. -/
def node (forest : Forest) (number : PageNumber) : Except Error Node := do
  Node.ofBytes number (← forest.source.page number) forest.format

theorem entries_length_lt_of_node {forest : Forest} {number : PageNumber} {node : Node}
    (h : forest.node number = .ok node) : node.entries.length < 0x10000 := by
  obtain ⟨data, _, h⟩ := bind_eq_ok_iff.mp h
  exact Node.entries_length_lt_of_ofBytes h

end Forest

end EseReader
