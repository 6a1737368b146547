/-
Module: FlatDae.DependencyOrder
Purpose: Ordering the nodes of a finite graph so that each comes after those it refers to. The
  search goes depth first from node 0, 1, … in turn and follows the references of a node in their
  order; it fails on the first cycle it closes and then names it. Each step of the search either
  reaches a new node or uses up a reference, which is why it ends.
Main exports: Mark, Search.run, dependencyOrder
-/

namespace FlatDae

/-- How far the search has come with a node: not reached, on the way down to the present one, or
    placed in the order. -/
inductive Mark where
  | new
  | active
  | done
deriving DecidableEq, Repr, Inhabited

namespace Search

/-- The nodes on the way down, the present one first, each with the references still to follow. -/
abbrev Path := List (Nat × List Nat)

/-- The nodes and references on a path. -/
def pathWeight : Path → Nat
  | [] => 0
  | step :: path => step.2.length + 1 + pathWeight path

/-- The nodes from `node` down the path, with `node` once more at the end. -/
def cycleFrom (path : Path) (node : Nat) : List Nat :=
  (path.map Prod.fst).reverse.dropWhile (· != node) ++ [node]

/-- Placing a node or entering one does not make nodes new. -/
theorem count_new_setIfInBounds_le (marks : Array Mark) (i : Nat) (mark : Mark)
    (h : mark ≠ .new) : (marks.setIfInBounds i mark).count .new ≤ marks.count .new := by
  unfold Array.setIfInBounds
  split
  · have other : (mark == Mark.new) = false := by simpa using h
    simp only [Array.count_set, other]
    split <;> simp
  · exact Nat.le_refl _

/-- Entering a new node leaves one new node less. -/
theorem count_new_set_active_lt (marks : Array Mark) (i : Nat) (h : i < marks.size)
    (hnew : marks[i] = .new) : (marks.set i .active).count .new < marks.count .new := by
  have positive : 0 < marks.count .new :=
    Array.count_pos_iff.2 (hnew ▸ Array.getElem_mem h)
  rw [Array.count_set, if_pos (by simp [hnew]), if_neg (by decide)]
  omega

/-- Follows the path to its end. `deps[i]` lists what node `i` refers to. -/
def run (deps : Array (List Nat)) :
    Path → Array Mark → Array Nat → Except (List Nat) (Array Mark × Array Nat)
  | [], marks, order => .ok (marks, order)
  | (node, []) :: path, marks, order =>
    run deps path (marks.setIfInBounds node .done) (order.push node)
  | (node, child :: more) :: path, marks, order =>
    if h : child < marks.size then
      match hmark : marks[child] with
      | .new =>
        run deps ((child, deps.getD child []) :: (node, more) :: path)
          (marks.set child .active) order
      | .active => .error (cycleFrom ((node, more) :: path) child)
      | .done => run deps ((node, more) :: path) marks order
    else run deps ((node, more) :: path) marks order
termination_by path marks => (marks.count .new, pathWeight path)
decreasing_by
  · have := count_new_setIfInBounds_le marks node .done (by decide)
    simp only [pathWeight, Prod.lex_def]
    omega
  · exact Prod.Lex.left _ _ (count_new_set_active_lt marks child h hmark)
  · exact Prod.Lex.right _ (by simp [pathWeight])
  · exact Prod.Lex.right _ (by simp [pathWeight])

/-- Starts from each of the given nodes that is still new. -/
def runAll (deps : Array (List Nat)) :
    List Nat → Array Mark → Array Nat → Except (List Nat) (Array Nat)
  | [], _, order => .ok order
  | root :: roots, marks, order =>
    if marks[root]? == some .new then
      match run deps [(root, deps.getD root [])] (marks.setIfInBounds root .active) order with
      | .error cycle => .error cycle
      | .ok (marks, order) => runAll deps roots marks order
    else runAll deps roots marks order

end Search

/-- All nodes of the graph, each after those it refers to, or the nodes along a cycle, the first of
    them again at the end. -/
def dependencyOrder (deps : Array (List Nat)) : Except (List Nat) (Array Nat) :=
  Search.runAll deps (List.range deps.size) (Array.replicate deps.size .new) #[]

end FlatDae
