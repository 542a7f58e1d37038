import ScannerTables.Counting
import ScannerTables.Misuse
/-!
# Traversals

A graph lists the successors of each of its vertices, which are numbered from zero. There are two
ways to go through what is reachable from a vertex. A vertex without an entry in the graph ends
either with a misuse.

The preorder visits a vertex before its successors, the successors in the order of the list, and no
vertex twice. It keeps a stack of vertices that are still to be visited, on which a vertex may stand
several times, and ends because every visit leaves fewer vertices unmarked.

The flood only marks. A vertex is marked when it is put on the stack, so that it stands there once,
and the flood ends because every vertex taken from the stack was marked for it.
-/

namespace ScannerTables

/-- The successors of every vertex, by vertex number. -/
abbrev Graph := Array (List Nat)

/-- A mark for each vertex that has been visited. -/
abbrev Marks (size : Nat) := Vector Bool size

namespace Marks

variable {size : Nat}

/-- The marks when nothing has been visited. -/
def none : Marks size := Vector.replicate size false

/-- True if a vertex has been visited. -/
def isMarked (marks : Marks size) (n : Nat) : Bool := marks[n]?.getD false

/-- Marks one more vertex. -/
def mark (marks : Marks size) (n : Nat) (h : n < size) : Marks size := marks.set n true h

/-- The number of vertices that have not been visited. -/
def unmarked (marks : Marks size) : Nat := (List.range size).countP fun n => !marks.isMarked n

@[simp] theorem isMarked_none (n : Nat) : (none : Marks size).isMarked n = false := by
  rw [isMarked, none, Vector.getElem?_replicate]
  split <;> rfl

@[simp] theorem isMarked_mark {marks : Marks size} {n m : Nat} {h : n < size} :
    (marks.mark n h).isMarked m = (decide (m = n) || marks.isMarked m) := by
  rw [isMarked, mark, Vector.getElem?_set]
  by_cases hm : n = m
  · simp [hm]
  · simp [hm, Ne.symm hm, isMarked]

theorem unmarked_mark_lt {marks : Marks size} {n : Nat} (h : n < size)
    (hn : marks.isMarked n = false) : (marks.mark n h).unmarked < marks.unmarked := by
  refine countP_lt_countP ?_ (List.mem_range.2 h) ?_ ?_
  · intro m
    simp only [isMarked_mark, Bool.not_or, Bool.and_eq_true]
    exact And.right
  · simp
  · simp [hn]

/-- Marks the vertices of a list that are not marked yet and puts them on the stack. What is no
vertex cannot be marked and is put there too. -/
def pushNew (marks : Marks size) (stack : List Nat) : List Nat → Marks size × List Nat
  | [] => (marks, stack)
  | n :: ns =>
    if marks.isMarked n then marks.pushNew stack ns
    else if h : n < size then (marks.mark n h).pushNew (n :: stack) ns
    else marks.pushNew (n :: stack) ns

/-- Every vertex on the stack is paid for by its mark. -/
theorem unmarked_pushNew_le (marks : Marks size) (stack ns : List Nat) :
    (marks.pushNew stack ns).1.unmarked + (marks.pushNew stack ns).2.countP (· < size) ≤
      marks.unmarked + stack.countP (· < size) := by
  induction ns generalizing marks stack with
  | nil => exact Nat.le_refl _
  | cons n ns ih =>
      rw [pushNew]
      by_cases hn : marks.isMarked n = true
      · rw [if_pos hn]
        exact ih marks stack
      · rw [if_neg hn]
        by_cases h : n < size
        · have hlt := unmarked_mark_lt h (eq_false_of_ne_true hn)
          have hle := ih (marks.mark n h) (n :: stack)
          rw [List.countP_cons, if_pos (decide_eq_true h)] at hle
          rw [dif_pos h]
          omega
        · have hle := ih marks (n :: stack)
          rw [List.countP_cons, if_neg (by simpa using h)] at hle
          rw [dif_neg h]
          exact hle

end Marks

namespace Graph

/-- The preorder of what is reachable from the vertices on the stack, not through those already
marked. -/
def preorderFrom (g : Graph) (marks : Marks g.size) (stack : List Nat) :
    Except Misuse (List Nat) :=
  match hs : stack.dropWhile marks.isMarked with
  | [] => .ok []
  | n :: rest =>
    if h : n < g.size then
      (preorderFrom g (marks.mark n h) (g[n] ++ rest)).map (n :: ·)
    else .error .unknownId
termination_by marks.unmarked
decreasing_by
  refine Marks.unmarked_mark_lt h ?_
  have := List.head?_dropWhile_not marks.isMarked stack
  rw [hs] at this
  simpa using this

/-- The vertices reachable from `start`, itself included, in depth-first preorder. -/
def preorder (g : Graph) (start : Nat) : Except Misuse (List Nat) :=
  g.preorderFrom .none [start]

/-- Marks what is reachable from the vertices on the stack, which are marked already. -/
def floodFrom (g : Graph) (marks : Marks g.size) : List Nat → Except Misuse (Marks g.size)
  | [] => .ok marks
  | n :: rest =>
    if h : n < g.size then
      let next := marks.pushNew rest g[n]
      floodFrom g next.1 next.2
    else .error .unknownId
termination_by stack => marks.unmarked + stack.countP (· < g.size)
decreasing_by
  have hle := Marks.unmarked_pushNew_le marks rest g[n]
  rw [List.countP_cons, if_pos (decide_eq_true h)]
  omega

/-- The vertices reachable from `start`, itself included, in ascending order. -/
def reachable (g : Graph) (start : Nat) : Except Misuse (List Nat) := do
  let first : Marks g.size × List Nat := Marks.none.pushNew [] [start]
  return (List.range g.size).filter (← g.floodFrom first.1 first.2).isMarked

end Graph
end ScannerTables
