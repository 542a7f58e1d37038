import ScannerTables.IntervalSet
import ScannerTables.Unicode.CaseMapping
/-!
# Automaton states

A state moves to its successor on a character of its ranges, and to any of its epsilon targets
without one. The ranges of a state are kept in ascending order, which the queries rely on: a
character is found by binary search, and the ranges that reach into ASCII are a leading part.
-/

namespace ScannerTables

open Unicode

/-- A state of an automaton; states are known by their numbers. -/
structure State where
  /-- The token that the state was made for. -/
  token : Option Nat := none
  /-- The state that follows a character of the ranges. -/
  next : Option Nat := none
  /-- States reached without a character, ascending. -/
  epsilon : List Nat := []
  /-- The characters that the state moves on, as ascending ranges. -/
  ranges : List Interval := []
  /-- True if the token is complete here. -/
  isFinal : Bool := false
deriving DecidableEq

namespace State

instance : Inhabited State := ⟨{}⟩

/-! ### Changes -/

/-- Adds a range, which must lie above the ranges already there. A program checks that in debug
builds only; here it is always checked. -/
def addRange (s : State) (lo hi : Nat) : Except Misuse State := do
  if s.ranges.getLast?.any fun last => lo ≤ last.hi then throw .unorderedRange
  return { s with ranges := s.ranges ++ [← Interval.between lo hi] }

/-- A character with its case counterparts, ascending. -/
def caseVariants (c : Nat) : List Nat := (IntervalSet.ofList [upper c, lower c, c]).toList

/-- Makes the state move on `c`, and on its case counterparts if case is ignored, alone. -/
def setCharMove (s : State) (c : Nat) (ignoreCase : Bool) : State :=
  { s with ranges := (if ignoreCase then caseVariants c else [c]).map .single }

/-- Puts a number into an ascending list, once. -/
def insertSorted (n : Nat) : List Nat → List Nat
  | [] => [n]
  | m :: l => if n < m then n :: m :: l else if n = m then m :: l else m :: insertSorted n l

/-- Adds an epsilon move. -/
def addEpsilon (s : State) (target : Nat) : State :=
  { s with epsilon := insertSorted target s.epsilon }

/-! ### Queries -/

/-- The leading ranges that start below 128; one that reaches past 127 ends the list. -/
def asciiPart : List Interval → List Interval
  | [] => []
  | i :: l => if 128 ≤ i.lo then [] else if 128 ≤ i.hi then [i] else i :: asciiPart l

/-- The ranges that start in ASCII. -/
def asciiRanges (s : State) : List Interval := asciiPart s.ranges

/-- The ranges that follow those that start in ASCII. -/
def nonAsciiRanges (s : State) : List Interval := s.ranges.drop s.asciiRanges.length

/-- True if the state moves on some ASCII character. -/
def hasAsciiMoves (s : State) : Bool := s.ranges.head?.any fun i => i.lo < 128

/-- True if the state moves on some character past ASCII. -/
def hasNonAsciiMoves (s : State) : Bool := s.ranges.getLast?.any fun i => 128 ≤ i.hi

/-- Binary search for the range of an ascending list that holds `c`. -/
def search (c : Nat) (l : List Interval) : Bool :=
  match h : l[l.length / 2]? with
  | none => false
  | some i =>
    if c < i.lo then search c (l.take (l.length / 2))
    else if i.hi < c then search c (l.drop (l.length / 2 + 1))
    else true
termination_by l.length
decreasing_by
  all_goals
    have := (List.getElem?_eq_some_iff.1 h).1
    simp only [List.length_take, List.length_drop]
    omega

/-- True if the state moves on `c`. -/
def accepts (s : State) (c : Nat) : Bool := search c s.ranges

/-- True if two states have a character in common on which both move. -/
def sharesMove (s t : State) : Bool :=
  (IntervalSet.ofIntervals s.ranges).intersects (IntervalSet.ofIntervals t.ranges)

/-- True if some of the other states, given with their numbers, has the number `id` of the state or
has a character in common with it. -/
def overlaps (s : State) (id : Nat) (others : List (Nat × State)) : Bool :=
  others.any fun (other, t) => other = id || s.sharesMove t

end State
end ScannerTables
