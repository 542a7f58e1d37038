import ScannerTables.Automaton.Basic
import ScannerTables.Traversal
/-!
# Epsilon closure

The closure of a state is what it reaches by epsilon moves. Closing an automaton replaces the
epsilon moves of each state by the members of its closure that move on some character, and makes a
state final if its closure holds a final state. States that only route to others then no longer
matter.
-/

namespace ScannerTables.Automaton

/-- The epsilon moves of an automaton. -/
def epsilonGraph (a : Automaton) : Graph := a.states.map (·.epsilon)

/-- The states reached from `id` by epsilon moves, itself included, in ascending order; all of them
must exist. -/
def closure (a : Automaton) (id : Nat) : Except Misuse (List Nat) := a.epsilonGraph.reachable id

/-- A state as closing leaves it: final if its closure holds a final state, and with the members of
the closure that have a range for its epsilon moves. -/
def closeState (a : Automaton) (s : State) (closure : List Nat) : State :=
  { s with
    epsilon := closure.filter fun id => (a.state? id).any (!·.ranges.isEmpty)
    isFinal := s.isFinal || closure.any fun id => (a.state? id).any (·.isFinal) }

/-- The closures of all states, in the order of the states. -/
def closures (a : Automaton) : Except Misuse (List (List Nat)) :=
  let g := a.epsilonGraph
  (List.range a.size).mapM g.reachable

/-- Closes every state; the epsilon moves must lead to states that exist. -/
def close (a : Automaton) : Except Misuse Automaton := do
  return { states := (a.states.toList.zipWith a.closeState (← a.closures)).toArray }

end ScannerTables.Automaton
