import ScannerTables.Automaton.State
/-!
# Nondeterministic automata

An automaton is a growing store of states; a state's number is its position. Moves may be added to
states that are not there yet: whether a target exists is asked only when the move is followed.
-/

namespace ScannerTables

/-- The states of an automaton by number. -/
structure Automaton where
  states : Array State := #[]
deriving DecidableEq

namespace Automaton

instance : Inhabited Automaton := ⟨{}⟩

/-- The number of states. -/
def size (a : Automaton) : Nat := a.states.size

/-- The state with a number, if there is one. -/
def state? (a : Automaton) (id : Nat) : Option State := a.states[id]?

/-- The state with a number, which must exist. -/
def state (a : Automaton) (id : Nat) : Except Misuse State :=
  match a.state? id with
  | some s => .ok s
  | none => .error .unknownId

/-- Adds a state for a token; its number is the former size. -/
def addState (a : Automaton) (token : Option Nat) : Automaton :=
  { states := a.states.push { token } }

@[simp] theorem size_addState (a : Automaton) (token : Option Nat) :
    (a.addState token).size = a.size + 1 := by
  simp [size, addState]

/-- Replaces the state with a number, which must exist, by what `f` makes of it. -/
def update (a : Automaton) (id : Nat) (f : State → Except Misuse State) :
    Except Misuse Automaton := do
  return { states := a.states.setIfInBounds id (← f (← a.state id)) }

/-- Adds a range, which must lie above the ranges of the state. -/
def addRange (a : Automaton) (id lo hi : Nat) : Except Misuse Automaton :=
  a.update id (·.addRange lo hi)

/-- Makes a state move on one character, or on its case variants, alone. -/
def setCharMove (a : Automaton) (id c : Nat) (ignoreCase : Bool) : Except Misuse Automaton :=
  a.update id fun s => .ok (s.setCharMove c ignoreCase)

/-- Adds an epsilon move. -/
def addEpsilon (a : Automaton) (source target : Nat) : Except Misuse Automaton :=
  a.update source fun s => .ok (s.addEpsilon target)

/-- Sets the successor of a state, which must be another state. -/
def setNext (a : Automaton) (source target : Nat) : Except Misuse Automaton :=
  a.update source fun s =>
    if target = source then .error .ownSuccessor else .ok { s with next := some target }

/-- Marks a state as one where the token is complete. -/
def setFinal (a : Automaton) (id : Nat) : Except Misuse Automaton :=
  a.update id fun s => .ok { s with isFinal := true }

/-- True if some of the other states is the state itself or has a character in common with it. All
of them must exist. -/
def overlaps (a : Automaton) (id : Nat) (others : List Nat) : Except Misuse Bool := do
  let found ← others.mapM fun other => return (other, ← a.state other)
  return (← a.state id).overlaps id found

end Automaton
end ScannerTables
