import ScannerTables.Automaton.Basic
/-!
# What lies behind a state

A state of a closed automaton matters through its successor: whether the token is complete there and
whether there are moves on from it. The queries answer `false` or nothing for a state without a
successor.
-/

namespace ScannerTables.Automaton

variable (a : Automaton) (id : Nat)

/-- The state that follows a character of the state's ranges. -/
def successor? : Option State := ((a.state? id).bind (·.next)).bind a.state?

/-- True if the token is complete behind the state. -/
def isNextFinal : Bool := (a.successor? id).any (·.isFinal)

/-- True if trying the state can lead anywhere: its successor is final or has moves. -/
def needsMoveCode : Bool := (a.successor? id).any fun t => t.isFinal || !t.epsilon.isEmpty

/-- The token that is complete behind the state. -/
def completedToken? : Option Nat := ((a.successor? id).filter (·.isFinal)).bind (·.token)

/-- True if every successor that some state names exists. -/
def successorsExist : Bool := a.states.all fun s => s.next.all (· < a.size)

/-- How two members of a composite stand in dispatch order. A state that completes no token comes
before those that do, and of those the one with the lower token comes later, so that the last match
is the one to keep. Ties go by the first range, then by the number of ranges, then by the number of
the state. -/
def dispatchOrder (id' : Nat) : Ordering :=
  (completion (a.completedToken? id) (a.completedToken? id')).then <|
    (firstRange (ranges id) (ranges id')).then <|
      (compare (ranges id).length (ranges id').length).then <| compare id id'
where
  ranges (id : Nat) : List Interval := ((a.state? id).map (·.ranges)).getD []
  completion : Option Nat → Option Nat → Ordering
    | none, none => .eq
    | none, some _ => .lt
    | some _, none => .gt
    | some t, some t' => compare t' t
  firstRange : List Interval → List Interval → Ordering
    | [], [] => .eq
    | [], _ :: _ => .lt
    | _ :: _, [] => .gt
    | i :: _, j :: _ => (compare i.lo j.lo).then (compare i.hi j.hi)

end ScannerTables.Automaton
