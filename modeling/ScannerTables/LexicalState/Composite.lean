import ScannerTables.Automaton.Successor
import ScannerTables.LexicalState.Basic
/-!
# Composites

What a composite says to a scanner: the order in which its members are tried, the token they belong
to, and the composites that follow. Names of dispatch methods and of move arrays are made of
positions: of the composite among those a scan can reach, and of the state among those that need
move code. Processing writes both down.
-/

namespace ScannerTables

/-- A composite with its place in the store and its index, if a scan can reach it. -/
structure Composite where
  id : Nat
  index : Option Nat
  members : List Nat
deriving DecidableEq

/-- The shape in which composites are shown in messages. -/
def Composite.describe (c : Composite) : String :=
  let index := match c.index with
    | some i => s!"Some({i})"
    | none => "None"
  let members := ", ".intercalate (c.members.map fun m => s!"NfaStateId({m})")
  s!"Composite \x7b id: CompositeId({c.id}), index: {index}, states: [{members}] \x7d"

namespace LexicalState

variable (s : LexicalState)

/-! ### Positions and names -/

/-- The index of a composite among those that a scan can reach. -/
def indexOf? (id : Nat) : Option Nat := s.dispatch.bind (·.indices[id]?.join)

/-- The composite that a state leads into without a character. -/
def compositeOf? (state : Nat) : Option Nat := s.dispatch.bind (·.compositeOf[state]?)

/-- The index of the composite that follows a character of a state. -/
def nextIndex? (state : Nat) : Option Nat :=
  (((s.automaton.state? state).bind (·.next)).bind s.compositeOf?).bind s.indexOf?

/-- The states that need move code, in ascending order. -/
def movers : List Nat := (s.dispatch.map (·.movers)).getD []

/-- The name of the move array with a number. -/
def movesArrayName (i : Nat) : String :=
  if s.isDefault then s!"NFA_MOVES_{i}" else s!"NFA_MOVES_{s.name}_{i}"

/-- The name of the move array of a state. -/
def movesArrayName? (state : Nat) : Option String := s.dispatch.bind (·.moveNames[state]?.join)

/-- The name of the dispatch method with an index. -/
def methodName (index : Nat) : String :=
  if s.isDefault then s!"NfaIndex{index}" else s!"NfaName{s.name}Index{index}"

/-- The name of the dispatch method of a composite that a scan can reach. -/
def methodName? (c : Composite) : Option String := c.index.map s.methodName

/-! ### Looking composites up -/

/-- The composite with a place in the store, if there is one. -/
def composite? (id : Nat) : Option Composite :=
  (s.composites[id]?).map fun members => { id, index := s.indexOf? id, members }

/-- The composite with a place in the store, which must exist. -/
def composite (id : Nat) : Except Misuse Composite :=
  match s.composite? id with
  | some c => .ok c
  | none => .error .unknownId

/-- The members of a composite as states, all of which must exist. -/
def memberStates (c : Composite) : Except Misuse (List State) := c.members.mapM s.automaton.state

/-- The composites that a scan can reach, by index. -/
def reachable : List Composite := ((s.dispatch.map (·.order)).getD []).filterMap s.composite?

/-- The composite with an index. -/
def compositeAt? (index : Nat) : Option Composite := s.reachable[index]?

/-! ### What a composite says -/

/-- The members in the order in which they are tried. -/
def orderedMembers (members : List Nat) : List Nat :=
  members.mergeSort fun m m' => (s.automaton.dispatchOrder m m').isLE

/-- The token that a composite belongs to. -/
def memberToken? (members : List Nat) : Option Nat :=
  members.findSome? fun m => (s.automaton.state? m).bind (·.token)

/-- True if some member completes a token. -/
def hasFinalMember (members : List Nat) : Bool := members.any s.automaton.isNextFinal

/-- The composites that follow the members, one for each member with a successor. -/
def successors (members : List Nat) : List Nat :=
  members.filterMap fun m => ((s.automaton.state? m).bind (·.next)).bind s.compositeOf?

end LexicalState
end ScannerTables
