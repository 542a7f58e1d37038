import ScannerTables.Lexer.Basic
/-!
# Output tables

A table is the built dispatch of a lexer as plain records, for whoever generates code from it: for
each lexical state the composites that a scan can reach, with their members in dispatch order.
-/

namespace ScannerTables

/-- A member of a composite. -/
structure MemberRecord where
  movesArrayName : Option String
  asciiRanges : List Interval
  nonAsciiRanges : List Interval
  /-- The index of the composite that follows. -/
  nextStateIndex : Option Nat
  /-- True if the token is complete behind the member. -/
  nextFinal : Bool
  token : Option Nat
deriving DecidableEq

/-- A composite with its members in dispatch order. -/
structure CompositeRecord where
  index : Nat
  methodName : String
  token : Option Nat
  hasFinalMember : Bool
  members : List MemberRecord
deriving DecidableEq

/-- The dispatch of one lexical state. -/
structure StateTable where
  name : String
  /-- The composites by index; the first is where scanning starts. -/
  composites : List CompositeRecord
  /-- The names of the move arrays, in order. -/
  movesArrays : List String
deriving DecidableEq

/-- The dispatch of all lexical states, with the names of the tokens by ordinal. -/
structure LexerTable where
  lexicalStates : List StateTable
  tokenNames : List (Option String)
deriving DecidableEq

namespace LexicalState

variable (s : LexicalState)

/-- The record of a member. -/
def memberRecord (m : Nat) : MemberRecord :=
  let state := (s.automaton.state? m).getD default
  { movesArrayName := s.movesArrayName? m
    asciiRanges := state.asciiRanges
    nonAsciiRanges := state.nonAsciiRanges
    nextStateIndex := s.nextIndex? m
    nextFinal := s.automaton.isNextFinal m
    token := state.token }

/-- The record of a composite, if a scan can reach it. -/
def compositeRecord? (c : Composite) : Option CompositeRecord :=
  c.index.map fun index =>
    { index
      methodName := s.methodName index
      token := s.memberToken? c.members
      hasFinalMember := s.hasFinalMember c.members
      members := (s.orderedMembers c.members).map s.memberRecord }

/-- The table of a lexical state. -/
def table : StateTable where
  name := s.name
  composites := s.reachable.filterMap s.compositeRecord?
  movesArrays := s.movers.filterMap s.movesArrayName?

end LexicalState

/-- The table of a lexer. -/
def Lexer.table (lx : Lexer) : LexerTable where
  lexicalStates := lx.states.toList.map (·.table)
  tokenNames :=
    lx.registry.definitions.toList.map (·.label) ++ lx.config.extraTokenNames.map some

/-- The table of the lexical state with a name. -/
def LexerTable.state? (t : LexerTable) (name : String) : Option StateTable :=
  t.lexicalStates.find? (·.name == name)

end ScannerTables
