import ScannerTables.LexicalState.Composite
/-!
# Scanning by composites

A scanner runs the dispatch of one lexical state on text. It keeps the set of composites that are
active, tries on each character the members of every one of them in dispatch order, and goes on with
the composites that follow the members that match. Within a composite the last member that completes
a token counts, across composites the lowest token, and over the whole text the longest match.
-/

namespace ScannerTables

/-- A member of a composite as a scanner uses it. -/
structure Member where
  ranges : List Interval
  /-- The index of the composite to go on with. -/
  next : Option Nat
  /-- The token that is complete after the character. -/
  accepts : Option Nat
deriving DecidableEq

/-- True if the member moves on a character. -/
def Member.moves (m : Member) (c : Nat) : Bool := m.ranges.any (c ∈ ·)

/-- The members of every composite, by index and in dispatch order. -/
structure Scanner where
  composites : Array (List Member)

/-- A match at the start of a text, with its length in bytes. -/
structure ScanMatch where
  token : Nat
  length : Nat
deriving DecidableEq

namespace Scanner

variable (sc : Scanner)

/-- The members of an active composite that move on a character. -/
def hits (c index : Nat) : List Member :=
  (sc.composites[index]?.getD []).filter (·.moves c)

/-- The token that a composite completes, by the last of the members that matched. -/
def completed (members : List Member) : Option Nat := (members.filterMap (·.accepts)).getLast?

/-- The composites that are active after a character, and the token that it completes. -/
def step (active : IntervalSet) (c : Nat) : IntervalSet × Option Nat :=
  let hits := active.toList.map (sc.hits c)
  (.ofList (hits.flatMap fun ms => ms.filterMap (·.next)), (hits.filterMap completed).min?)

/-- The longest match of a text behind `taken` bytes, which led to the active composites and have
`best` for their longest match. -/
def longestFrom (active : IntervalSet) (taken : Nat) (best : Option ScanMatch) :
    List Char → Option ScanMatch
  | [] => best
  | c :: cs =>
    let (next, token) := sc.step active c.toNat
    let best := match token with
      | some token => some { token, length := taken + c.utf8Size }
      | none => best
    if next.isEmpty then best else longestFrom next (taken + c.utf8Size) best cs

/-- The longest match at the start of a text. -/
def longestMatch (text : List Char) : Option ScanMatch :=
  if sc.composites.isEmpty then none else sc.longestFrom (IntervalSet.empty.insert 0) 0 none text

end Scanner

/-- A member of a composite for the scanner of its lexical state. -/
def LexicalState.scannerMember (s : LexicalState) (m : Nat) : Member where
  ranges := ((s.automaton.state? m).map (·.ranges)).getD []
  next := s.nextIndex? m
  accepts := if s.automaton.isNextFinal m then (s.automaton.state? m).bind (·.token) else none

/-- The scanner of a lexical state. -/
def LexicalState.scanner (s : LexicalState) : Scanner where
  composites := (s.reachable.map fun c => (s.orderedMembers c.members).map s.scannerMember).toArray

end ScannerTables
