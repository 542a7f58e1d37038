import ScannerTables.LexicalState.Composite
/-!
# Drawings of a lexical state

The composites of a lexical state as a directed graph in the DOT language: a node for each composite
that a scan can reach and an edge for each member, drawn bold where it completes a token.
-/

namespace ScannerTables

/-- The lower-case hexadecimal digits of a natural. -/
def hexText (n : Nat) : String := String.ofList (Nat.toDigits 16 n)

/-- A code point in a label: itself if it is a graphic ASCII character that needs no escape, else
its number. -/
def dotCodePoint (c : Nat) : String :=
  if 0x21 ≤ c ∧ c ≤ 0x7E ∧ c ≠ '"'.toNat ∧ c ≠ '\\'.toNat then (Char.ofNat c).toString
  else s!"\\\\u\x7b{hexText c}\x7d"

/-- A range in a label: its ends, or its only code point. -/
def dotRange (i : Interval) : String :=
  if i.hi = i.lo then dotCodePoint i.lo else s!"{dotCodePoint i.lo}-{dotCodePoint i.hi}"

/-- The ranges of a move in a label. -/
def dotRanges (l : List Interval) : String := s!"[{String.join (l.map dotRange)}]"

namespace LexicalState

variable (s : LexicalState)

/-- The line that draws a composite. -/
def dotNode? (c : Composite) : Option String :=
  c.index.map fun i => s!"  c{i} [label=\"{s.methodName i}\"];\n"

/-- The line that draws the move of a member. -/
def dotEdge (source m : Nat) : String :=
  let target := match s.nextIndex? m with
    | some i => s!"c{i}"
    | none => "accept"
  let ranges := dotRanges (((s.automaton.state? m).map (·.ranges)).getD [])
  let token := if s.automaton.isNextFinal m then (s.automaton.state? m).bind (·.token) else none
  let close := match token with
    | some t => s!" #{t}\", style=bold];"
    | none => "\"];"
  s!"  c{source} -> {target} [label=\"{ranges}{close}\n"

/-- The lines that draw the moves of a composite. -/
def dotEdges (c : Composite) : List String :=
  match c.index with
  | some i => (s.orderedMembers c.members).map (s.dotEdge i)
  | none => []

/-- The drawing of a lexical state. -/
def dot : String :=
  String.join (
    [s!"digraph \"{s.name}\" \x7b\n",
      "  rankdir=LR;\n",
      "  node [shape=circle];\n",
      "  accept [shape=doublecircle, label=\"\"];\n"] ++
    s.reachable.filterMap s.dotNode? ++ s.reachable.flatMap s.dotEdges ++ ["\x7d\n"])

end LexicalState
end ScannerTables
