import ScannerTables.Lexer.Build
import ScannerTables.Scan.Tokens
/-!
# Events

What building and scanning report about their progress, in the order in which it happens. The
reports follow from what was there before and what came of it, so they are computed beside the
operations.
-/

namespace ScannerTables

/-- How much a report matters. -/
inductive Level where
  | trace
  | debug
  | warn
deriving DecidableEq

/-- The name of a level. -/
def Level.name : Level → String
  | trace => "TRACE"
  | debug => "DEBUG"
  | warn => "WARN"

/-- A report about the progress of building or scanning. -/
inductive Event where
  /-- A lexical state was processed before. -/
  | alreadyProcessed (state : String)
  /-- Processing found something worth telling. -/
  | found (warning : Warning)
  /-- A scan can reach a composite. -/
  | reached (state : String) (composite members : Nat)
  /-- A lexical state was processed. -/
  | processed (state : String) (states movers composites used : Nat)
  /-- The lexical states disagree on what follows a token. -/
  | switchDepends (token : Nat)
  /-- A lexer was built. -/
  | built (states tokens movers : Nat)
  /-- A token was matched. -/
  | matched (token start stop : Nat)
deriving DecidableEq

namespace Event

/-- How much an event matters. -/
def level : Event → Level
  | alreadyProcessed _ | processed .. | switchDepends _ | built .. => .debug
  | found _ => .warn
  | reached .. | matched .. => .trace

/-- The text of an event. -/
def text : Event → String
  | alreadyProcessed state => s!"{state}: already processed"
  | found warning => warning.message
  | reached state composite members =>
    s!"{state}: composite CompositeId({composite}) reached with {members} member(s)"
  | processed state states movers composites used =>
    s!"{state}: {states} NFA states, {movers} with moves, {composites} canonical composites, " ++
      s!"{used} used"
  | switchDepends token => s!"#{token}: lexical state switch depends on the source state"
  | built states tokens movers =>
    s!"built {states} lexical state(s), {tokens} token type(s), max {movers} NFA states"
  | matched token start stop => s!"TokenId({token}) at {start}..{stop}"

end Event

namespace LexicalState

/-- The composites found from the initial state, in the order in which they are found. -/
def found (s : LexicalState) : List Nat :=
  match (s.compositeOf? initialState).map s.reachedFrom with
  | some (.ok ids) => ids
  | _ => []

/-- The events of a processing that succeeded, given its outcome. -/
def processedEvents (s : LexicalState) : List Event :=
  s.warnings.map .found ++
  s.found.map (fun id => .reached s.name id (s.composites[id]?.getD []).length) ++
  [.processed s.name s.automaton.size s.movers.length s.composites.size s.reachable.length]

/-- The events of processing a lexical state. -/
def processEvents (s : LexicalState) (r : TokenRegistry) (config : Config) : List Event :=
  if s.isProcessed then [.alreadyProcessed s.name]
  else match process r config s with
    | .ok _ s => s.processedEvents
    | .error _ _ => []

end LexicalState

namespace Lexer

/-- The events of processing lexical states in order up to the first fault. -/
def processAllEvents (r : TokenRegistry) (config : Config) : List LexicalState → List Event
  | [] => []
  | s :: rest =>
    match LexicalState.process r config s with
    | .error _ _ => []
    | .ok _ _ => s.processEvents r config ++ processAllEvents r config rest

/-- The disagreements among switches, each with those before it. -/
def switchEvents (before : List (Nat × String)) : List (Nat × String) → List Event
  | [] => []
  | (token, target) :: rest =>
    let clash := before.any fun (t, other) => t = token && other != target
    (if clash then [.switchDepends token] else []) ++
      switchEvents ((token, target) :: before) rest

/-- The events of building a lexer. -/
def buildEvents (lx : Lexer) : List Event :=
  match lx.checkTargets with
  | .error _ => []
  | .ok _ =>
    processAllEvents lx.registry lx.config lx.states.toList ++
      match Lexer.build lx with
      | .error _ _ => []
      | .ok _ lx =>
        switchEvents [] lx.transitions ++
          [.built lx.states.size lx.registry.size lx.maxMovers]

end Lexer

/-- The events of splitting a text into tokens. -/
def Tokens.events (t : Tokens) : List Event :=
  t.tokens.map fun token => .matched token.token token.start token.stop

end ScannerTables
