import ScannerTables.Lexer.Basic
/-!
# Building a lexer

A build processes every lexical state in order and then settles, for each token, whether all lexical
states that switch on it agree on the target. It stops at the first fault; lexical states processed
before that stay processed, so that a later build continues from there.
-/

namespace ScannerTables.Lexer

/-- A step of a build, which may fail and keeps what it changed before. -/
abbrev Building := EStateM Failure Lexer

variable (lx : Lexer)

/-- The lexical states that entries of the productions switch to, in order. -/
def switchTargets : List String :=
  lx.productions.flatMap fun p => p.specs.filterMap (·.next)

/-- Every lexical state that is switched to must be declared. -/
def checkTargets : Except DefinitionError Unit :=
  lx.switchTargets.forM fun name => discard (lx.stateIndex name)

/-- Processes lexical states in order up to the first fault. That a program may process them in
parallel if it is built to do so is not modelled. -/
def processAll (r : TokenRegistry) (config : Config) :
    List LexicalState → List LexicalState × Option Failure
  | [] => ([], none)
  | s :: rest =>
    match LexicalState.process r config s with
    | .error e s => (s :: rest, some e)
    | .ok _ s =>
      let (rest, failure) := processAll r config rest
      (s :: rest, failure)

/-- The switches of all lexical states, in order. -/
def transitions : List (Nat × String) := lx.states.toList.flatMap (·.transitions)

/-- Notes a switch: the target of the first one for a token is kept until a switch with another
target is noted. -/
def noteSwitch (targets : List (Nat × Option String)) (switch : Nat × String) :
    List (Nat × Option String) :=
  match targets.lookup switch.1 with
  | none => targets ++ [(switch.1, some switch.2)]
  | some _ => targets.map fun entry =>
    (entry.1, if entry.1 = switch.1 ∧ entry.2 ≠ some switch.2 then none else entry.2)

/-- Records for every token with a switch the target, if it is the only one. -/
def recordTargets : TokenRegistry :=
  (lx.transitions.foldl noteSwitch []).foldl
    (fun r entry => r.modify entry.1 fun d => { d with newLexicalState := entry.2 }) lx.registry

/-- Builds every lexical state. -/
def build : Building Unit := do
  let lx ← get
  match lx.checkTargets with
  | .error e => throw (.faulty e)
  | .ok _ =>
    let (states, failure) := processAll lx.registry lx.config lx.states.toList
    let lx := { lx with states := states.toArray }
    set lx
    match failure with
    | some e => throw e
    | none =>
      set { lx with
        registry := lx.recordTargets
        warnings := lx.states.toList.flatMap LexicalState.warnings }

/-- The largest number of states with move code in any lexical state. -/
def maxMovers : Nat := (lx.states.toList.map (·.movers.length)).foldl max 0

/-- True if some lexical state can be left for another. -/
def hasTransitions : Bool := lx.states.size > 1 && lx.states.any (!·.transitions.isEmpty)

end ScannerTables.Lexer
