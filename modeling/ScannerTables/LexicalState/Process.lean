import ScannerTables.Automaton.Closure
import ScannerTables.Automaton.Fragment
import ScannerTables.LexicalState.Composite
import ScannerTables.LexicalState.Plan
/-!
# Processing a lexical state

Processing carries out the plan of a lexical state, closes the automaton and finds the composites
that a scan can reach. It happens once. A fault stops it where it occurs, and what was built before
stays, so that a later attempt builds the plan again on top of it. The productions are taken out of
the lexical state while their entries are built, and put back however that ends.
-/

namespace ScannerTables.LexicalState

/-- A step that changes a lexical state and may fail, keeping what it changed before. -/
abbrev Process := EStateM Failure LexicalState

/-! ### Carrying out the plan -/

/-- Carries out one step of the plan. -/
def runStep (r : TokenRegistry) : BuildStep → Process Unit
  | .unknown ordinal => throw (.faulty (.unknownToken ordinal))
  | .token ordinal ignoreCase switch => fun s =>
    let s := { s with built := s.built.insert ordinal }
    match Build.token r ordinal ignoreCase initialState s.automaton with
    | .ok _ automaton =>
      let switches := switch.toList.map (ordinal, ·)
      .ok () { s with automaton, transitions := s.transitions ++ switches }
    | .error e automaton => .error e { s with automaton }

/-- Carries out a step of the plan, if there is one. -/
def runStep? (r : TokenRegistry) : Option BuildStep → Process Unit
  | none => pure ()
  | some step => runStep r step

/-- Builds the tokens of the entries of a production. -/
def runProduction (r : TokenRegistry) (config : Config) (p : TokenProduction) : Process Unit :=
  p.specs.forM fun spec => do
    let s ← get
    runStep? r (s.specStep? r (p.ignoreCase || config.ignoreCase) spec)

/-- Takes the productions out, does something with them, and puts them back whether that succeeded
or failed. -/
def withProductions (f : List TokenProduction → Process Unit) : Process Unit := fun s =>
  match f s.productions { s with productions := [] } with
  | .ok _ t => .ok () { t with productions := s.productions }
  | .error e t => .error e { t with productions := s.productions }

/-- Builds the undeclared literals, then the entries of the productions. -/
def buildDeclarations (r : TokenRegistry) (config : Config) : Process Unit := do
  let s ← get
  s.implicitLiterals.forM fun token => runStep? r (s.implicitStep? r config token)
  withProductions fun productions => productions.forM (runProduction r config)

/-- The lexical state with a warning if no token was built. -/
def reported (s : LexicalState) : LexicalState :=
  { s with
    warnings := s.warnings ++ if s.built.isEmpty then [.emptyLexicalState s.name] else [] }

/-! ### Dispatch -/

/-- The composites of a list of member lists, and the store with all of them. -/
def internAll (composites : Array (List Nat)) : List (List Nat) → List Nat × Array (List Nat)
  | [] => ([], composites)
  | members :: rest =>
    let (id, composites) := intern composites members
    let (ids, composites) := internAll composites rest
    (id :: ids, composites)

/-- The composites that a scan can reach from `start`, in the order in which they are found. A
composite without members ends the search. -/
def reachedFrom (s : LexicalState) (start : Nat) : Except Misuse (List Nat) := do
  let found ← Graph.preorder (s.composites.map s.successors) start
  return found.filter fun id => s.composites[id]?.any (!·.isEmpty)

/-- True if a composite has a member that completes a token. -/
def completes (s : LexicalState) (id : Nat) : Bool := s.composites[id]?.any s.hasFinalMember

/-- The order of indices: the first composite found stays first, and the others are sorted by
whether they have a member that completes a token, those first. -/
def indexOrder (s : LexicalState) (start : Nat) (found : List Nat) : List Nat :=
  if found.head? = some start then
    start :: (found.drop 1).mergeSort fun id id' => s.completes id || !s.completes id'
  else [start]

/-- Writes to each number of a list what `value` says of its position there. -/
def enumerate {α : Type} (size : Nat) (value : Nat → α) (ids : List Nat) : Array (Option α) :=
  ids.zipIdx.foldl (fun values p => values.setIfInBounds p.1 (some (value p.2)))
    (Array.replicate size none)

/-- The lexical state with a closed automaton and its dispatch. -/
def generate (s : LexicalState) : Except Misuse LexicalState := do
  let automaton ← s.automaton.close
  unless automaton.successorsExist do throw .unknownId
  let (ids, composites) := internAll s.composites (automaton.states.toList.map (·.epsilon))
  let movers := (List.range automaton.size).filter automaton.needsMoveCode
  let moveNames := enumerate automaton.size s.movesArrayName movers
  let s := { s with
    automaton, composites, dispatch := some { compositeOf := ids.toArray, movers, moveNames } }
  let start := ids[initialState]?.getD 0
  let order := s.indexOrder start (← s.reachedFrom start)
  let indices := enumerate composites.size id order
  return { s with dispatch := s.dispatch.map fun d => { d with order, indices } }

/-! ### Processing -/

/-- Builds what is declared and the dispatch, unless that was done before. -/
def process (r : TokenRegistry) (config : Config) : Process Unit := do
  let s ← get
  unless s.isProcessed do
    buildDeclarations r config
    modify reported
    match (← get).generate with
    | .ok s => set s
    | .error m => throw (.misuse m)

end ScannerTables.LexicalState
