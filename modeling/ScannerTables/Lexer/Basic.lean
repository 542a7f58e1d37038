import ScannerTables.LexicalState.Process
/-!
# Lexers

A lexer holds all token definitions of a grammar with its lexical states. Productions are handed to
the lexical states that they name, and literals are claimed in each of them. Entry 0 of the lexical
states is the default one, in which scanning starts.

A declaration that fails is reported where the fault is met; what it changed before that stays.
-/

namespace ScannerTables

/-- The token definitions of a grammar, by lexical state. -/
structure Lexer where
  config : Config
  registry : TokenRegistry
  /-- The lexical states in the order of their declaration; the first is the default one. -/
  states : Array LexicalState
  /-- The positions of the lexical states by name. -/
  positions : List (String × Nat)
  productions : List TokenProduction
  /-- The findings of the last complete build. -/
  warnings : List Warning

namespace Lexer

/-- A lexer with the default lexical state and the end of the input as its only token. -/
def new (config : Config) : Lexer where
  config
  registry := .new
  states := #[.new config.defaultLexicalState true]
  positions := [(config.defaultLexicalState, 0)]
  productions := []
  warnings := []

instance : Inhabited Lexer := ⟨new {}⟩

/-- A declaration, which may fail and keeps what it changed before. -/
abbrev Declare := EStateM DefinitionError Lexer

variable (lx : Lexer)

/-! ### Lexical states -/

/-- The position of a lexical state. -/
def stateIndex? (name : String) : Option Nat := lx.positions.lookup name

/-- The position of a lexical state, which must be declared. -/
def stateIndex (name : String) : Except DefinitionError Nat :=
  match lx.stateIndex? name with
  | some i => .ok i
  | none => .error (.unknownLexicalState name)

/-- The lexical state with a name. -/
def state? (name : String) : Option LexicalState := (lx.stateIndex? name).bind (lx.states[·]?)

/-- The name of the lexical state at a position. -/
def stateName? (index : Nat) : Option String := lx.states[index]?.map (·.name)

/-- Declares a lexical state and answers with its position. -/
def addLexicalState (name : String) : Declare Nat := do
  let lx ← get
  if (lx.stateIndex? name).isSome then throw (.duplicateLexicalState name)
  set { lx with
    states := lx.states.push (.new name false)
    positions := (name, lx.states.size) :: lx.positions }
  return lx.states.size

/-! ### Definitions and productions -/

/-- Registers a definition and answers with its ordinal. -/
def addDefinition (d : TokenDefinition) : Nat × Lexer :=
  (lx.registry.size, { lx with registry := lx.registry.register d })

/-- The positions of the lexical states that a production belongs to: those it names, or the default
one. -/
def targets (p : TokenProduction) : Except DefinitionError (List Nat) :=
  if p.lexicalStates.isEmpty then .ok [0] else p.lexicalStates.mapM lx.stateIndex

/-- Changes the lexical states at some positions, one after the other. -/
def modifyStates (targets : List Nat) (f : LexicalState → LexicalState) : Lexer :=
  { lx with states := targets.foldl (fun states i => states.modify i f) lx.states }

/-- Claims the image of a literal token in the target states; the token must be registered. -/
def claimSpec (inherited : Bool) (targets : List Nat) (spec : TokenSpec) : Declare Unit := do
  let lx ← get
  let some d := lx.registry.get? spec.token | throw (.unknownToken spec.token)
  let some image := d.image? | return
  set (lx.modifyStates targets fun s =>
    (s.claimLiteral image spec.token (d.ignoreCaseOr inherited)).2)

/-- Hands a production to its lexical states and claims its literals. -/
def addTokenProduction (p : TokenProduction) : Declare Unit := do
  let lx ← get
  let targets ← match lx.targets p with
    | .ok targets => pure targets
    | .error e => throw e
  p.specs.forM (claimSpec (p.ignoreCase || lx.config.ignoreCase) targets)
  modify fun lx =>
    { lx.modifyStates targets (·.addProduction p) with productions := lx.productions ++ [p] }

/-- The token of a literal that the grammar uses: the one that has the image, or a new one. -/
def addImplicitLiteral (state image : String) : Declare Nat := do
  let lx ← get
  let some s := lx.state? state | throw (.unknownLexicalState state)
  match s.lookupLiteral image with
  | some token => return token
  | none =>
    let (token, lx) := lx.addDefinition (.ofLiteral image)
    set (lx.modifyStates (lx.stateIndex? state).toList fun s =>
      (s.claimLiteral image token lx.config.ignoreCase).2.addImplicitLiteral token)
    return token

/-- Marks a token as overridden, which keeps it from being built. -/
def setOverridden (token : Nat) : Lexer :=
  { lx with registry := lx.registry.modify token fun d => { d with overridden := true } }

/-- True if a token is overridden. -/
def isOverridden (token : Nat) : Bool := (lx.registry.get? token).any (·.overridden)

/-! ### Tokens -/

/-- The name of a token: its label, or an extra name for ordinals past the registered tokens. -/
def tokenName? (ordinal : Nat) : Option String :=
  match lx.registry.get? ordinal with
  | some d => d.label
  | none => lx.config.extraTokenNames[ordinal - lx.registry.size]?

/-- The label of the literal token with an image, by the first lexical state that knows it. -/
def stringLiteralLabel? (image : String) : Option String :=
  ((lx.states.findSome? (·.lookupLiteral image)).bind lx.registry.get?).bind (·.label)

/-- The kind of the first production that lists a token. -/
def tokenKind? (token : Nat) : Option TokenKind :=
  (lx.productions.find? fun p => token ∈ p.tokens).map (·.kind)

/-- True if a token is registered and may be built. -/
def isBuildable (token : Nat) : Bool := (lx.registry.get? token).any (·.isBuildable)

/-- The buildable tokens that productions of a kind list. -/
def tokensOfKind (kind : TokenKind) : TokenSet :=
  .ofList (((lx.productions.filter (·.kind = kind)).flatMap (·.tokens)).filter lx.isBuildable)

/-- The buildable tokens that no production lists. -/
def unlistedTokens : TokenSet :=
  let listed : TokenSet := .ofList (lx.productions.flatMap (·.tokens))
  .ofList ((List.range lx.registry.size).filter fun t => t ∉ listed && lx.isBuildable t)

/-- The tokens for the parser: those of kind `token` and those that no production lists. -/
def regularTokens : TokenSet := lx.tokensOfKind .token ∪ lx.unlistedTokens

end Lexer
end ScannerTables
