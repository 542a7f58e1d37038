import ScannerTables.Config
import ScannerTables.LexicalState.Basic
import ScannerTables.Token.Registry
/-!
# What a lexical state builds

Which tokens a lexical state builds follows from its declarations and the registry alone, so it is
laid out as a plan before anything is built: first the undeclared literals, then the entries of the
productions in order. Private and overridden definitions are left out, and so is a literal whose
image belongs to another token.
-/

namespace ScannerTables

/-- One step of building a lexical state. -/
inductive BuildStep where
  /-- A token that is not registered stops the build. -/
  | unknown (ordinal : Nat)
  /-- A token to build, with the lexical state to go to after it if that is another one. -/
  | token (ordinal : Nat) (ignoreCase : Bool) (switch : Option String)
deriving DecidableEq

namespace LexicalState

variable (s : LexicalState) (r : TokenRegistry) (config : Config)

/-- The step for a literal that no production declares. -/
def implicitStep? (token : Nat) : Option BuildStep :=
  if token ∈ s.declared then none
  else match r.get? token with
    | none => some (.unknown token)
    | some d =>
      if d.overridden then none else some (.token token (d.ignoreCaseOr config.ignoreCase) none)

/-- True if a definition is a literal whose image belongs to another token. -/
def isDisowned (d : TokenDefinition) (token : Nat) (ignoreCase : Bool) : Bool :=
  d.image?.any fun image => (s.literalOwner? image ignoreCase).any (· ≠ token)

/-- The step for an entry of a production, which hands down whether case is ignored. -/
def specStep? (inherited : Bool) (spec : TokenSpec) : Option BuildStep :=
  match r.get? spec.token with
  | none => some (.unknown spec.token)
  | some d =>
    let ignoreCase := d.ignoreCaseOr inherited
    if !d.isBuildable || s.isDisowned d spec.token ignoreCase then none
    else some (.token spec.token ignoreCase (spec.next.filter (· ≠ s.name)))

/-- The steps for a production. -/
def productionSteps (p : TokenProduction) : List BuildStep :=
  p.specs.filterMap (s.specStep? r (p.ignoreCase || config.ignoreCase))

/-- Every step of building the lexical state, in order. -/
def plan : List BuildStep :=
  s.implicitLiterals.filterMap (s.implicitStep? r config) ++
    s.productions.flatMap (s.productionSteps r config)

end LexicalState
end ScannerTables
