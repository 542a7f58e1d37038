import ScannerTables.Automaton.Basic
import ScannerTables.Claims
import ScannerTables.Diagnostic
import ScannerTables.Token.Production
/-!
# Lexical states

A lexical state is a mode of the scanner with tokens of its own. Productions and literals are
declared first; processing then builds one automaton for all tokens and, from its closed epsilon
moves, the composites that a scanner dispatches on. A composite is a list of states that are tried
together; equal lists are one composite, known by its place in the store of composites.
-/

namespace ScannerTables

/-- What processing adds to a lexical state. -/
structure Dispatch where
  /-- The composite of each state of the automaton: its epsilon moves after closing. -/
  compositeOf : Array Nat
  /-- The states that need move code, in ascending order. -/
  movers : List Nat := []
  /-- The name of the move array of each state, where it has one. -/
  moveNames : Array (Option String) := #[]
  /-- The composites that a scan can reach, in the order of their indices. -/
  order : List Nat := []
  /-- The index of each composite, where it has one. -/
  indices : Array (Option Nat) := #[]
deriving DecidableEq

/-- A mode of the scanner: its declarations and what has been built of them. -/
structure LexicalState where
  name : String
  isDefault : Bool
  /-- The states built so far; state 0 is where every token begins. -/
  automaton : Automaton
  productions : List TokenProduction := []
  /-- Tokens of literals that no production declares. -/
  implicitLiterals : List Nat := []
  /-- Owners of the literals whose case counts, by image. -/
  exactLiterals : Claims := []
  /-- Owners of the literals whose case is ignored, by upper-cased image. -/
  foldedLiterals : Claims := []
  /-- The members of every composite, by its place in the store. -/
  composites : Array (List Nat) := #[]
  /-- The tokens whose building was begun. -/
  built : TokenSet := ∅
  /-- Tokens with the lexical state to go to after them, where that is another one. -/
  transitions : List (Nat × String) := []
  /-- What processing found worth telling. -/
  warnings : List Warning := []
  /-- Present once the lexical state is processed. -/
  dispatch : Option Dispatch := none

namespace LexicalState

open Unicode

/-- A lexical state without declarations, with its initial state. -/
def new (name : String) (isDefault : Bool) : LexicalState where
  name
  isDefault
  automaton := ({} : Automaton).addState none

instance : Inhabited LexicalState := ⟨new "" false⟩

/-- The state where every token begins. -/
def initialState : Nat := 0

variable (s : LexicalState)

/-- True once the lexical state is processed. -/
def isProcessed : Bool := s.dispatch.isSome

/-! ### Declarations -/

/-- Adds a production behind those already there. -/
def addProduction (p : TokenProduction) : LexicalState :=
  { s with productions := s.productions ++ [p] }

/-- Adds the token of a literal that no production declares, once. -/
def addImplicitLiteral (token : Nat) : LexicalState :=
  if token ∈ s.implicitLiterals then s
  else { s with implicitLiterals := s.implicitLiterals ++ [token] }

/-- The owner of an image among the literals with the given treatment of case. -/
def literalOwner? (image : String) (ignoreCase : Bool) : Option Nat :=
  if ignoreCase then s.foldedLiterals.owner? (upperText image) else s.exactLiterals.owner? image

/-- Gives an image to a token unless it has an owner, and answers with the owner. -/
def claimLiteral (image : String) (token : Nat) (ignoreCase : Bool) : Nat × LexicalState :=
  if ignoreCase then
    (s.foldedLiterals.ownerAfter (upperText image) token,
      { s with foldedLiterals := s.foldedLiterals.claim (upperText image) token })
  else
    (s.exactLiterals.ownerAfter image token,
      { s with exactLiterals := s.exactLiterals.claim image token })

/-- The token of a literal: the owner of the exact image, else the one that ignores case. -/
def lookupLiteral (image : String) : Option Nat :=
  s.literalOwner? image false <|> s.literalOwner? image true

/-- The tokens that the productions list. -/
def declared : TokenSet := .ofList (s.productions.flatMap (·.tokens))

/-- The lexical state that follows a token here, if it is another one. -/
def newLexicalState? (token : Nat) : Option String := s.transitions.lookup token

/-! ### Composites -/

/-- The place of a composite with the given members, and the store with it: an equal list is found
again, a new one is added. -/
def intern (composites : Array (List Nat)) (members : List Nat) : Nat × Array (List Nat) :=
  match composites.findIdx? (· == members) with
  | some id => (id, composites)
  | none => (composites.size, composites.push members)

/-- Adds a composite with the given members and answers with its place. -/
def canonical (members : List Nat) : Nat × LexicalState :=
  let (id, composites) := intern s.composites members
  (id, { s with composites })

end LexicalState
end ScannerTables
