import ScannerTables.Misuse
/-!
# Faults and findings

What can be wrong with a set of token definitions (`DefinitionError`), what is merely worth telling
(`Warning`), and how scanning fails (`NoMatch`). Each is a cause; its text, its code and its help
are functions of the cause.
-/

namespace ScannerTables

/-- A fault in token definitions or in the names they use. -/
inductive DefinitionError where
  /-- A pattern refers to a label that no definition carries. -/
  | undefinedReference (label : String)
  /-- A pattern leads back to a definition that is being inlined. -/
  | recursiveReference (label : String)
  /-- A counted repetition allows fewer copies than it demands. -/
  | invalidRepetition (min max : Nat)
  /-- A lexical state is named that was not declared. -/
  | unknownLexicalState (name : String)
  /-- A lexical state is declared a second time. -/
  | duplicateLexicalState (name : String)
  /-- A token is used that was not registered. -/
  | unknownToken (ordinal : Nat)
deriving DecidableEq

namespace DefinitionError

/-- The text shown for a fault. -/
def message : DefinitionError → String
  | undefinedReference label => s!"Undefined regular expression reference: {label}"
  | recursiveReference label => s!"Regular expression `{label}` refers to itself"
  | invalidRepetition min max =>
    s!"Invalid repetition bounds \x7b{min},{max}\x7d: maximum is smaller than minimum"
  | unknownLexicalState name => s!"Unknown lexical state: {name}"
  | duplicateLexicalState name => s!"Lexical state `{name}` is declared twice"
  | unknownToken ordinal => s!"Unknown token ordinal: {ordinal}"

/-- The code by which a fault is listed. -/
def code : DefinitionError → String
  | undefinedReference _ => "nfa::undefined_reference"
  | recursiveReference _ => "nfa::recursive_reference"
  | invalidRepetition _ _ => "nfa::invalid_repetition"
  | unknownLexicalState _ => "nfa::unknown_lexical_state"
  | duplicateLexicalState _ => "nfa::duplicate_lexical_state"
  | unknownToken _ => "nfa::unknown_token"

/-- Advice on a fault, where there is some. -/
def help? : DefinitionError → Option String
  | undefinedReference label => some s!"declare a token or private token named `{label}`"
  | _ => none

end DefinitionError

/-- Why a build stopped: a fault in the definitions, or a call that broke a precondition. -/
inductive Failure where
  | faulty (error : DefinitionError)
  | misuse (misuse : Misuse)
deriving DecidableEq

/-- A finding that does not stop a build. -/
inductive Warning where
  /-- No token is built in a lexical state. -/
  | emptyLexicalState (name : String)
deriving DecidableEq

namespace Warning

/-- The text shown for a finding. -/
def message : Warning → String
  | emptyLexicalState name => s!"Lexical state `{name}` has no tokens"

/-- The code by which a finding is listed. -/
def code : Warning → String
  | emptyLexicalState _ => "nfa::empty_lexical_state"

end Warning

/-- Scanning stopped at a byte offset where the lexical state in force matches no token. -/
structure NoMatch where
  offset : Nat
  lexicalState : String
deriving DecidableEq

namespace NoMatch

/-- The text shown when scanning stops. -/
def message (n : NoMatch) : String :=
  s!"No token matches at byte offset {n.offset} in lexical state `{n.lexicalState}`"

/-- The code by which the stop is listed. -/
def code (_ : NoMatch) : String := "scan::no_match"

end NoMatch
end ScannerTables
