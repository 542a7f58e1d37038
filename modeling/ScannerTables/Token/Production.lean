import ScannerTables.IntervalSet
/-!
# Token productions

A production lists tokens of one kind for some lexical states. Each of its entries may name the
lexical state to go to after the token.
-/

namespace ScannerTables

/-- What a scanner does with a token that it matched. -/
inductive TokenKind where
  /-- Hand it to the parser. -/
  | token
  /-- Drop it. -/
  | skip
  /-- Put its text in front of the next token. -/
  | more
  /-- Keep it among the tokens, unseen by the parser. -/
  | unparsed
deriving DecidableEq

namespace TokenKind

instance : Inhabited TokenKind := ⟨token⟩

/-- Every kind. -/
def all : List TokenKind := [token, skip, more, unparsed]

/-- The name of a kind. -/
def name : TokenKind → String
  | token => "Token"
  | skip => "Skip"
  | more => "More"
  | unparsed => "Unparsed"

/-- The kind with a given name. -/
def ofName? (name : String) : Option TokenKind := all.find? (·.name == name)

theorem ofName?_name (k : TokenKind) : ofName? k.name = some k := by cases k <;> decide

end TokenKind

/-- One token of a production, with the lexical state that follows it. -/
structure TokenSpec where
  token : Nat
  next : Option String := none
deriving DecidableEq

/-- Tokens of one kind; without lexical states they belong to the default one. -/
structure TokenProduction where
  kind : TokenKind := .token
  lexicalStates : List String := []
  ignoreCase : Bool := false
  specs : List TokenSpec := []
deriving DecidableEq

/-- Sets of tokens are sets of ordinals. -/
abbrev TokenSet := IntervalSet

/-- The tokens that a production lists. -/
def TokenProduction.tokens (p : TokenProduction) : List Nat := p.specs.map (·.token)

end ScannerTables
