import ScannerTables.Lexer.Basic
import ScannerTables.Scan.Scanner
/-!
# Splitting text into tokens

A text is split by taking the longest match again and again, beginning in the default lexical state
and following the switches of the tokens. Positions are counted in bytes. Tokens of every kind are
listed; where no token matches, the split ends with the tokens found so far.
-/

namespace ScannerTables

/-- The text behind a number of bytes, which end where a character does. -/
def dropBytes : Nat → List Char → List Char
  | 0, text => text
  | _ + 1, [] => []
  | n + 1, c :: text => dropBytes (n + 1 - c.utf8Size) text

theorem length_dropBytes_le (n : Nat) (text : List Char) :
    (dropBytes n text).length ≤ text.length := by
  induction text generalizing n with
  | nil => cases n <;> exact Nat.le_refl 0
  | cons c text ih =>
      cases n with
      | zero => exact Nat.le_refl _
      | succ n => exact Nat.le_succ_of_le (ih _)

theorem length_dropBytes_lt {n : Nat} {text : List Char} (hn : 0 < n) (hne : text ≠ []) :
    (dropBytes n text).length < text.length := by
  obtain ⟨n, rfl⟩ := Nat.exists_eq_add_one.mpr hn
  obtain ⟨c, text, rfl⟩ := List.exists_cons_of_ne_nil hne
  rw [dropBytes]
  exact Nat.lt_succ_of_le (length_dropBytes_le _ text)

/-- A token with the part of the text that it takes, as byte offsets. -/
structure ScanToken where
  token : Nat
  kind : TokenKind
  start : Nat
  stop : Nat
deriving DecidableEq

/-- The tokens of a text, and where scanning stopped if no token matched there. -/
structure Tokens where
  tokens : List ScanToken
  noMatch : Option NoMatch
deriving DecidableEq

namespace Lexer

variable (lx : Lexer)

/-- The lexical state that is in force after a token. -/
def stateAfter (state token : Nat) : Nat :=
  (((lx.states[state]?.bind (·.newLexicalState? token)).bind lx.stateIndex?)).getD state

/-- The longest match in a lexical state that takes at least one byte. -/
def nextMatch? (scanners : Array Scanner) (state : Nat) (text : List Char) : Option ScanMatch :=
  (scanners[state]?.bind (·.longestMatch text)).filter (0 < ·.length)

theorem length_pos_of_nextMatch? {scanners : Array Scanner} {state : Nat} {text : List Char}
    {m : ScanMatch} (h : nextMatch? scanners state text = some m) : 0 < m.length := by
  simpa using (Option.filter_eq_some_iff.1 h).2

/-- Splits the rest of a text that begins at a byte offset. -/
def tokenizeFrom (scanners : Array Scanner) (state offset : Nat) (text : List Char) : Tokens :=
  if text = [] then { tokens := [], noMatch := none }
  else match _h : nextMatch? scanners state text with
    | none => {
        tokens := []
        noMatch := some { offset, lexicalState := (lx.stateName? state).getD "" } }
    | some m =>
      let stop := offset + m.length
      let kind := (lx.tokenKind? m.token).getD default
      let rest := tokenizeFrom scanners (lx.stateAfter state m.token) stop (dropBytes m.length text)
      { rest with tokens := { token := m.token, kind, start := offset, stop } :: rest.tokens }
termination_by text.length
decreasing_by exact length_dropBytes_lt (length_pos_of_nextMatch? _h) ‹text ≠ []›

/-- Splits a text into tokens. -/
def tokenize (text : String) : Tokens :=
  lx.tokenizeFrom (lx.states.map (·.scanner)) 0 0 text.toList

end Lexer
end ScannerTables
