/-!
# Identifiers

Which characters may start and continue an identifier is for a library of character properties to
say, and changes from one version of it to the next. It is a parameter here, and one law is all that
is asked of it: upper-case ASCII letters, digits and `_` may continue an identifier. The names that
are made for tokens consist of such characters.
-/

namespace ScannerTables

/-- The classes of characters that identifiers are made of, with the law that holds of all of
them. -/
structure IdentifierClasses where
  /-- True if a character may start an identifier. -/
  isStart : Char → Bool
  /-- True if a character may continue an identifier. -/
  isContinue : Char → Bool
  /-- Upper-case ASCII letters, digits and `_` may continue an identifier. -/
  isContinue_of_ascii : ∀ c : Char, c.isUpper ∨ c.isDigit ∨ c = '_' → isContinue c = true

namespace IdentifierClasses

/-- True if a text is an identifier: a letter, `_` or `$`, and then such characters and digits. -/
def isIdentifier (u : IdentifierClasses) (text : String) : Bool :=
  match text.toList with
  | [] => false
  | c :: cs =>
    (c == '_' || c == '$' || u.isStart c) &&
      cs.all fun c => c == '$' || u.isContinue c

/-- ASCII alone: letters start an identifier, and letters, digits and `_` continue it. -/
def ascii : IdentifierClasses where
  isStart c := c.isAlpha
  isContinue c := c.isAlphanum || c == '_'
  isContinue_of_ascii c h := by
    change (c.isUpper || c.isLower || c.isDigit || c == '_') = true
    obtain h | h | rfl := h
    · simp [h]
    · simp [h]
    · decide

end IdentifierClasses

end ScannerTables
