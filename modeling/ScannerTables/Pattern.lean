import ScannerTables.CharacterClass
/-!
# Patterns

The regular expressions of token definitions. A pattern may refer to the pattern of another
definition by its label. Counted repetitions have an expansion in terms of the other operators,
`Pattern.expandRepetition`.
-/

namespace ScannerTables

/-- A regular expression over code points. -/
inductive Pattern where
  /-- One code point of a class. -/
  | charClass (chars : CharacterClass)
  /-- The characters of a text, one after the other. -/
  | literal (text : String)
  /-- Every unit in turn; the empty sequence is the empty word. -/
  | sequence (units : List Pattern)
  /-- One of the alternatives; the empty choice matches nothing. -/
  | choice (alternatives : List Pattern)
  | zeroOrMore (body : Pattern)
  | oneOrMore (body : Pattern)
  | zeroOrOne (body : Pattern)
  /-- From `min` to `max` copies of the body, without an upper bound if `max` is missing. -/
  | repetition (body : Pattern) (min : Nat) (max : Option Nat)
  /-- The pattern of the definition with the given label. -/
  | reference (label : String)

namespace Pattern

instance : Inhabited Pattern := ⟨sequence []⟩

/-! ### Equality -/

mutual

/-- Structural comparison. -/
def beq : Pattern → Pattern → Bool
  | charClass k, charClass k' => k == k'
  | literal t, literal t' => t == t'
  | sequence ps, sequence ps' => beqAll ps ps'
  | choice ps, choice ps' => beqAll ps ps'
  | zeroOrMore p, zeroOrMore p' => beq p p'
  | oneOrMore p, oneOrMore p' => beq p p'
  | zeroOrOne p, zeroOrOne p' => beq p p'
  | repetition p m n, repetition p' m' n' => beq p p' && m == m' && n == n'
  | reference l, reference l' => l == l'
  | _, _ => false

/-- Structural comparison of two lists of patterns. -/
def beqAll : List Pattern → List Pattern → Bool
  | [], [] => true
  | p :: ps, p' :: ps' => beq p p' && beqAll ps ps'
  | _, _ => false

end

mutual

theorem beq_iff : (p q : Pattern) → (beq p q = true ↔ p = q)
  | charClass _, q => by cases q <;> simp [beq]
  | literal _, q => by cases q <;> simp [beq]
  | sequence ps, q => by cases q <;> simp [beq, beqAll_iff ps]
  | choice ps, q => by cases q <;> simp [beq, beqAll_iff ps]
  | zeroOrMore p, q => by cases q <;> simp [beq, beq_iff p]
  | oneOrMore p, q => by cases q <;> simp [beq, beq_iff p]
  | zeroOrOne p, q => by cases q <;> simp [beq, beq_iff p]
  | repetition p _ _, q => by cases q <;> simp [beq, beq_iff p, and_assoc]
  | reference _, q => by cases q <;> simp [beq]

theorem beqAll_iff : (ps qs : List Pattern) → (beqAll ps qs = true ↔ ps = qs)
  | [], qs => by cases qs <;> simp [beqAll]
  | p :: ps, qs => by cases qs <;> simp [beqAll, beq_iff p, beqAll_iff ps]

end

instance : DecidableEq Pattern := fun p q => decidable_of_iff _ (beq_iff p q)

/-! ### Repetition and literals -/

/-- A counted repetition as a sequence: `min` copies of the body, then an optional copy for every
further one allowed, or one unbounded repetition if there is no upper bound. -/
def expandRepetition (body : Pattern) (min : Nat) (max : Option Nat) : Pattern :=
  sequence (List.replicate min body ++
    match max with
    | none => [zeroOrMore body]
    | some max => List.replicate (max - min) (zeroOrOne body))

/-- The text of a pattern that is a literal and nothing else. -/
def literalText? : Pattern → Option String
  | literal text => some text
  | _ => none

end Pattern
end ScannerTables
