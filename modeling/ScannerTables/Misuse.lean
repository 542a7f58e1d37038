/-!
# Broken preconditions

The tables are built by calls that trust their caller: a state that is named must exist, an interval
must not be inverted, ranges are handed over in ascending order. A call whose precondition fails
answers with a `Misuse`. No token definition, however faulty, leads to one; faults of definitions
are the separate type `DefinitionError`.
-/

namespace ScannerTables

/-- The precondition that a call found broken. -/
inductive Misuse where
  /-- An interval was asked for whose lower end lies above its upper end. -/
  | invertedRange
  /-- A range was added that does not lie above the ranges already there. -/
  | unorderedRange
  /-- A state was to become its own successor. -/
  | ownSuccessor
  /-- A state or composite that does not exist was looked up. -/
  | unknownId
  /-- A set was to be complemented below a bound that is not a whole number of blocks. -/
  | unalignedLimit
deriving DecidableEq

/-- What a caller is told about a broken precondition. -/
def Misuse.message : Misuse → String
  | invertedRange => "inverted character range"
  | unorderedRange => "ascending order"
  | ownSuccessor => "own successor"
  | unknownId => "index out of bounds"
  | unalignedLimit => "assertion"

end ScannerTables
