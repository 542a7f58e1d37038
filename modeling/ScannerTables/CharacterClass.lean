import ScannerTables.IntervalSet
import ScannerTables.Unicode.CaseMapping
/-!
# Character classes

A character class lists ranges of code points, in any order and possibly overlapping, and may be
negated. `CharacterClass.members` is the set of code points that it stands for. Without case
sensitivity the class is first enlarged by the case counterparts of its members and only then
negated, so that `[^a]` excludes both `a` and `A`.
-/

namespace ScannerTables

open Unicode

/-- One past the highest Unicode code point. -/
def codePointLimit : Nat := 0x110000

/-- Every code point whose simple upper-case mapping is listed, in the order of the table. -/
def Unicode.upperPoints : List Nat := upperSpans.flatMap CaseSpan.points

/-- Every code point whose simple lower-case mapping is listed, in the order of the table. -/
def Unicode.lowerPoints : List Nat := lowerSpans.flatMap CaseSpan.points

/-- The members together with their upper-case and lower-case counterparts. -/
def IntervalSet.withCase (s : IntervalSet) : IntervalSet :=
  (s.insertAll ((upperPoints.filter (· ∈ s)).map upper)).insertAll
    ((lowerPoints.filter (· ∈ s)).map lower)

/-- Ranges of code points, or all code points but those of the ranges. -/
structure CharacterClass where
  ranges : List Interval
  negated : Bool := false
deriving DecidableEq

namespace CharacterClass

/-- The class of one range, which must not be inverted. -/
def ofRange (lo hi : Nat) : Except Misuse CharacterClass := do
  return { ranges := [← Interval.between lo hi] }

/-- Adds a range, which must not be inverted, behind the ranges of a class. -/
def addRange (k : CharacterClass) (lo hi : Nat) : Except Misuse CharacterClass := do
  return { k with ranges := k.ranges ++ [← Interval.between lo hi] }

/-- The code points that the ranges cover, with their case counterparts if case is ignored. -/
def base (k : CharacterClass) (ignoreCase : Bool) : IntervalSet :=
  if ignoreCase then (IntervalSet.ofIntervals k.ranges).withCase
  else IntervalSet.ofIntervals k.ranges

/-- The code points that the class stands for. -/
def members (k : CharacterClass) (ignoreCase : Bool) : IntervalSet :=
  if k.negated then (k.base ignoreCase).complement codePointLimit else k.base ignoreCase

/-- The class in normal form: ascending ranges that neither overlap nor touch. -/
def orderedRanges (k : CharacterClass) (ignoreCase : Bool) : List Interval :=
  (k.members ignoreCase).intervals

theorem separated_orderedRanges (k : CharacterClass) (ignoreCase : Bool) :
    Separated (k.orderedRanges ignoreCase) :=
  (k.members ignoreCase).separated

end CharacterClass
end ScannerTables
