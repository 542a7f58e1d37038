import ScannerTables.Interval.Basic
import ScannerTables.Packed.Set
/-!
# Ranges of packed sets

A packed set is made from ranges of numbers, in any order and possibly overlapping or inverted, and
is read back as ranges, of which as few are made as its members allow.
-/

namespace ScannerTables

/-- A range of numbers of 32 bits, with no members if its ends are inverted. -/
structure Interval32 where
  lo : UInt32
  hi : UInt32
deriving DecidableEq

namespace Interval32

/-- The range of one number. -/
def single (n : UInt32) : Interval32 := ⟨n, n⟩

/-- The same range as an interval of naturals. -/
def toInterval (i : Interval32) : Interval := ⟨i.lo.toNat, i.hi.toNat⟩

end Interval32

namespace PackedSet

open Machine

/-- Adds the numbers of every range of a list. -/
def insertIntervals (s : PackedSet) (l : List Interval32) : Except Trap PackedSet :=
  l.foldlM (fun s i => s.insertRange i.lo i.hi) s

/-- The set that a list of ranges covers. -/
def ofIntervals (l : List Interval32) : Except Trap PackedSet := insertIntervals ∅ l

/-- Adds a number to ranges that lie below it: to the last one, if it comes right behind it. -/
def appendNumber (ranges : Array Interval32) (n : UInt32) : Except Trap (Array Interval32) :=
  match ranges.back? with
  | some last => do
    if (← add last.hi 1) = n then return ranges.pop.push ⟨last.lo, n⟩
    else return ranges.push (.single n)
  | none => return ranges.push (.single n)

/-- The members as ascending ranges that neither overlap nor touch. -/
def toIntervals (s : PackedSet) : Except Trap (List Interval32) := do
  return (← (← s.toList).foldlM appendNumber #[]).toList

end PackedSet
end ScannerTables
