import ScannerTables.CharacterClass
import ScannerTables.Packed.Ranges
/-!
# Case expansion by tables

Which code points a case mapping changes is written down once in packed sets. A set is then enlarged
by the images of those of its members that are in the tables, which is faster than to try them all.
-/

namespace ScannerTables

open Unicode

/-- The simple upper-case mapping of numbers of 32 bits. -/
def Unicode.upperOf (c : UInt32) : UInt32 := .ofNat (upper c.toNat)

/-- The simple lower-case mapping of numbers of 32 bits. -/
def Unicode.lowerOf (c : UInt32) : UInt32 := .ofNat (lower c.toNat)

/-- The code points that the case mappings change. -/
structure CaseTables where
  upper : PackedSet
  lower : PackedSet

namespace PackedSet

/-- Adds a number if the mapping changes it. -/
def insertChanged (s : PackedSet) (image : UInt32 → UInt32) (c : UInt32) :
    Except Trap PackedSet := do
  if image c = c then return s else return (← s.insertNew c).2

/-- Adds the images of the members of another set. -/
def insertImages (s : PackedSet) (image : UInt32 → UInt32) (members : PackedSet) :
    Except Trap PackedSet := do
  s.insertAll ((← members.toList).map image)

end PackedSet

namespace CaseTables

/-- Tries every code point below the limit. -/
def build (limit : Nat) : Except Trap CaseTables := do
  let upper ← PackedSet.withCapacity (.ofNat limit)
  let lower ← PackedSet.withCapacity (.ofNat limit)
  (List.range limit).foldlM (fun t n => do
      let upper ← t.upper.insertChanged upperOf (.ofNat n)
      let lower ← t.lower.insertChanged lowerOf (.ofNat n)
      return { upper, lower })
    { upper, lower }

end CaseTables

namespace PackedSet

/-- The members together with their upper-case and lower-case counterparts. -/
def withCase (s : PackedSet) (t : CaseTables) : Except Trap PackedSet := do
  let uppers := s.inter t.upper
  let lowers := s.inter t.lower
  let s ← s.insertImages upperOf uppers
  s.insertImages lowerOf lowers

/-- The numbers of a class as ranges: those of the ranges given, with their case counterparts if
case is ignored, or the code points that are not among them. -/
def orderedIntervals (ranges : List Interval32) (negated ignoreCase : Bool) :
    Except Trap (List Interval32) := do
  let s ← ofIntervals ranges
  let s ← (if ignoreCase then do s.withCase (← CaseTables.build caseLimit) else pure s)
  let s ← (if negated then s.complementWithin (.ofNat codePointLimit) else pure s)
  s.toIntervals

end PackedSet
end ScannerTables
