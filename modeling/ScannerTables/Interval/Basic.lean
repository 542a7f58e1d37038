import ScannerTables.Misuse
/-!
# Closed intervals of naturals

Code points, state numbers and token ordinals are naturals, and sets of them are described by closed
intervals. An `Interval` is a plain pair of ends: one whose upper end lies below its lower end is
allowed and simply has no members. `Interval.between` is the checked way to make one.
-/

namespace ScannerTables

/-- The naturals from `lo` to `hi`, both included; none when `hi < lo`. -/
structure Interval where
  lo : Nat
  hi : Nat
deriving DecidableEq

namespace Interval

instance : Membership Nat Interval := ⟨fun i n => i.lo ≤ n ∧ n ≤ i.hi⟩

theorem mem_def {i : Interval} {n : Nat} : n ∈ i ↔ i.lo ≤ n ∧ n ≤ i.hi := Iff.rfl

instance (i : Interval) (n : Nat) : Decidable (n ∈ i) := inferInstanceAs (Decidable (_ ∧ _))

/-- The interval that holds `n` alone. -/
def single (n : Nat) : Interval := ⟨n, n⟩

@[simp] theorem mem_single {n m : Nat} : n ∈ single m ↔ n = m := by
  simp only [mem_def, single]; omega

/-- The interval with the given ends, which must not be inverted. -/
def between (lo hi : Nat) : Except Misuse Interval :=
  if lo ≤ hi then .ok ⟨lo, hi⟩ else .error .invertedRange

/-- The members of both intervals. -/
def inter (i j : Interval) : Interval := ⟨max i.lo j.lo, min i.hi j.hi⟩

@[simp] theorem mem_inter {i j : Interval} {n : Nat} : n ∈ i.inter j ↔ n ∈ i ∧ n ∈ j := by
  simp only [mem_def, inter]; omega

/-- The members in ascending order. -/
def toList (i : Interval) : List Nat := List.range' i.lo (i.hi + 1 - i.lo)

@[simp] theorem mem_toList {i : Interval} {n : Nat} : n ∈ i.toList ↔ n ∈ i := by
  simp only [toList, List.mem_range'_1, mem_def]; omega

/-- The number of members. -/
def card (i : Interval) : Nat := i.hi + 1 - i.lo

@[simp] theorem length_toList (i : Interval) : i.toList.length = i.card := List.length_range'

/-- True if the upper end is an ASCII code point. -/
def isAscii (i : Interval) : Bool := i.hi < 128

end Interval
end ScannerTables
