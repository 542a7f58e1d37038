import ScannerTables.Interval.Separated
/-!
# Finite sets of naturals

An `IntervalSet` keeps a finite set of naturals as a separated list of intervals. That form is
unique, so it is part of the type: sets with the same members are equal, and the intervals of a set
are the shortest list that describes it. Sets of code points, of states and of token ordinals are
all kept this way. Each operation comes with the lemma that says what its members are.
-/

namespace ScannerTables

/-- A finite set of naturals, kept as separated intervals. -/
structure IntervalSet where
  intervals : List Interval
  separated : Separated intervals

namespace IntervalSet

instance : DecidableEq IntervalSet := fun s t =>
  decidable_of_iff (s.intervals = t.intervals) (by cases s; cases t; simp)

instance : Membership Nat IntervalSet := ⟨fun s n => Covers s.intervals n⟩

theorem mem_def {s : IntervalSet} {n : Nat} : n ∈ s ↔ Covers s.intervals n := Iff.rfl

@[ext] theorem ext {s t : IntervalSet} (h : ∀ n, n ∈ s ↔ n ∈ t) : s = t := by
  cases s
  cases t
  congr 1
  exact Separated.eq_of_covers ‹_› ‹_› h

instance (s : IntervalSet) (n : Nat) : Decidable (n ∈ s) :=
  inferInstanceAs (Decidable (Covers _ _))

/-- The set without members. -/
def empty : IntervalSet := ⟨[], .nil⟩

instance : EmptyCollection IntervalSet := ⟨empty⟩

instance : Inhabited IntervalSet := ⟨∅⟩

@[simp] theorem not_mem_empty {n : Nat} : n ∉ (∅ : IntervalSet) := Covers.nil

/-- True if there are no members. -/
def isEmpty (s : IntervalSet) : Bool := s.intervals.isEmpty

/-- The number of members. -/
def card (s : IntervalSet) : Nat := s.intervals.foldr (fun i n => i.card + n) 0

/-- The members in ascending order. -/
def toList (s : IntervalSet) : List Nat := s.intervals.flatMap Interval.toList

@[simp] theorem mem_toList {s : IntervalSet} {n : Nat} : n ∈ s.toList ↔ n ∈ s := by
  simp [toList, mem_def, Covers]

/-- Adds the naturals from `lo` to `hi`; none if the pair is inverted. -/
def insertRange (s : IntervalSet) (lo hi : Nat) : IntervalSet :=
  if h : lo ≤ hi then ⟨Intervals.add lo hi s.intervals, Intervals.separated_add s.separated h⟩
  else s

@[simp] theorem mem_insertRange {s : IntervalSet} {lo hi n : Nat} :
    n ∈ s.insertRange lo hi ↔ (lo ≤ n ∧ n ≤ hi) ∨ n ∈ s := by
  rw [insertRange]
  split
  · exact Intervals.covers_add s.separated (by assumption) n
  · constructor
    · exact .inr
    · rintro (h | h)
      · omega
      · exact h

/-- Adds one natural. -/
def insert (s : IntervalSet) (n : Nat) : IntervalSet := s.insertRange n n

@[simp] theorem mem_insert {s : IntervalSet} {n m : Nat} : m ∈ s.insert n ↔ m = n ∨ m ∈ s := by
  rw [insert, mem_insertRange]
  refine or_congr_left ?_
  omega

/-- Adds every natural of a list. -/
def insertAll (s : IntervalSet) (l : List Nat) : IntervalSet := l.foldl insert s

@[simp] theorem mem_insertAll {s : IntervalSet} {l : List Nat} {n : Nat} :
    n ∈ s.insertAll l ↔ n ∈ l ∨ n ∈ s := by
  induction l generalizing s with
  | nil => simp [insertAll]
  | cons m l ih =>
    have : s.insertAll (m :: l) = (s.insert m).insertAll l := rfl
    rw [this, ih, mem_insert, List.mem_cons, ← or_assoc, or_comm (a := n ∈ l)]

/-- The set of the naturals in a list. -/
def ofList (l : List Nat) : IntervalSet := insertAll ∅ l

@[simp] theorem mem_ofList {l : List Nat} {n : Nat} : n ∈ ofList l ↔ n ∈ l := by simp [ofList]

/-- Adds every natural that some interval of a list holds. -/
def insertIntervals (s : IntervalSet) (l : List Interval) : IntervalSet :=
  l.foldl (fun s i => s.insertRange i.lo i.hi) s

@[simp] theorem mem_insertIntervals {s : IntervalSet} {l : List Interval} {n : Nat} :
    n ∈ s.insertIntervals l ↔ Covers l n ∨ n ∈ s := by
  induction l generalizing s with
  | nil => simp [insertIntervals]
  | cons i l ih =>
    have : s.insertIntervals (i :: l) = (s.insertRange i.lo i.hi).insertIntervals l := rfl
    rw [this, ih, mem_insertRange, Covers.cons, Interval.mem_def, ← or_assoc,
      or_comm (a := Covers l n)]

/-- The set that a list of intervals covers; inverted ones cover nothing. -/
def ofIntervals (l : List Interval) : IntervalSet := insertIntervals ∅ l

@[simp] theorem mem_ofIntervals {l : List Interval} {n : Nat} :
    n ∈ ofIntervals l ↔ Covers l n := by simp [ofIntervals]

/-- Removes one natural. -/
def erase (s : IntervalSet) (n : Nat) : IntervalSet :=
  ⟨Intervals.erase n s.intervals, Intervals.separated_erase s.separated⟩

@[simp] theorem mem_erase {s : IntervalSet} {n m : Nat} : m ∈ s.erase n ↔ m ∈ s ∧ m ≠ n :=
  Intervals.covers_erase

instance : Union IntervalSet := ⟨fun s t => s.insertIntervals t.intervals⟩

@[simp] theorem mem_union {s t : IntervalSet} {n : Nat} : n ∈ s ∪ t ↔ n ∈ s ∨ n ∈ t := by
  show n ∈ s.insertIntervals t.intervals ↔ _
  rw [mem_insertIntervals, ← mem_def, or_comm]

instance : Inter IntervalSet :=
  ⟨fun s t => ⟨Intervals.inter s.intervals t.intervals,
    Intervals.separated_inter s.separated t.separated⟩⟩

@[simp] theorem mem_inter {s t : IntervalSet} {n : Nat} : n ∈ s ∩ t ↔ n ∈ s ∧ n ∈ t :=
  Intervals.covers_inter

/-- True if the sets share a member. -/
def intersects (s t : IntervalSet) : Bool :=
  s.intervals.any fun i => t.intervals.any fun j => max i.lo j.lo ≤ min i.hi j.hi

theorem intersects_iff {s t : IntervalSet} : s.intersects t = true ↔ ∃ n, n ∈ s ∧ n ∈ t := by
  simp only [intersects, List.any_eq_true, decide_eq_true_eq]
  constructor
  · rintro ⟨i, hi, j, hj, hle⟩
    have hmem : max i.lo j.lo ∈ i.inter j := ⟨Nat.le_refl _, hle⟩
    rw [Interval.mem_inter] at hmem
    exact ⟨_, ⟨i, hi, hmem.1⟩, ⟨j, hj, hmem.2⟩⟩
  · rintro ⟨n, ⟨i, hi, hni⟩, ⟨j, hj, hnj⟩⟩
    have hmem : n ∈ i.inter j := Interval.mem_inter.mpr ⟨hni, hnj⟩
    exact ⟨i, hi, j, hj, Nat.le_trans hmem.1 hmem.2⟩

/-- The naturals below `limit` that are no members. -/
def complement (s : IntervalSet) (limit : Nat) : IntervalSet :=
  ⟨Intervals.gaps 0 limit s.intervals, (Intervals.separated_gaps s.separated).1⟩

@[simp] theorem mem_complement {s : IntervalSet} {limit n : Nat} :
    n ∈ s.complement limit ↔ n < limit ∧ n ∉ s := by
  rw [mem_def, complement, Intervals.covers_gaps s.separated]
  simp [mem_def]

/-- Complements are taken in whole blocks of this many naturals. -/
def blockSize : Nat := 64

/-- The complement below `limit`, which must be a whole number of blocks. -/
def complementWithin (s : IntervalSet) (limit : Nat) : Except Misuse IntervalSet :=
  if limit % blockSize = 0 then .ok (s.complement limit) else .error .unalignedLimit

/-! ### Operations that report a change -/

/-- Adds one natural and says whether it was new. -/
def insertNew (s : IntervalSet) (n : Nat) : Bool × IntervalSet := (n ∉ s, s.insert n)

/-- Adds the members of `t` and says whether any of them was new. -/
def unionNew (s t : IntervalSet) : Bool × IntervalSet := (s ∪ t ≠ s, s ∪ t)

end IntervalSet
end ScannerTables
