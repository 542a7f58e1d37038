import Mathlib.Order.Interval.Finset.Nat
import ScannerTables.IntervalSet
import ScannerTables.Proofs.PackedListing
/-!
# Packed sets are finite sets

A term writes down how a packed set is made, of other sets and from the empty one on. It is run on
words, and it has a meaning as a finite set of naturals. Running it never fails, and what the set it
ends in answers is what its meaning says, whatever way was taken to it.
-/

namespace ScannerTables
namespace PackedSet

open Checked

/-- The operations that made a set. -/
inductive Term where
  | new
  | withCapacity (n : UInt32)
  | ofIntervals (l : List Interval32)
  | ofList (l : List UInt32)
  | extend (a : Term) (l : List UInt32)
  | insert (a : Term) (n : UInt32)
  | insertRange (a : Term) (lo hi : UInt32)
  | erase (a : Term) (n : UInt32)
  | clear (a : Term)
  | inter (a b : Term)
  | union (a b : Term)
  | complementWithin (a : Term) (limit : UInt32) (aligned : limit % Machine.width = 0)

namespace Term

/-- Takes the operations on words. -/
def run : Term → Except Trap PackedSet
  | new => return ∅
  | withCapacity n => PackedSet.withCapacity n
  | ofIntervals l => PackedSet.ofIntervals l
  | ofList l => PackedSet.ofList l
  | extend a l => do (← a.run).insertAll l
  | insert a n => do return (← (← a.run).insertNew n).2
  | insertRange a lo hi => do (← a.run).insertRange lo hi
  | erase a n => do (← a.run).erase n
  | clear a => return (← a.run).clear
  | inter a b => return (← a.run).inter (← b.run)
  | union a b => return ((← a.run).unionNew (← b.run)).2
  | complementWithin a limit _ => do (← a.run).complementWithin limit

/-- The finite set that the operations stand for. -/
def members : Term → Finset Nat
  | new => ∅
  | withCapacity _ => ∅
  | ofIntervals l => l.toFinset.biUnion fun i => Finset.Icc i.lo.toNat i.hi.toNat
  | ofList l => (l.map UInt32.toNat).toFinset
  | extend a l => a.members ∪ (l.map UInt32.toNat).toFinset
  | insert a n => Insert.insert n.toNat a.members
  | insertRange a lo hi => a.members ∪ Finset.Icc lo.toNat hi.toNat
  | erase a n => a.members.erase n.toNat
  | clear _ => ∅
  | inter a b => a.members ∩ b.members
  | union a b => a.members ∪ b.members
  | complementWithin a limit _ => Finset.range limit.toNat \ a.members

/-- The same operations on separated intervals. -/
def intervals : Term → IntervalSet
  | new => ∅
  | withCapacity _ => ∅
  | ofIntervals l => .ofIntervals (l.map Interval32.toInterval)
  | ofList l => .ofList (l.map UInt32.toNat)
  | extend a l => a.intervals.insertAll (l.map UInt32.toNat)
  | insert a n => (a.intervals.insertNew n.toNat).2
  | insertRange a lo hi => a.intervals.insertRange lo.toNat hi.toNat
  | erase a n => a.intervals.erase n.toNat
  | clear _ => ∅
  | inter a b => a.intervals ∩ b.intervals
  | union a b => (a.intervals.unionNew b.intervals).2
  | complementWithin a limit _ => a.intervals.complement limit.toNat

theorem covers_iff_mem_biUnion (l : List Interval32) (m : Nat) :
    Covers (l.map Interval32.toInterval) m ↔
      m ∈ l.toFinset.biUnion fun i => Finset.Icc i.lo.toNat i.hi.toNat := by
  simp only [covers_toInterval, Finset.mem_biUnion, List.mem_toFinset, Finset.mem_Icc]

/-- No operation fails, and each does to the members what it stands for. -/
theorem run_returns (a : Term) : Returns a.run fun s => ∀ m, m ∈ s ↔ m ∈ a.members := by
  induction a with
  | new => exact .pure fun m => by simp [members]
  | withCapacity n => exact (withCapacity_returns n).mono fun s h m => by simp [members, h m]
  | ofIntervals l =>
      exact (ofIntervals_returns l).mono fun s h m => (h m).trans (covers_iff_mem_biUnion l m)
  | ofList l => exact (ofList_returns l).mono fun s h m => by rw [h, members, List.mem_toFinset]
  | extend a l ih =>
      refine ih.bind fun s hs => (insertAll_returns s l).mono fun t h m => ?_
      rw [h, hs, members, Finset.mem_union, List.mem_toFinset, or_comm]
  | insert a n ih =>
      refine ih.bind fun s hs => (insertNew_returns s n).bind fun r ⟨_, h⟩ => .pure fun m => ?_
      rw [h, hs, members, Finset.mem_insert]
  | insertRange a lo hi ih =>
      refine ih.bind fun s hs => (insertRange_returns s lo hi).mono fun t h m => ?_
      rw [h, hs, members, Finset.mem_union, Finset.mem_Icc, or_comm]
  | erase a n ih =>
      refine ih.bind fun s hs => (erase_returns s n).mono fun t h m => ?_
      rw [h, hs, members, Finset.mem_erase, and_comm]
  | clear a ih => exact ih.bind fun s hs => .pure fun m => by simp [members]
  | inter a b iha ihb =>
      refine iha.bind fun s hs => ihb.bind fun t ht => .pure fun m => ?_
      rw [mem_inter, hs, ht, members, Finset.mem_inter]
  | union a b iha ihb =>
      refine iha.bind fun s hs => ihb.bind fun t ht => .pure fun m => ?_
      rw [mem_unionNew, hs, ht, members, Finset.mem_union]
  | complementWithin a limit aligned ih =>
      refine ih.bind fun s hs => (complementWithin_returns s aligned).mono fun t h m => ?_
      rw [h, hs, members, Finset.mem_sdiff, Finset.mem_range]

end Term

/-- What a set answers if its members are those of a finite set. -/
structure Refines (s : PackedSet) (F : Finset Nat) : Prop where
  lt : ∀ m ∈ F, m < UInt32.size
  contains : ∀ n : UInt32, s.contains n = .ok (decide (n.toNat ∈ F))
  insertNew : ∀ n : UInt32, ∃ t, s.insertNew n = .ok (decide (Insert.insert n.toNat F ≠ F), t)
  isEmpty : s.isEmpty = decide (F = ∅)
  card : s.card = .ok F.card
  toList : ∃ l, s.toList = .ok l ∧ l.Pairwise (· < ·) ∧ ∀ m, m ∈ l.map UInt32.toNat ↔ m ∈ F

/-- What two sets answer together if their members are those of two finite sets. -/
structure RefinesPair (s t : PackedSet) (F G : Finset Nat) : Prop where
  intersects : s.intersects t = decide ¬ Disjoint F G
  unionNew : (s.unionNew t).1 = decide (F ∪ G ≠ F)
  beq : (s == t) = decide (F = G)
  hashed : s.hashed = t.hashed ↔ F = G

theorem refines_of_mem {s : PackedSet} {F : Finset Nat} (h : ∀ m, m ∈ s ↔ m ∈ F) :
    Refines s F where
  lt m hm := lt_of_mem ((h m).mpr hm)
  contains n := by
    rw [contains_eq_ok, Except.ok.injEq, Bool.eq_iff_iff, decide_eq_true_iff]
    exact h n.toNat
  insertNew n := by
    obtain ⟨⟨fresh, t⟩, hrun, hfresh, -⟩ := insertNew_returns s n
    refine ⟨t, hrun.trans ?_⟩
    rw [Except.ok.injEq, Prod.mk.injEq, and_iff_left rfl, Bool.eq_iff_iff, hfresh,
      decide_eq_true_iff, h, Ne, Finset.insert_eq_self]
  isEmpty := by
    rw [Bool.eq_iff_iff, isEmpty_iff, decide_eq_true_iff, Finset.eq_empty_iff_forall_notMem]
    simp only [h]
  card := card_eq_ok fun m => (h m).symm
  toList := by
    obtain ⟨l, hrun, hl, -⟩ := toList_returns s
    exact ⟨l, hrun, hl.ascending, fun m => (hl.mem_iff m).trans (h m)⟩

theorem refinesPair_of_mem {s t : PackedSet} {F G : Finset Nat} (hs : ∀ m, m ∈ s ↔ m ∈ F)
    (ht : ∀ m, m ∈ t ↔ m ∈ G) : RefinesPair s t F G where
  intersects := by
    rw [Bool.eq_iff_iff, intersects_iff, decide_eq_true_iff, Finset.not_disjoint_iff]
    simp only [hs, ht]
  unionNew := by
    rw [Bool.eq_iff_iff, unionNew_fst, decide_eq_true_iff, Ne, Finset.union_eq_left,
      Finset.not_subset]
    simp only [hs, ht]
  beq := by
    rw [Bool.eq_iff_iff, beq_iff, decide_eq_true_iff, Finset.ext_iff]
    simp only [hs, ht]
  hashed := by
    rw [hashed_eq_iff, Finset.ext_iff]
    simp only [hs, ht]

/-- On separated intervals the operations stand for the same sets. -/
theorem Term.mem_intervals (a : Term) (m : Nat) : m ∈ a.intervals ↔ m ∈ a.members := by
  induction a with
  | ofIntervals l =>
      rw [intervals, IntervalSet.mem_ofIntervals, covers_iff_mem_biUnion, members]
  | complementWithin a limit aligned ih => simp [intervals, members, ih]
  | erase a n ih => simp [intervals, members, ih, and_comm]
  | _ => simp_all [intervals, members, IntervalSet.insertNew, IntervalSet.unionNew, or_comm]

/-- Whatever operations made two sets, none of them failed, and the sets answer as the finite sets
that the operations stand for. Whether they have a common member is asked of intervals with the same
answer. -/
theorem Term.run_refines (a b : Term) : ∃ s t, a.run = .ok s ∧ b.run = .ok t ∧
    Refines s a.members ∧ RefinesPair s t a.members b.members ∧
    s.intersects t = a.intervals.intersects b.intervals := by
  obtain ⟨s, hs, hmem⟩ := a.run_returns
  obtain ⟨t, ht, hmem'⟩ := b.run_returns
  refine ⟨s, t, hs, ht, refines_of_mem hmem, refinesPair_of_mem hmem hmem', ?_⟩
  rw [Bool.eq_iff_iff, intersects_iff, IntervalSet.intersects_iff]
  simp only [hmem, hmem', mem_intervals]

end PackedSet
end ScannerTables
