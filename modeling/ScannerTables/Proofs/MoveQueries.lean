import Mathlib.Data.List.Sort
import ScannerTables.Automaton.Basic
import ScannerTables.Proofs.MoveRanges
import ScannerTables.Proofs.Records
import ScannerTables.Scan.Scanner
/-!
# Queries of move ranges

A state is given its ranges by calls of two kinds: one adds a range behind the others, the other
replaces them all by the variants of a character, sorted. After any calls that succeed the ranges
ascend, and so each query, which looks at some of the ranges only, answers for all of them.
-/

namespace ScannerTables
namespace State

open Checked

variable {s t : State} {c : Nat} {l : List Interval}

/-! ### Variants of a character -/

/-- The upper-case form of a character, the lower-case form if that is another one, and the
character if it is neither. -/
def casePoints (c : Nat) : List Nat :=
  Unicode.upper c :: (if Unicode.lower c = Unicode.upper c then [] else [Unicode.lower c]) ++
    if c = Unicode.upper c ∨ c = Unicode.lower c then [] else [c]

theorem nodup_casePoints (c : Nat) : (casePoints c).Nodup := by
  rw [casePoints]
  generalize Unicode.upper c = u
  generalize Unicode.lower c = v
  split_ifs <;> grind

theorem mem_casePoints {c d : Nat} : d ∈ casePoints c ↔ CharVariant true c d := by
  rw [casePoints, CharVariant]
  generalize Unicode.upper c = u
  generalize Unicode.lower c = v
  split_ifs <;> grind

/-- The variants of a character are these, sorted. -/
theorem caseVariants_eq (c : Nat) : caseVariants c = (casePoints c).mergeSort := by
  have hascending : (caseVariants c).Pairwise (· < ·) := IntervalSet.pairwise_toList _
  have hperm : (caseVariants c).Perm (casePoints c) :=
    (List.perm_ext_iff_of_nodup (hascending.imp Nat.ne_of_lt) (nodup_casePoints c)).mpr fun d => by
      rw [mem_caseVariants, mem_casePoints]
  exact (hperm.trans (List.mergeSort_perm _ _).symm).eq_of_sortedLE
    (hascending.imp Nat.le_of_lt).sortedLE List.sortedLE_mergeSort

/-! ### Calls -/

/-- A call that gives ranges to a state. -/
inductive MoveCall where
  | addRange (lo hi : Nat)
  | setCharMove (c : Nat) (ignoreCase : Bool)

def MoveCall.run (s : State) : MoveCall → Except Misuse State
  | addRange lo hi => s.addRange lo hi
  | setCharMove c ignoreCase => .ok (s.setCharMove c ignoreCase)

/-- A state after calls that all succeeded, of which the first found no ranges. -/
def Called (t : State) : Prop :=
  ∃ (s : State) (calls : List MoveCall), calls.foldlM MoveCall.run { s with ranges := [] } = .ok t

theorem MoveCall.ascending {call : MoveCall} (hs : Ascending s.ranges) (h : call.run s = .ok t) :
    Ascending t.ranges := by
  cases call with
  | addRange lo hi => exact ascending_addRange hs h
  | setCharMove c ignoreCase =>
      obtain rfl := Except.ok.inj h
      exact ascending_setCharMove s c ignoreCase

theorem ascending_foldlM {calls : List MoveCall} (hs : Ascending s.ranges)
    (h : calls.foldlM MoveCall.run s = .ok t) : Ascending t.ranges := by
  induction calls generalizing s with
  | nil =>
      obtain rfl := Except.ok.inj h
      exact hs
  | cons call calls ih =>
      obtain ⟨u, hu, h⟩ := bind_eq_ok.mp h
      exact ih (call.ascending hs hu) h

theorem Called.ascending (h : t.Called) : Ascending t.ranges := by
  obtain ⟨s, calls, h⟩ := h
  exact ascending_foldlM .nil h

/-! ### The parts of the ranges -/

theorem lo_lt_of_mem_asciiPart {i : Interval} (hi : i ∈ asciiPart l) : i.lo < 128 := by
  induction l with
  | nil => exact absurd hi List.not_mem_nil
  | cons j l ih =>
      rw [asciiPart] at hi
      split_ifs at hi with hlo hhi
      · exact absurd hi List.not_mem_nil
      · obtain rfl := List.mem_singleton.mp hi
        exact Nat.not_le.mp hlo
      · obtain rfl | hi := List.mem_cons.mp hi
        · exact Nat.not_le.mp hlo
        · exact ih hi

/-- A range behind one that reaches past ASCII starts past ASCII. -/
theorem le_lo_of_mem_drop (hl : Ascending l) :
    ∀ i ∈ l.drop (asciiPart l).length, 128 ≤ i.lo := by
  induction l with
  | nil => simp
  | cons j l ih =>
      obtain ⟨hj, below, hl⟩ := Ascending.cons_iff.mp hl
      rw [asciiPart]
      split_ifs with hlo hhi
      · rw [List.length_nil, List.drop_zero, List.forall_mem_cons]
        exact ⟨hlo, fun i hi => Nat.le_trans (Nat.le_trans hlo hj) (Nat.le_of_lt (below i hi))⟩
      · exact fun i hi => Nat.le_trans hhi (Nat.le_of_lt (below i hi))
      · exact ih hl

theorem hasAsciiMoves_iff (hs : Ascending s.ranges) :
    s.hasAsciiMoves = true ↔ ∃ c < 128, s.accepts c = true := by
  simp only [accepts_iff hs]
  rw [hasAsciiMoves]
  cases hl : s.ranges with
  | nil => simp
  | cons i l =>
      rw [hl] at hs
      obtain ⟨hi, below, -⟩ := Ascending.cons_iff.mp hs
      rw [List.head?_cons, Option.any_some, decide_eq_true_iff]
      constructor
      · exact fun hlt => ⟨i.lo, hlt, Covers.cons.mpr (.inl ⟨Nat.le_refl _, hi⟩)⟩
      · rintro ⟨c, hc, j, hj, hlo, -⟩
        obtain rfl | hj := List.mem_cons.mp hj
        · exact Nat.lt_of_le_of_lt hlo hc
        · have := below j hj
          omega

theorem hasNonAsciiMoves_iff (hs : Ascending s.ranges) :
    s.hasNonAsciiMoves = true ↔ ∃ c, 128 ≤ c ∧ s.accepts c = true := by
  simp only [accepts_iff hs]
  rw [hasNonAsciiMoves]
  obtain hl | ⟨l, i, hl⟩ := List.eq_nil_or_concat s.ranges
  · simp [hl]
  · rw [List.concat_eq_append] at hl
    rw [hl] at hs ⊢
    rw [List.getLast?_concat, Option.any_some, decide_eq_true_iff]
    constructor
    · have hi := hs.nonempty i (by simp)
      exact fun hle => ⟨i.hi, hle, i, by simp, hi, Nat.le_refl _⟩
    · rintro ⟨c, hc, j, hj, -, hhi⟩
      exact Nat.le_trans hc (Nat.le_trans hhi (hs.le_getLast j hj))

/-! ### Common characters -/

theorem sharesMove_iff (hs : Ascending s.ranges) (ht : Ascending t.ranges) :
    s.sharesMove t = true ↔ ∃ c, s.accepts c = true ∧ t.accepts c = true := by
  simp only [sharesMove, IntervalSet.intersects_iff, IntervalSet.mem_ofIntervals, accepts_iff hs,
    accepts_iff ht]

theorem overlaps_iff {id : Nat} {others : List (Nat × State)} (hs : Ascending s.ranges)
    (hothers : ∀ o ∈ others, Ascending o.2.ranges) : s.overlaps id others = true ↔
      ∃ o ∈ others, o.1 = id ∨ ∃ c, s.accepts c = true ∧ o.2.accepts c = true := by
  rw [overlaps, List.any_eq_true]
  refine exists_congr fun o => and_congr_right fun ho => ?_
  rw [Bool.or_eq_true, decide_eq_true_iff, sharesMove_iff hs (hothers o ho)]

/-! ### All queries -/

/-- The ranges are in order, what is asked about them is answered as if all were looked at, and made
to move on a character whose case is ignored, the state gets its variants in order. -/
structure Exact (t : State) : Prop where
  nonempty : ∀ i ∈ t.ranges, i.lo ≤ i.hi
  below : t.ranges.Pairwise fun i j => i.hi < j.lo
  accepts_iff : ∀ c, t.accepts c = true ↔ ∃ i ∈ t.ranges, i.lo ≤ c ∧ c ≤ i.hi
  accepts_eq_moves : ∀ (m : Member) (c : Nat), m.ranges = t.ranges → t.accepts c = m.moves c
  parts : t.asciiRanges ++ t.nonAsciiRanges = t.ranges
  ascii_lo : ∀ i ∈ t.asciiRanges, i.lo < 128
  nonAscii_lo : ∀ i ∈ t.nonAsciiRanges, 128 ≤ i.lo
  hasAscii_iff : t.hasAsciiMoves = true ↔ ∃ c < 128, t.accepts c = true
  hasNonAscii_iff : t.hasNonAsciiMoves = true ↔ ∃ c, 128 ≤ c ∧ t.accepts c = true
  overlaps_iff : ∀ (id : Nat) (others : List (Nat × State)), (∀ o ∈ others, o.2.Called) →
    (t.overlaps id others = true ↔
      ∃ o ∈ others, o.1 = id ∨ ∃ c, t.accepts c = true ∧ o.2.accepts c = true)
  ranges_variants : ∀ c, (t.setCharMove c true).ranges = (casePoints c).mergeSort.map .single

theorem moves_iff {m : Member} : m.moves c = true ↔ Covers m.ranges c := by
  simp [Member.moves, Covers]

/-- After any calls that succeed, each fast query of the ranges is exact. -/
theorem exact_of_called (h : t.Called) : t.Exact where
  nonempty := h.ascending.nonempty
  below := h.ascending.below
  accepts_iff _ := State.accepts_iff h.ascending
  accepts_eq_moves m c hm := by
    rw [Bool.eq_iff_iff, State.accepts_iff h.ascending, moves_iff, hm]
  parts := asciiRanges_append_nonAsciiRanges t
  ascii_lo _ := lo_lt_of_mem_asciiPart
  nonAscii_lo := le_lo_of_mem_drop h.ascending
  hasAscii_iff := hasAsciiMoves_iff h.ascending
  hasNonAscii_iff := hasNonAsciiMoves_iff h.ascending
  overlaps_iff _ _ hothers := State.overlaps_iff h.ascending fun o ho => (hothers o ho).ascending
  ranges_variants c := by rw [setCharMove, if_pos rfl, caseVariants_eq]

/-- A title-case letter has three variants, which are three ranges; one more is added behind them. A
state of one of the variants has a character in common with it. -/
theorem exact_titlecase : ∃ t u : State, t.Called ∧ u.Called ∧
    t.ranges = [.single 0x1C4, .single 0x1C5, .single 0x1C6, ⟨0x1F0, 0x24F⟩] ∧
      t.Exact ∧ t.overlaps 0 [(1, u)] = true := by
  let t : State := { ranges := [.single 0x1C4, .single 0x1C5, .single 0x1C6, ⟨0x1F0, 0x24F⟩] }
  let u : State := { ranges := [.single 0x1C4] }
  have ht : t.Called := ⟨{}, [.setCharMove 0x1C5 true, .addRange 0x1F0 0x24F], by decide +kernel⟩
  have hu : u.Called := ⟨{}, [.setCharMove 0x1C4 false], rfl⟩
  have hcommon : t.accepts 0x1C4 = true ∧ u.accepts 0x1C4 = true :=
    ⟨((exact_of_called ht).accepts_iff _).mpr ⟨.single 0x1C4, by decide⟩,
      ((exact_of_called hu).accepts_iff _).mpr ⟨.single 0x1C4, by decide⟩⟩
  refine ⟨t, u, ht, hu, rfl, exact_of_called ht,
    ((exact_of_called ht).overlaps_iff 0 [(1, u)] ?_).mpr ?_⟩
  · simpa using hu
  · exact ⟨(1, u), by simp, .inr ⟨0x1C4, hcommon⟩⟩

end State
end ScannerTables
