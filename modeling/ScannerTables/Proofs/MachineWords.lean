import Mathlib.Data.Finset.Card
import Mathlib.Data.Nat.Find
import ScannerTables.Packed.Machine
import ScannerTables.Proofs.Checked
/-!
# The bits of machine words

Checked arithmetic answers where the result fits, with the result of the naturals. A word is taken
for the set of the numbers of its bits: `span` has the bits of a range, `trailingZeros` is the least
bit, `clearLowest` removes it and `countOnes` is the number of bits.
-/

namespace ScannerTables
namespace Machine

variable {w : Word} {a b n start stop : UInt32} {i : Nat}

theorem add_eq_ok (h : a.toNat + b.toNat < UInt32.size) :
    ∃ c, add a b = .ok c ∧ c.toNat = a.toNat + b.toNat :=
  ⟨a + b, if_pos h, by rw [UInt32.toNat_add, Nat.mod_eq_of_lt h]⟩

theorem mul_eq_ok (h : a.toNat * b.toNat < UInt32.size) :
    ∃ c, mul a b = .ok c ∧ c.toNat = a.toNat * b.toNat :=
  ⟨a * b, if_pos h, by rw [UInt32.toNat_mul, Nat.mod_eq_of_lt h]⟩

theorem bit_eq_ok (h : n < width) :
    ∃ m, bit n = .ok m ∧ ∀ i, m.getLsbD i = true ↔ i = n.toNat := by
  refine ⟨(1 : Word) <<< n.toNat, if_pos h, fun i => ?_⟩
  have hn : n.toNat < 64 := h
  rw [BitVec.getLsbD_shiftLeft, BitVec.ofNat_eq_ofNat, BitVec.getLsbD_one]
  simp only [Bool.and_eq_true, Bool.not_eq_true', decide_eq_true_eq, decide_eq_false_iff_not]
  omega

theorem span_eq_ok (hstart : start < width) (hstop : stop < width) :
    ∃ m, span start stop = .ok m ∧
      ∀ i < 64, m.getLsbD i = true ↔ start.toNat ≤ i ∧ i ≤ stop.toNat := by
  have hlow : start.toNat < 64 := hstart
  have hhigh : stop.toNat < 64 := hstop
  have hsub : (width - 1 - stop).toNat = 63 - stop.toNat :=
    UInt32.toNat_sub_of_le _ _ (Nat.le_of_lt_succ hhigh)
  refine ⟨BitVec.allOnes 64 >>> (63 - stop.toNat) &&& BitVec.allOnes 64 <<< start.toNat, ?_,
    fun i hi => ?_⟩
  · have hle : stop ≤ width - 1 := Nat.le_of_lt_succ hhigh
    have hshift : width - 1 - stop < width := by
      rw [UInt32.lt_iff_toNat_lt, hsub]
      exact Nat.lt_of_le_of_lt (Nat.sub_le _ _) (by decide)
    rw [span, sub, if_pos hle, Checked.ok_bind, shiftRight, if_pos hshift, Checked.ok_bind, hsub,
      shiftLeft, if_pos hstart]
    rfl
  · rw [BitVec.getLsbD_and, BitVec.getLsbD_ushiftRight, BitVec.getLsbD_shiftLeft,
      BitVec.getLsbD_allOnes, BitVec.getLsbD_allOnes]
    simp only [Bool.and_eq_true, Bool.not_eq_true', decide_eq_true_eq, decide_eq_false_iff_not]
    omega

/-- The lowest bit of a word. -/
theorem getLsbD_and_neg (w : Word) (i : Nat) : (w &&& -w).getLsbD i = true ↔
    w.getLsbD i = true ∧ ∀ j < i, w.getLsbD j = false := by
  rw [BitVec.getLsbD_and, BitVec.getLsbD_neg]
  have hlt : w.getLsbD i = true → i < 64 := BitVec.lt_of_getLsbD
  cases hi : w.getLsbD i
  · simp
  · simp [hlt hi]

theorem ne_zero_iff : w ≠ 0 ↔ ∃ i, w.getLsbD i = true := by
  constructor
  · intro h
    by_contra hnone
    refine h (BitVec.eq_of_getLsbD_eq fun i _ => ?_)
    rw [BitVec.ofNat_eq_ofNat, BitVec.getLsbD_zero]
    exact Bool.eq_false_iff.mpr fun hi => hnone ⟨i, hi⟩
  · rintro ⟨i, hi⟩ rfl
    rw [BitVec.ofNat_eq_ofNat, BitVec.getLsbD_zero] at hi
    exact Bool.false_ne_true hi

theorem and_ne_zero_iff {v : Word} :
    w &&& v ≠ 0 ↔ ∃ i, w.getLsbD i = true ∧ v.getLsbD i = true := by
  simp only [ne_zero_iff, BitVec.getLsbD_and, Bool.and_eq_true]

theorem or_ne_left_iff {v : Word} :
    w ||| v ≠ w ↔ ∃ i, v.getLsbD i = true ∧ ¬ w.getLsbD i = true := by
  constructor
  · intro h
    by_contra hnone
    refine h (BitVec.eq_of_getLsbD_eq fun i _ => ?_)
    rw [BitVec.getLsbD_or, Bool.or_eq_left_iff_imp]
    exact fun hi => not_not.mp fun hne => hnone ⟨i, hi, hne⟩
  · rintro ⟨i, hv, hw⟩ heq
    rw [← heq, BitVec.getLsbD_or, hv, Bool.or_true] at hw
    exact hw rfl

theorem and_neg_ne_zero (h : w ≠ 0) : w &&& -w ≠ 0 := by
  have hset := ne_zero_iff.mp h
  exact ne_zero_iff.mpr ⟨Nat.find hset, (getLsbD_and_neg w _).mpr
    ⟨Nat.find_spec hset, fun j hj => Bool.eq_false_iff.mpr (Nat.find_min hset hj)⟩⟩

theorem toNat_trailingZeros (h : w ≠ 0) : (trailingZeros w).toNat = (w &&& -w).toNat.log2 := by
  have hne : (w &&& -w).toNat ≠ 0 := fun hzero => and_neg_ne_zero h (BitVec.eq_of_toNat_eq hzero)
  have hlt : (w &&& -w).toNat.log2 < 64 := (Nat.log2_lt hne).mpr (BitVec.isLt _)
  rw [trailingZeros, if_neg h, UInt32.toNat_ofNat_of_lt']
  exact Nat.lt_trans hlt (by decide)

theorem trailingZeros_spec (h : w ≠ 0) : w.getLsbD (trailingZeros w).toNat = true ∧
    ∀ j < (trailingZeros w).toNat, w.getLsbD j = false := by
  rw [← getLsbD_and_neg, toNat_trailingZeros h, BitVec.getLsbD]
  exact Nat.testBit_log2 fun hzero => and_neg_ne_zero h (BitVec.eq_of_toNat_eq hzero)

theorem getLsbD_clearLowest (h : w ≠ 0) : (clearLowest w h).getLsbD i = true ↔
    w.getLsbD i = true ∧ i ≠ (trailingZeros w).toNat := by
  obtain ⟨hlowest, hbelow⟩ := trailingZeros_spec h
  have hlt : w.getLsbD i = true → i < 64 := BitVec.lt_of_getLsbD
  have hpred : w - 1 = ~~~ (-w) := (BitVec.not_neg w).symm
  rw [clearLowest, hpred, BitVec.getLsbD_and, BitVec.getLsbD_not, BitVec.getLsbD_neg]
  cases hi : w.getLsbD i
  · simp
  · have hsome : (∃ j < i, w.getLsbD j = true) ↔ i ≠ (trailingZeros w).toNat := by
      constructor
      · rintro ⟨j, hj, hset⟩ rfl
        exact absurd hset (Bool.eq_false_iff.mp (hbelow j hj))
      · intro hne
        refine ⟨_, ?_, hlowest⟩
        by_contra hle
        exact absurd hi (Bool.eq_false_iff.mp (hbelow i (by omega)))
    simp [hlt hi, hsome]

theorem countOnes_eq (w : Word) :
    countOnes w = ((Finset.range 64).filter (w.getLsbD · = true)).card := by
  have h : ∀ k, w.cpopNatRec k 0 = ((Finset.range k).filter (w.getLsbD · = true)).card := by
    intro k
    induction k with
    | zero => rfl
    | succ k ih =>
        rw [BitVec.cpopNatRec_succ, BitVec.cpopNatRec_add, ih, Finset.range_add_one,
          Finset.filter_insert]
        cases w.getLsbD k <;> simp
  rw [countOnes, BitVec.toNat_cpop, h]

end Machine
end ScannerTables
