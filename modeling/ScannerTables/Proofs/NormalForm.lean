import ScannerTables.Packed.CaseTables
import ScannerTables.Proofs.CaseFolding
import ScannerTables.Proofs.PackedRanges
/-!
# The normal form of a character class

`CharacterClass.orderedRanges` lists the code points of a class as ascending ranges with a gap
between any two of them. There is only one such list of the same code points, so the normal form of
a class does not depend on how its ranges were written.

Case expansion goes by tables of the code points that a mapping changes, which end below
`Unicode.caseLimit`. On words the tables are packed sets, and `PackedSet.orderedIntervals` computes
the same ranges with them, without a sum or a shift that does not fit.
-/

namespace ScannerTables

open Unicode Checked

/-! ### The tables of changed code points -/

namespace Unicode

variable {c : Nat} {spans : List CaseSpan}

/-- A span below the limit that changes each of its code points. -/
def CaseSpan.Proper (s : CaseSpan) : Prop :=
  0 < s.step ∧ s.first ≤ s.last ∧ s.last < caseLimit ∧ s.shift ≠ 0 ∧ 0 ≤ s.first + s.shift

instance : DecidablePred CaseSpan.Proper := fun _ => inferInstanceAs (Decidable (_ ∧ _))

theorem CaseSpan.Proper.covers_of_mem_points {s : CaseSpan} (h : s.Proper) (hc : c ∈ s.points) :
    s.covers c = true := by
  obtain ⟨hstep, hle, -⟩ := h
  obtain ⟨i, hi, rfl⟩ := List.mem_range'.mp hc
  have hbound : s.step * i ≤ s.last - s.first := by
    rw [Nat.mul_comm]
    exact (Nat.le_div_iff_mul_le hstep).mp (Nat.le_of_lt_succ hi)
  have hmod : (s.first + s.step * i - s.first) % s.step = 0 := by
    rw [Nat.add_sub_cancel_left, Nat.mul_mod_right]
  simp only [covers, Bool.and_eq_true, decide_eq_true_eq, beq_iff_eq]
  exact ⟨⟨by omega, by omega⟩, hmod⟩

/-- A table of proper spans holds the code points that it changes, all below the limit. -/
theorem mem_points_iff (hspans : ∀ s ∈ spans, s.Proper) :
    c ∈ spans.flatMap CaseSpan.points ↔ c < caseLimit ∧ mapBy spans c ≠ c := by
  refine ⟨fun hc => ?_, fun h => mem_points_of_mapBy_ne h.2⟩
  obtain ⟨t, ht, hc⟩ := List.mem_flatMap.mp hc
  have hcovers := (hspans t ht).covers_of_mem_points hc
  obtain ⟨s, hs, hcovers', heq⟩ | ⟨hnone, -⟩ := mapBy_cases spans c
  · obtain ⟨-, -, hlast, hshift, hfirst⟩ := hspans s hs
    simp only [CaseSpan.covers, Bool.and_eq_true, decide_eq_true_eq] at hcovers'
    rw [heq, CaseSpan.image]
    omega
  · exact absurd hcovers (Bool.eq_false_iff.mp (hnone t ht))

theorem mem_upperPoints : c ∈ upperPoints ↔ c < caseLimit ∧ upper c ≠ c :=
  mem_points_iff (by decide +kernel)

theorem mem_lowerPoints : c ∈ lowerPoints ↔ c < caseLimit ∧ lower c ≠ c :=
  mem_points_iff (by decide +kernel)

/-- From the limit on, code points have no case. -/
theorem upper_eq_self (hc : caseLimit ≤ c) : upper c = c := by
  by_contra h
  exact Nat.not_lt.mpr hc (mem_upperPoints.mp (mem_points_of_mapBy_ne h)).1

theorem lower_eq_self (hc : caseLimit ≤ c) : lower c = c := by
  by_contra h
  exact Nat.not_lt.mpr hc (mem_lowerPoints.mp (mem_points_of_mapBy_ne h)).1

theorem lt_codePointLimit_of_isValidChar (hc : c.isValidChar) : c < codePointLimit := by
  rw [Nat.isValidChar] at hc
  rw [codePointLimit]
  omega

end Unicode

namespace CharacterClass

variable {k : CharacterClass} {ignoreCase : Bool} {c : Nat}

/-- Case expansion adds nothing beyond Unicode. -/
theorem InBase.covers_or_lt (h : k.InBase ignoreCase c) :
    Covers k.ranges c ∨ c < codePointLimit := by
  rcases h with hc | ⟨-, d, hd, rfl | rfl⟩
  · exact .inl hc
  · by_cases heq : upper d = d
    · exact .inl (heq.symm ▸ hd)
    · exact .inr (lt_codePointLimit_of_isValidChar (isValidChar_upper_of_ne heq))
  · by_cases heq : lower d = d
    · exact .inl (heq.symm ▸ hd)
    · exact .inr (lt_codePointLimit_of_isValidChar (isValidChar_lower_of_ne heq))

theorem Contains.covers_or_lt (h : k.Contains ignoreCase c) :
    Covers k.ranges c ∨ c < codePointLimit := by
  rw [Contains] at h
  split at h
  · exact .inr h.1
  · exact h.covers_or_lt

end CharacterClass

/-! ### Tables on words -/

namespace Unicode

variable {c : UInt32}

theorem toNat_upperOf (c : UInt32) : (upperOf c).toNat = upper c.toNat := by
  refine UInt32.toNat_ofNat_of_lt' ?_
  by_cases h : upper c.toNat = c.toNat
  · rw [h]
    exact c.toNat_lt
  · exact Nat.lt_trans (lt_codePointLimit_of_isValidChar (isValidChar_upper_of_ne h)) (by decide)

theorem toNat_lowerOf (c : UInt32) : (lowerOf c).toNat = lower c.toNat := by
  refine UInt32.toNat_ofNat_of_lt' ?_
  by_cases h : lower c.toNat = c.toNat
  · rw [h]
    exact c.toNat_lt
  · exact Nat.lt_trans (lt_codePointLimit_of_isValidChar (isValidChar_lower_of_ne h)) (by decide)

end Unicode

namespace PackedSet

variable {s : PackedSet} {image : UInt32 → UInt32} {f : Nat → Nat} {limit : Nat}

/-- A mapping of numbers of 32 bits that is a mapping of naturals. -/
def Maps (image : UInt32 → UInt32) (f : Nat → Nat) : Prop := ∀ c, (image c).toNat = f c.toNat

theorem insertImages_returns (himage : Maps image f) (s members : PackedSet) :
    Returns (s.insertImages image members) fun t =>
      ∀ m, m ∈ t ↔ (∃ d ∈ members, m = f d) ∨ m ∈ s := by
  refine (toList_returns members).bind fun l ⟨hl, _⟩ =>
    (insertAll_returns s (l.map image)).mono fun t ht m => ?_
  rw [ht]
  refine or_congr_left ?_
  simp only [← hl.mem_iff, List.map_map, List.mem_map, Function.comp_apply]
  constructor
  · rintro ⟨c, hc, rfl⟩
    exact ⟨c.toNat, ⟨c, hc, rfl⟩, himage c⟩
  · rintro ⟨_, ⟨c, hc, rfl⟩, rfl⟩
    exact ⟨c, hc, himage c⟩

/-- A table that is being filled: with those of the numbers left it holds all that are changed. -/
def Filling (f : Nat → Nat) (limit : Nat) (rest : List Nat) (s : PackedSet) : Prop :=
  ∀ m, (m ∈ rest ∧ f m ≠ m) ∨ m ∈ s ↔ m < limit ∧ f m ≠ m

theorem Filling.insertChanged {n : Nat} {rest : List Nat} (himage : Maps image f)
    (hn : n < UInt32.size) (h : Filling f limit (n :: rest) s) :
    Returns (s.insertChanged image (.ofNat n)) (Filling f limit rest) := by
  have hnat : (UInt32.ofNat n).toNat = n := UInt32.toNat_ofNat_of_lt' hn
  have hsame : image (.ofNat n) = .ofNat n ↔ f n = n := by
    rw [← UInt32.toNat_inj, himage, hnat]
  rw [PackedSet.insertChanged]
  split
  · next heq =>
    refine .pure fun m => ?_
    rw [← h, List.mem_cons, or_and_right, or_assoc, or_iff_right (b := _ ∨ _)]
    rintro ⟨rfl, hne⟩
    exact hne (hsame.mp heq)
  · next hne =>
    refine (insertNew_returns s (.ofNat n)).bind fun r ⟨_, hr⟩ => .pure fun m => ?_
    have hf : f n ≠ n := fun heq => hne (hsame.mpr heq)
    rw [← h, hr, hnat, List.mem_cons, or_and_right, or_assoc, or_left_comm]
    refine or_congr_left ⟨?_, And.left⟩
    rintro rfl
    exact ⟨rfl, hf⟩

end PackedSet

/-- The tables hold the code points below the limit that the mappings change. -/
structure CaseTables.Complete (limit : Nat) (t : CaseTables) : Prop where
  mem_upper : ∀ m, m ∈ t.upper ↔ m < limit ∧ Unicode.upper m ≠ m
  mem_lower : ∀ m, m ∈ t.lower ↔ m < limit ∧ Unicode.lower m ≠ m

theorem CaseTables.build_returns {limit : Nat} (hlimit : limit ≤ UInt32.size) :
    Returns (CaseTables.build limit) (CaseTables.Complete limit) := by
  refine (PackedSet.withCapacity_returns (.ofNat limit)).bind fun upper₀ hupper₀ => ?_
  refine (PackedSet.withCapacity_returns (.ofNat limit)).bind fun lower₀ hlower₀ => ?_
  let inv (rest : List Nat) (t : CaseTables) : Prop :=
    (∀ n ∈ rest, n < limit) ∧ PackedSet.Filling Unicode.upper limit rest t.upper ∧
      PackedSet.Filling Unicode.lower limit rest t.lower
  have hstart : inv (List.range limit) ⟨upper₀, lower₀⟩ :=
    ⟨fun n => List.mem_range.mp, fun m => by simp [hupper₀], fun m => by simp [hlower₀]⟩
  refine (Returns.foldlM hstart fun n rest t ⟨hrest, hupper, hlower⟩ => ?_).mono
    fun t ⟨_, hupper, hlower⟩ =>
      ⟨fun m => by simpa using hupper m, fun m => by simpa using hlower m⟩
  rw [List.forall_mem_cons] at hrest
  have hn := Nat.lt_of_lt_of_le hrest.1 hlimit
  exact (hupper.insertChanged toNat_upperOf hn).bind fun upper₁ hupper₁ =>
    (hlower.insertChanged toNat_lowerOf hn).bind fun lower₁ hlower₁ =>
      .pure ⟨hrest.2, hupper₁, hlower₁⟩

namespace PackedSet

/-- With tables that end at the limit, case expansion adds the forms of all members. -/
theorem withCase_returns {t : CaseTables} (ht : t.Complete caseLimit) (s : PackedSet) :
    Returns (s.withCase t) fun u =>
      ∀ m, m ∈ u ↔ m ∈ s ∨ ∃ d ∈ s, m = upper d ∨ m = lower d := by
  refine (insertImages_returns toNat_upperOf s (s.inter t.upper)).bind fun u hu =>
    (insertImages_returns toNat_lowerOf u (s.inter t.lower)).mono fun v hv m => ?_
  rw [hv, hu]
  simp only [mem_inter, ht.mem_upper, ht.mem_lower]
  constructor
  · rintro (⟨d, ⟨hd, -⟩, rfl⟩ | ⟨d, ⟨hd, -⟩, rfl⟩ | hm)
    · exact .inr ⟨d, hd, .inr rfl⟩
    · exact .inr ⟨d, hd, .inl rfl⟩
    · exact .inl hm
  · rintro (hm | ⟨d, hd, rfl | rfl⟩)
    · exact .inr (.inr hm)
    · by_cases h : upper d = d
      · exact .inr (.inr (by rwa [h]))
      · have hlt : d < caseLimit := Nat.not_le.mp fun hge => h (upper_eq_self hge)
        exact .inr (.inl ⟨d, ⟨hd, hlt, h⟩, rfl⟩)
    · by_cases h : lower d = d
      · exact .inr (.inr (by rwa [h]))
      · have hlt : d < caseLimit := Nat.not_le.mp fun hge => h (lower_eq_self hge)
        exact .inl ⟨d, ⟨hd, hlt, h⟩, rfl⟩

/-- The class of some ranges of numbers of 32 bits. -/
def classOf (ranges : List Interval32) (negated : Bool) : CharacterClass where
  ranges := ranges.map Interval32.toInterval
  negated := negated

/-- On words, by tables, the normal form of a class is the same. -/
theorem orderedIntervals_returns (ranges : List Interval32) (negated ignoreCase : Bool) :
    Returns (orderedIntervals ranges negated ignoreCase) fun l =>
      l.map Interval32.toInterval = (classOf ranges negated).orderedRanges ignoreCase := by
  let k := classOf ranges negated
  rw [orderedIntervals]
  refine (ofIntervals_returns ranges).bind fun s hs => ?_
  have hbase : Returns (if ignoreCase then do s.withCase (← CaseTables.build caseLimit) else pure s)
      fun t => ∀ m, m ∈ t ↔ k.InBase ignoreCase m := by
    cases ignoreCase with
    | false => exact .pure fun m => by simp [hs, CharacterClass.InBase, k, classOf]
    | true =>
        refine (CaseTables.build_returns (by decide)).bind fun tables htables =>
          (withCase_returns htables s).mono fun t ht m => ?_
        simp [ht, hs, CharacterClass.InBase, k, classOf]
  refine hbase.bind fun t ht => ?_
  have hmembers : Returns (if negated then t.complementWithin (.ofNat codePointLimit) else pure t)
      fun u => ∀ m, m ∈ u ↔ k.Contains ignoreCase m := by
    cases negated with
    | false => exact .pure fun m => by simp [ht, CharacterClass.Contains, k, classOf]
    | true =>
        have haligned : UInt32.ofNat codePointLimit % Machine.width = 0 := by decide
        refine (complementWithin_returns t haligned).mono fun u hu m => ?_
        have hnegated : k.negated = true := rfl
        rw [hu, ht, CharacterClass.Contains, if_pos hnegated]
        rfl
  refine hmembers.bind fun u hu => (toIntervals_returns u).mono fun l hu' => ?_
  obtain ⟨hsep, hl⟩ := hu'
  refine hsep.eq_of_covers (k.separated_orderedRanges ignoreCase) fun m => ?_
  rw [hl, hu, CharacterClass.covers_orderedRanges]

end PackedSet

namespace CharacterClass

variable {k : CharacterClass}

/-- A class whose ranges have ends of 32 bits is listed on words: nothing stops the computation, and
the ranges that come of it are those of the normal form. -/
theorem exists_orderedIntervals {ranges : List Interval32}
    (h : k.ranges = ranges.map Interval32.toInterval) (ignoreCase : Bool) :
    ∃ l, PackedSet.orderedIntervals ranges k.negated ignoreCase = .ok l ∧
      l.map Interval32.toInterval = k.orderedRanges ignoreCase := by
  have hk : PackedSet.classOf ranges k.negated = k := by rw [PackedSet.classOf, ← h]
  exact hk ▸ PackedSet.orderedIntervals_returns ranges k.negated ignoreCase

/-- The normal form of a class is the one list of nonempty ascending ranges, with a gap between any
two of them, that holds the code points of the class. On words it is what `orderedIntervals` answers
with, by tables and the complement of a packed set. It goes no further than Unicode and the ranges
that were given; and case expansion misses nothing by its limit. -/
theorem orderedRanges_normal (k : CharacterClass) (ignoreCase : Bool) :
    (∀ ranges : List Interval32, k.ranges = ranges.map Interval32.toInterval →
      ∃ l, PackedSet.orderedIntervals ranges k.negated ignoreCase = .ok l ∧
        l.map Interval32.toInterval = k.orderedRanges ignoreCase ∧ (∀ i ∈ l, i.lo ≤ i.hi) ∧
        (l.Pairwise fun i j => i.hi.toNat + 1 < j.lo.toNat) ∧
        ∀ n : UInt32, (∃ i ∈ l, i.lo ≤ n ∧ n ≤ i.hi) ↔ k.Contains ignoreCase n.toNat) ∧
    (∀ l : List Interval, l = k.orderedRanges ignoreCase ↔
      (∀ i ∈ l, i.lo ≤ i.hi) ∧ l.Pairwise (fun i j => i.hi + 1 < j.lo) ∧
        ∀ c, (∃ i ∈ l, i.lo ≤ c ∧ c ≤ i.hi) ↔ k.Contains ignoreCase c) ∧
    (∀ i ∈ k.orderedRanges ignoreCase, i.hi < codePointLimit ∨ ∃ j ∈ k.ranges, i.hi ≤ j.hi) ∧
    ∀ c, caseLimit ≤ c → upper c = c ∧ lower c = c := by
  have hseparated := k.separated_orderedRanges ignoreCase
  refine ⟨fun ranges hranges => ?_, fun l => ⟨?_, ?_⟩, fun i hi => ?_,
    fun c hc => ⟨upper_eq_self hc, lower_eq_self hc⟩⟩
  · obtain ⟨l, hl, heq⟩ := exists_orderedIntervals hranges ignoreCase
    rw [← heq] at hseparated
    refine ⟨l, hl, heq, fun i hi => ?_, List.pairwise_map.mp hseparated.apart, fun n => ?_⟩
    · exact UInt32.le_iff_toNat_le.mpr (hseparated.nonempty _ (List.mem_map_of_mem hi))
    · rw [← PackedSet.covers_toNat, heq, covers_orderedRanges]
  · rintro rfl
    exact ⟨hseparated.nonempty, hseparated.apart, fun _ => covers_orderedRanges⟩
  · rintro ⟨hnonempty, hapart, hcovers⟩
    refine Separated.eq_of_covers ⟨hnonempty, hapart⟩ hseparated fun c => ?_
    exact (hcovers c).trans covers_orderedRanges.symm
  · have hmem : Covers (k.orderedRanges ignoreCase) i.hi :=
      ⟨i, hi, hseparated.nonempty i hi, Nat.le_refl _⟩
    rcases (covers_orderedRanges.mp hmem).covers_or_lt with ⟨j, hj, hij⟩ | hlt
    · exact .inr ⟨j, hj, hij.2⟩
    · exact .inl hlt

/-- Ignoring case, `[^s]` is all of Unicode but `S`, `s` and the long s, whose upper-case form is
`S`; an inverted range adds nothing. -/
example : ({ ranges := [⟨0x73, 0x73⟩, ⟨9, 5⟩, ⟨0x17F, 0x17F⟩], negated := true } :
    CharacterClass).orderedRanges true =
      [⟨0, 0x52⟩, ⟨0x54, 0x72⟩, ⟨0x74, 0x17E⟩, ⟨0x180, 0x10FFFF⟩] := by
  decide +kernel

end CharacterClass

end ScannerTables
