import Mathlib.Data.List.Perm.Subperm
import ScannerTables.Proofs.PackedTerms
/-!
# The ranges of a packed set

Reading a packed set back as ranges yields the separated ranges that cover its members. No list of
ranges with these members is shorter, and none that is as short has other ranges. So reading back
what was made from ranges is a normal form of lists of ranges.
-/

namespace ScannerTables

open Checked

/-! ### Separated lists are the shortest -/

namespace Separated

variable {l r : List Interval} {i j : Interval} {n : Nat}

theorem concat_iff :
    Separated (l ++ [i]) ↔ Separated l ∧ i.lo ≤ i.hi ∧ ∀ j ∈ l, j.hi + 1 < i.lo := by
  constructor
  · rintro ⟨hne, hapart⟩
    rw [List.pairwise_append] at hapart
    exact ⟨⟨fun j hj => hne j (by simp [hj]), hapart.1⟩, hne i (by simp),
      fun j hj => hapart.2.2 j hj i (by simp)⟩
  · rintro ⟨⟨hne, hapart⟩, hi, hlt⟩
    refine ⟨fun j hj => ?_, List.pairwise_append.mpr ⟨hapart, List.pairwise_singleton _ _, ?_⟩⟩
    · rw [List.mem_append, List.mem_singleton] at hj
      exact hj.elim (hne j) fun h => h ▸ hi
    · simpa using hlt

theorem apart_or (h : Separated l) (hi : i ∈ l) (hj : j ∈ l) (hne : i ≠ j) :
    i.hi + 1 < j.lo ∨ j.hi + 1 < i.lo := by
  let R (i j : Interval) : Prop := i.hi + 1 < j.lo ∨ j.hi + 1 < i.lo
  have : Std.Symm R := ⟨fun _ _ => Or.symm⟩
  have hR : l.Pairwise R := h.apart.imp .inl
  exact hR.forall hi hj hne

theorem eq_of_mem (h : Separated l) (hi : i ∈ l) (hj : j ∈ l) (hni : n ∈ i) (hnj : n ∈ j) :
    i = j := by
  by_contra hne
  have hapart := h.apart_or hi hj hne
  rw [Interval.mem_def] at hni hnj
  omega

/-- Any range of covered numbers that meets the first number of an interval lies inside it. -/
theorem inside (h : Separated l) (hi : i ∈ l) (hj : ∀ m ∈ j, Covers l m) (hlo : i.lo ∈ j) :
    i.lo ≤ j.lo ∧ j.hi ≤ i.hi := by
  rw [Interval.mem_def] at hlo
  have hne := h.nonempty i hi
  constructor
  · by_contra hlt
    obtain ⟨k, hk, hmem⟩ := hj (i.lo - 1) (Interval.mem_def.mpr (by omega))
    rw [Interval.mem_def] at hmem
    have hki := h.apart_or hk hi (by rintro rfl; omega)
    omega
  · by_contra hlt
    obtain ⟨k, hk, hmem⟩ := hj (i.hi + 1) (Interval.mem_def.mpr (by omega))
    rw [Interval.mem_def] at hmem
    have hki := h.apart_or hk hi (by rintro rfl; omega)
    omega

/-- Some range of a list with a number, if the list covers it. -/
def rangeOf (r : List Interval) (n : Nat) : Interval := (r.find? (n ∈ ·)).getD (.single n)

theorem rangeOf_spec (h : Covers r n) : rangeOf r n ∈ r ∧ n ∈ rangeOf r n := by
  obtain ⟨i, hi, hn⟩ := h
  have hsome : (r.find? (n ∈ ·)).isSome := List.find?_isSome.mpr ⟨i, hi, by simpa using hn⟩
  obtain ⟨j, hj⟩ := Option.isSome_iff_exists.mp hsome
  rw [rangeOf, hj, Option.getD_some]
  exact ⟨List.mem_of_find?_eq_some hj, by simpa using List.find?_some hj⟩

/-- The ranges with the first numbers of the intervals are as many as these. -/
theorem rangesOf_subperm (h : Separated l) (hcovers : ∀ n, Covers r n ↔ Covers l n) :
    (l.map fun i => rangeOf r i.lo).Subperm r := by
  have hrange : ∀ i ∈ l, rangeOf r i.lo ∈ r ∧ i.lo ∈ rangeOf r i.lo := fun i hi =>
    rangeOf_spec ((hcovers _).mpr ⟨i, hi, Nat.le_refl _, h.nonempty i hi⟩)
  have hnodup : l.Nodup := (List.Pairwise.and_mem.mp h.apart).imp fun ⟨hi, _, hlt⟩ heq => by
    have := h.nonempty _ hi
    subst heq
    omega
  refine (hnodup.map_on fun i hi j hj heq => ?_).subperm fun k hk => ?_
  · obtain ⟨hmem, hlo⟩ := hrange i hi
    have hlo' := (hrange j hj).2
    rw [← heq] at hlo'
    have hinside := h.inside hi (fun m hm => (hcovers m).mp ⟨_, hmem, hm⟩) hlo
    refine h.eq_of_mem hi hj (n := j.lo) ?_ ⟨Nat.le_refl _, h.nonempty j hj⟩
    exact ⟨Nat.le_trans hinside.1 hlo'.1, Nat.le_trans hlo'.2 hinside.2⟩
  · obtain ⟨i, hi, rfl⟩ := List.mem_map.mp hk
    exact (hrange i hi).1

theorem length_le (h : Separated l) (hcovers : ∀ n, Covers r n ↔ Covers l n) :
    l.length ≤ r.length := by
  simpa using (h.rangesOf_subperm hcovers).length_le

/-- A list of ranges that is as short has the same ranges. -/
theorem perm_of_length_le (h : Separated l) (hcovers : ∀ n, Covers r n ↔ Covers l n)
    (hlength : r.length ≤ l.length) : r.Perm l := by
  have hperm : (l.map fun i => rangeOf r i.lo).Perm r :=
    (h.rangesOf_subperm hcovers).perm_of_length_le (by simpa using hlength)
  have hinside : ∀ i ∈ l, i.lo ∈ rangeOf r i.lo ∧
      i.lo ≤ (rangeOf r i.lo).lo ∧ (rangeOf r i.lo).hi ≤ i.hi := by
    intro i hi
    obtain ⟨hmem, hlo⟩ := rangeOf_spec ((hcovers _).mpr ⟨i, hi, Nat.le_refl _, h.nonempty i hi⟩)
    exact ⟨hlo, h.inside hi (fun m hm => (hcovers m).mp ⟨_, hmem, hm⟩) hlo⟩
  -- every number of an interval lies in the range that its first number lies in
  have hfull : ∀ i ∈ l, ∀ m ∈ i, m ∈ rangeOf r i.lo := by
    intro i hi m hm
    obtain ⟨k, hk, hmk⟩ := (hcovers m).mpr ⟨i, hi, hm⟩
    obtain ⟨j, hj, rfl⟩ := List.mem_map.mp (hperm.mem_iff.mpr hk)
    obtain ⟨-, hlo, hhi⟩ := hinside j hj
    obtain rfl := h.eq_of_mem hi hj hm ⟨Nat.le_trans hlo hmk.1, Nat.le_trans hmk.2 hhi⟩
    exact hmk
  have hid : ∀ i ∈ l, rangeOf r i.lo = i := by
    intro i hi
    obtain ⟨hmem, hlo, hhi⟩ := hinside i hi
    have hlast := (hfull i hi i.hi ⟨h.nonempty i hi, Nat.le_refl _⟩).2
    cases hrange : rangeOf r i.lo
    rw [hrange] at hmem hlo hhi hlast
    exact congrArg₂ Interval.mk (Nat.le_antisymm hmem.1 hlo) (Nat.le_antisymm hhi hlast)
  rw [List.map_congr_left hid, List.map_id'] at hperm
  exact hperm.symm

end Separated

namespace PackedSet

open Machine

/-! ### Reading ranges back -/

/-- The numbers that ranges cover. -/
abbrev Covered (ranges : Array Interval32) (m : Nat) : Prop :=
  Covers (ranges.toList.map Interval32.toInterval) m

theorem map_toList_push (ranges : Array Interval32) (i : Interval32) :
    (ranges.push i).toList.map Interval32.toInterval =
      ranges.toList.map Interval32.toInterval ++ [i.toInterval] := by
  simp

/-- A number that touches no range becomes a range of its own. -/
theorem push_single {ranges : Array Interval32} {n : UInt32}
    (hsep : Separated (ranges.toList.map Interval32.toInterval))
    (hgap : ∀ m, Covered ranges m → m + 1 < n.toNat) :
    Separated ((ranges.push (.single n)).toList.map Interval32.toInterval) ∧
      ∀ m, Covered (ranges.push (.single n)) m ↔ Covered ranges m ∨ m = n.toNat := by
  have hmem : ∀ m, m ∈ (Interval32.single n).toInterval ↔ m = n.toNat := fun m =>
    Interval.mem_single
  constructor
  · rw [map_toList_push, Separated.concat_iff]
    exact ⟨hsep, Nat.le_refl _, fun j hj =>
      hgap j.hi ⟨j, hj, hsep.nonempty j hj, Nat.le_refl _⟩⟩
  · intro m
    rw [Covered, map_toList_push, Covers.append, Covers.cons, hmem]
    simp

/-- A number above all ranges is added to them as one more member. -/
theorem appendNumber_returns {ranges : Array Interval32} {n : UInt32}
    (hsep : Separated (ranges.toList.map Interval32.toInterval))
    (hlt : ∀ m, Covered ranges m → m < n.toNat) :
    Returns (appendNumber ranges n) fun ranges' =>
      Separated (ranges'.toList.map Interval32.toInterval) ∧
        ∀ m, Covered ranges' m ↔ Covered ranges m ∨ m = n.toNat := by
  rw [appendNumber]
  split
  · next last hlast =>
    obtain ⟨front, rfl⟩ := Array.back?_eq_some_iff.mp hlast
    have hcut := hsep
    rw [map_toList_push, Separated.concat_iff] at hcut
    obtain ⟨hfront, hne, hgap⟩ := hcut
    have hhi : last.hi.toNat < n.toNat :=
      hlt _ ⟨last.toInterval, by simp, hne, Nat.le_refl _⟩
    have hn : n.toNat < UInt32.size := n.toNat_lt
    have hone : (1 : UInt32).toNat = 1 := rfl
    -- the last number lies below another one, so that there is a number behind it
    obtain ⟨next, hnext, hnat⟩ := add_eq_ok (a := last.hi) (b := 1) (by omega)
    rw [hone] at hnat
    rw [hnext, ok_bind]
    split
    · next heq =>
      subst heq
      rw [Array.pop_push]
      refine .pure ⟨?_, fun m => ?_⟩
      · rw [map_toList_push, Separated.concat_iff]
        exact ⟨hfront, Nat.le_trans hne (Nat.le_of_lt hhi), hgap⟩
      · rw [Covered, Covered, map_toList_push, map_toList_push, Covers.append, Covers.append,
          or_assoc]
        refine or_congr_right ?_
        rw [Covers.cons, Covers.cons, Interval.mem_def, Interval.mem_def]
        simp only [Covers.nil, or_false, Interval32.toInterval] at hne ⊢
        omega
    · next hapart =>
      refine .pure (push_single hsep fun m hm => ?_)
      have hle : m ≤ last.hi.toNat := by
        rw [Covered, map_toList_push, Covers.append, Covers.cons] at hm
        obtain ⟨j, hj, hmj⟩ | hm | hm := hm
        · have hlast := Nat.lt_of_le_of_lt (Nat.le_succ_of_le hmj.2) (hgap j hj)
          exact Nat.le_trans (Nat.le_of_lt hlast) hne
        · exact hm.2
        · exact absurd hm Covers.nil
      have hnext : next.toNat ≠ n.toNat := fun h => hapart (UInt32.toNat_inj.mp h)
      omega
  · next hnone =>
    obtain rfl := Array.back?_eq_none_iff.mp hnone
    exact .pure (push_single .nil fun m hm => absurd hm Covers.nil)

/-- The ranges are separated and cover the members. -/
theorem toIntervals_returns (s : PackedSet) : Returns s.toIntervals fun l =>
    Separated (l.map Interval32.toInterval) ∧
      ∀ m, Covers (l.map Interval32.toInterval) m ↔ m ∈ s := by
  obtain ⟨l, hl, hlist, -⟩ := toList_returns s
  rw [toIntervals, hl, ok_bind]
  let inv (rest : List UInt32) (ranges : Array Interval32) : Prop :=
    rest.Pairwise (· < ·) ∧ Separated (ranges.toList.map Interval32.toInterval) ∧
      (∀ n ∈ rest, ∀ m, Covered ranges m → m < n.toNat) ∧
      ∀ m, Covered ranges m ∨ m ∈ rest.map UInt32.toNat ↔ m ∈ s
  have hstart : inv l #[] :=
    ⟨hlist.ascending, .nil, fun _ _ m hm => absurd hm Covers.nil,
      fun m => (or_iff_right Covers.nil).trans (hlist.mem_iff m)⟩
  refine (Returns.foldlM hstart fun n rest ranges ⟨hasc, hsep, hlt, hmem⟩ => ?_).bind
    fun ranges ⟨_, hsep, _, hmem⟩ => .pure ⟨hsep, by simpa using hmem⟩
  rw [List.pairwise_cons] at hasc
  rw [List.forall_mem_cons] at hlt
  refine (appendNumber_returns hsep hlt.1).mono fun ranges' ⟨hsep', hmem'⟩ =>
    ⟨hasc.2, hsep', fun k hk m hm => ?_, fun m => ?_⟩
  · obtain hm | rfl := (hmem' m).mp hm
    · exact hlt.2 k hk m hm
    · exact UInt32.lt_iff_toNat_lt.mp (hasc.1 k hk)
  · rw [hmem', ← hmem, List.map_cons, List.mem_cons, or_assoc]

theorem toInterval_injective : Function.Injective Interval32.toInterval := by
  intro i j h
  obtain ⟨hlo, hhi⟩ := Interval.mk.inj h
  cases i
  cases j
  exact congrArg₂ Interval32.mk (UInt32.toNat_inj.mp hlo) (UInt32.toNat_inj.mp hhi)

/-- The ranges read back from a set are separated, make up the set again, and are the shortest list
of ranges that does. -/
theorem toIntervals_shortest (s : PackedSet) : ∃ l, s.toIntervals = .ok l ∧
    (∀ i ∈ l, i.lo ≤ i.hi) ∧ (l.Pairwise fun i j => i.hi.toNat + 1 < j.lo.toNat) ∧
    (∃ t, ofIntervals l = .ok t ∧ (t == s) = true) ∧
    ∀ r t, ofIntervals r = .ok t → (t == s) = true →
      l.length ≤ r.length ∧ (r.length = l.length → r.Perm l) := by
  obtain ⟨l, hl, hsep, hmem⟩ := toIntervals_returns s
  obtain ⟨t, ht, hcovers⟩ := ofIntervals_returns l
  refine ⟨l, hl, fun i hi => ?_, ?_, ⟨t, ht, beq_iff.mpr fun m => (hcovers m).trans (hmem m)⟩, ?_⟩
  · exact hsep.nonempty i.toInterval (List.mem_map_of_mem hi)
  · exact List.pairwise_map.mp hsep.apart
  · intro r u hu heq
    obtain ⟨u', hu', hr⟩ := ofIntervals_returns r
    obtain rfl := Except.ok.inj (hu.symm.trans hu')
    have hsame : ∀ n, Covers (r.map Interval32.toInterval) n ↔
        Covers (l.map Interval32.toInterval) n := fun n => by
      rw [hmem, ← hr, beq_iff.mp heq]
    refine ⟨by simpa using hsep.length_le hsame, fun hlength => ?_⟩
    have hperm := hsep.perm_of_length_le hsame (by simp [hlength])
    exact (List.map_perm_map_iff toInterval_injective).mp hperm

/-- The ranges that a list of ranges comes to when a set is made of it and read back. -/
def normalRanges (r : List Interval32) : Except Trap (List Interval32) := do
  (← ofIntervals r).toIntervals

theorem normalRanges_returns (r : List Interval32) : Returns (normalRanges r) fun l =>
    Separated (l.map Interval32.toInterval) ∧
      ∀ m, Covers (l.map Interval32.toInterval) m ↔ Covers (r.map Interval32.toInterval) m :=
  (ofIntervals_returns r).bind fun t hmem => (toIntervals_returns t).mono fun _ ⟨hsep, hl⟩ =>
    ⟨hsep, fun m => (hl m).trans (hmem m)⟩

theorem eq_of_covers {l l' : List Interval32} (h : Separated (l.map Interval32.toInterval))
    (h' : Separated (l'.map Interval32.toInterval))
    (hcovers : ∀ m, Covers (l.map Interval32.toInterval) m ↔
      Covers (l'.map Interval32.toInterval) m) : l = l' :=
  List.map_injective_iff.mpr toInterval_injective (h.eq_of_covers h' hcovers)

/-- Lists of ranges come to the same ranges if they cover the same numbers, and what they come to
comes to itself. -/
theorem normalRanges_eq_iff (r₁ r₂ : List Interval32) : ∃ l₁ l₂,
    normalRanges r₁ = .ok l₁ ∧ normalRanges r₂ = .ok l₂ ∧ normalRanges l₁ = .ok l₁ ∧
      (l₁ = l₂ ↔ ∀ m, Covers (r₁.map Interval32.toInterval) m ↔
        Covers (r₂.map Interval32.toInterval) m) := by
  obtain ⟨l₁, h₁, hsep₁, hl₁⟩ := normalRanges_returns r₁
  obtain ⟨l₂, h₂, hsep₂, hl₂⟩ := normalRanges_returns r₂
  obtain ⟨l, h, hsep, hl⟩ := normalRanges_returns l₁
  obtain rfl := eq_of_covers hsep hsep₁ hl
  refine ⟨l, l₂, h₁, h₂, h, ?_, fun hcovers => eq_of_covers hsep hsep₂ fun m => ?_⟩
  · rintro rfl m
    rw [← hl₁, hl₂]
  · rw [hl₁, hcovers, hl₂]

theorem covers_toNat (r : List Interval32) (n : UInt32) :
    Covers (r.map Interval32.toInterval) n.toNat ↔ ∃ i ∈ r, i.lo ≤ n ∧ n ≤ i.hi := by
  simp only [covers_toInterval, UInt32.le_iff_toNat_le]

theorem exists_toNat_of_covers {r : List Interval32} {m : Nat}
    (h : Covers (r.map Interval32.toInterval) m) : ∃ n : UInt32, n.toNat = m := by
  obtain ⟨i, -, -, hm⟩ := covers_toInterval.mp h
  exact ⟨.ofNat m, UInt32.toNat_ofNat_of_lt' (Nat.lt_of_le_of_lt hm i.hi.toNat_lt)⟩

theorem forall_covers_iff (r₁ r₂ : List Interval32) :
    (∀ m, Covers (r₁.map Interval32.toInterval) m ↔ Covers (r₂.map Interval32.toInterval) m) ↔
      ∀ n : UInt32, (∃ i ∈ r₁, i.lo ≤ n ∧ n ≤ i.hi) ↔ ∃ i ∈ r₂, i.lo ≤ n ∧ n ≤ i.hi := by
  simp only [← covers_toNat]
  constructor
  · exact fun h n => h n.toNat
  · intro h m
    constructor <;> intro hm <;> obtain ⟨n, rfl⟩ := exists_toNat_of_covers hm
    · exact (h n).mp hm
    · exact (h n).mpr hm

/-- A set that operations made has the intervals that they make of intervals. -/
theorem Term.toIntervals_eq (a : Term) : ∃ s l, a.run = .ok s ∧ s.toIntervals = .ok l ∧
    l.map Interval32.toInterval = a.intervals.intervals := by
  obtain ⟨s, hs, hmem⟩ := a.run_returns
  obtain ⟨l, hl, hsep, hcovers⟩ := toIntervals_returns s
  refine ⟨s, l, hs, hl, hsep.eq_of_covers a.intervals.separated fun m => ?_⟩
  rw [hcovers, hmem, ← a.mem_intervals, IntervalSet.mem_def]

/-- Ranges read back from a set are its canonical form, and making a set of ranges and reading it
back is a normal form of lists of ranges. A set that operations made has the ranges that they make
of intervals. -/
theorem toIntervals_canonical :
    (∀ s : PackedSet, ∃ l, s.toIntervals = .ok l ∧
      (∀ i ∈ l, i.lo ≤ i.hi) ∧ (l.Pairwise fun i j => i.hi.toNat + 1 < j.lo.toNat) ∧
      (∃ t, ofIntervals l = .ok t ∧ (t == s) = true) ∧
      ∀ r t, ofIntervals r = .ok t → (t == s) = true →
        l.length ≤ r.length ∧ (r.length = l.length → r.Perm l)) ∧
    (∀ r₁ r₂ : List Interval32, ∃ l₁ l₂,
      normalRanges r₁ = .ok l₁ ∧ normalRanges r₂ = .ok l₂ ∧ normalRanges l₁ = .ok l₁ ∧
        (l₁ = l₂ ↔
          ∀ n : UInt32, (∃ i ∈ r₁, i.lo ≤ n ∧ n ≤ i.hi) ↔ ∃ i ∈ r₂, i.lo ≤ n ∧ n ≤ i.hi)) ∧
    ∀ a : Term, ∃ s l, a.run = .ok s ∧ s.toIntervals = .ok l ∧
      l.map Interval32.toInterval = a.intervals.intervals := by
  refine ⟨toIntervals_shortest, fun r₁ r₂ => ?_, Term.toIntervals_eq⟩
  rw [← forall_covers_iff]
  exact normalRanges_eq_iff r₁ r₂

/-- Ranges that touch are read back as one. -/
theorem toIntervals_canonical_touching : ∃ s,
    ofIntervals [⟨1, 2⟩, ⟨3, 5⟩] = .ok s ∧ s.toIntervals = .ok [⟨1, 5⟩] := by
  let s : PackedSet := ⟨#[62], by decide⟩
  have hs : ofIntervals [⟨1, 5⟩] = .ok s := rfl
  obtain ⟨l, hl, -, -, ⟨t, ht, hts⟩, hshortest⟩ := toIntervals_canonical.1 s
  obtain ⟨hlength, hperm⟩ := hshortest [⟨1, 5⟩] s hs (by decide)
  have hne : l ≠ [] := by
    rintro rfl
    obtain rfl := Except.ok.inj ht
    exact absurd hts (by decide)
  have hone : l.length = 1 := Nat.le_antisymm hlength (List.length_pos_iff.mpr hne)
  exact ⟨s, rfl, List.singleton_perm.mp (hperm hone.symm) ▸ hl⟩

end PackedSet
end ScannerTables
