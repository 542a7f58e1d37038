import ScannerTables.Interval.Basic
/-!
# Separated lists of intervals

A list of intervals is separated when its intervals are nonempty and ascending and no two of them
overlap or touch. The functions here add an interval to such a list, take a natural out of it, and
form intersections and complements. For each there are two facts: which naturals the result covers,
and that the result is separated again.
-/

namespace ScannerTables

/-- The naturals that lie in some interval of a list. -/
def Covers (l : List Interval) (n : Nat) : Prop := ∃ i ∈ l, n ∈ i

/-- Nonempty intervals in ascending order, with a gap between any two of them. -/
structure Separated (l : List Interval) : Prop where
  nonempty : ∀ i ∈ l, i.lo ≤ i.hi
  apart : l.Pairwise fun i j => i.hi + 1 < j.lo

namespace Covers

variable {i : Interval} {l l' : List Interval} {n : Nat}

@[simp] theorem nil : ¬ Covers [] n := by simp [Covers]

@[simp] theorem cons : Covers (i :: l) n ↔ n ∈ i ∨ Covers l n := by simp [Covers]

@[simp] theorem append : Covers (l ++ l') n ↔ Covers l n ∨ Covers l' n := by
  simp [Covers, or_and_right, exists_or]

instance : Decidable (Covers l n) := inferInstanceAs (Decidable (∃ i ∈ l, n ∈ i))

end Covers

namespace Separated

variable {i : Interval} {l : List Interval}

@[simp] theorem nil : Separated [] := ⟨by simp, .nil⟩

theorem cons_iff :
    Separated (i :: l) ↔ i.lo ≤ i.hi ∧ (∀ j ∈ l, i.hi + 1 < j.lo) ∧ Separated l := by
  constructor
  · rintro ⟨h, p⟩
    rw [List.pairwise_cons] at p
    exact ⟨h i (by simp), p.1, fun j hj => h j (by simp [hj]), p.2⟩
  · rintro ⟨h, a, s⟩
    refine ⟨?_, List.pairwise_cons.2 ⟨a, s.apart⟩⟩
    rintro j (_ | ⟨_, hj⟩)
    · exact h
    · exact s.nonempty j hj

/-- What the rest of a separated list covers lies behind a gap. -/
theorem lt_of_covers (h : Separated (i :: l)) {n : Nat} (hn : Covers l n) : i.hi + 1 < n := by
  obtain ⟨-, hrest, -⟩ := cons_iff.1 h
  obtain ⟨j, hj, hnj⟩ := hn
  exact Nat.lt_of_lt_of_le (hrest j hj) hnj.1

/-- The first interval of a separated list is determined by what the list covers. -/
theorem head_le {j : Interval} {l' : List Interval} (h : Separated (i :: l))
    (h' : Separated (j :: l')) (hcovers : ∀ n, Covers (i :: l) n ↔ Covers (j :: l') n) :
    i.lo ≤ j.lo ∧ (i.lo = j.lo → i.hi ≤ j.hi) := by
  have hi := (cons_iff.1 h).1
  have hj := (cons_iff.1 h').1
  constructor
  · rcases Covers.cons.1 ((hcovers j.lo).2 (Covers.cons.2 (.inl ⟨Nat.le_refl _, hj⟩))) with h₁ | h₁
    · exact h₁.1
    · have := h.lt_of_covers h₁
      omega
  · intro heq
    apply Nat.le_of_not_lt
    intro hlt
    -- the number behind `j` would be covered on the left alone
    have hmem : Covers (i :: l) (j.hi + 1) := Covers.cons.2 (.inl ⟨by omega, hlt⟩)
    rcases Covers.cons.1 ((hcovers _).1 hmem) with h₁ | h₁
    · exact absurd h₁.2 (by omega)
    · exact absurd (h'.lt_of_covers h₁) (by omega)

/-- Separated lists that cover the same naturals are equal. -/
theorem eq_of_covers {l l' : List Interval} (h : Separated l) (h' : Separated l')
    (hcovers : ∀ n, Covers l n ↔ Covers l' n) : l = l' := by
  induction l generalizing l' with
  | nil =>
      cases l' with
      | nil => rfl
      | cons j l' =>
          have hmem : Covers (j :: l') j.lo :=
            Covers.cons.2 (.inl ⟨Nat.le_refl _, (cons_iff.1 h').1⟩)
          exact absurd ((hcovers _).2 hmem) Covers.nil
  | cons i l ih =>
      cases l' with
      | nil =>
          have hmem : Covers (i :: l) i.lo :=
            Covers.cons.2 (.inl ⟨Nat.le_refl _, (cons_iff.1 h).1⟩)
          exact absurd ((hcovers _).1 hmem) Covers.nil
      | cons j l' =>
          obtain ⟨hlo, hhi⟩ := h.head_le h' hcovers
          obtain ⟨hlo', hhi'⟩ := h'.head_le h fun n => (hcovers n).symm
          have hlo := Nat.le_antisymm hlo hlo'
          have hhi := Nat.le_antisymm (hhi hlo) (hhi' hlo.symm)
          obtain rfl : i = j := by
            cases i
            cases j
            simp_all
          have htail : ∀ n, Covers l n ↔ Covers l' n := by
            intro n
            constructor
            · intro hn
              have hlt := h.lt_of_covers hn
              refine (Covers.cons.1 ((hcovers n).1 (Covers.cons.2 (.inr hn)))).resolve_left ?_
              exact fun hni => absurd hni.2 (by omega)
            · intro hn
              have hlt := h'.lt_of_covers hn
              refine (Covers.cons.1 ((hcovers n).2 (Covers.cons.2 (.inr hn)))).resolve_left ?_
              exact fun hni => absurd hni.2 (by omega)
          rw [ih (cons_iff.1 h).2.2 (cons_iff.1 h').2.2 htail]

end Separated

namespace Intervals

/-! ### Adding an interval -/

/-- Adds the naturals from `lo` to `hi`, joining every interval that overlaps or touches them. -/
def add (lo hi : Nat) : List Interval → List Interval
  | [] => [⟨lo, hi⟩]
  | i :: l =>
    if hi + 1 < i.lo then ⟨lo, hi⟩ :: i :: l
    else if i.hi + 1 < lo then i :: add lo hi l
    else add (min lo i.lo) (max hi i.hi) l

theorem covers_add {l : List Interval} (hl : Separated l) {lo hi : Nat} (h : lo ≤ hi) (n : Nat) :
    Covers (add lo hi l) n ↔ (lo ≤ n ∧ n ≤ hi) ∨ Covers l n := by
  induction l generalizing lo hi with
  | nil => simp [add, Interval.mem_def]
  | cons i l ih =>
    obtain ⟨hi', -, hl⟩ := Separated.cons_iff.1 hl
    rw [add]
    split
    · simp [Interval.mem_def]
    · split
      · rw [Covers.cons, ih hl h, Covers.cons, or_left_comm]
      · rw [ih hl (by omega), Covers.cons, ← or_assoc]
        refine or_congr_left ?_
        rw [Interval.mem_def]; omega

theorem lt_lo_of_mem_add {k lo hi : Nat} {l : List Interval} (hk : k < lo)
    (hl : ∀ j ∈ l, k < j.lo) : ∀ j ∈ add lo hi l, k < j.lo := by
  induction l generalizing lo hi with
  | nil => simpa [add] using hk
  | cons i l ih =>
    have hi := hl i (by simp)
    have hl' : ∀ j ∈ l, k < j.lo := fun j hj => hl j (by simp [hj])
    rw [add]
    split
    · simp only [List.mem_cons]
      rintro j (rfl | rfl | hj)
      · exact hk
      · exact hi
      · exact hl' j hj
    · split
      · simp only [List.mem_cons]
        rintro j (rfl | hj)
        · exact hi
        · exact ih hk hl' j hj
      · exact ih (by omega) hl'

theorem separated_add {l : List Interval} (hl : Separated l) {lo hi : Nat} (h : lo ≤ hi) :
    Separated (add lo hi l) := by
  induction l generalizing lo hi with
  | nil => exact Separated.cons_iff.2 ⟨h, by simp, .nil⟩
  | cons i l ih =>
    obtain ⟨hi', ha, hl'⟩ := Separated.cons_iff.1 hl
    rw [add]
    split
    · refine Separated.cons_iff.2 ⟨h, ?_, hl⟩
      simp only [List.mem_cons]
      rintro j (rfl | hj)
      · assumption
      · have := ha j hj
        omega
    · split
      · exact Separated.cons_iff.2 ⟨hi', lt_lo_of_mem_add (by assumption) ha, ih hl' h⟩
      · exact ih hl' (by omega)

/-! ### Cutting intervals smaller -/

/-- Cutting every interval down to separated pieces of itself leaves the whole list separated. -/
theorem separated_flatMap {f : Interval → List Interval} {l : List Interval} (hl : Separated l)
    (hf : ∀ i ∈ l, Separated (f i) ∧ ∀ j ∈ f i, i.lo ≤ j.lo ∧ j.hi ≤ i.hi) :
    Separated (l.flatMap f) := by
  constructor
  · simp only [List.mem_flatMap]
    rintro j ⟨i, hi, hj⟩
    exact (hf i hi).1.nonempty j hj
  · rw [List.pairwise_flatMap]
    refine ⟨fun i hi => (hf i hi).1.apart, hl.apart.imp_of_mem ?_⟩
    intro i j hi hj hij a ha b hb
    have := ((hf i hi).2 a ha).2
    have := ((hf j hj).2 b hb).1
    omega

/-- The members of `i` other than `n`, as at most two intervals. -/
def split (n : Nat) (i : Interval) : List Interval :=
  (if i.lo < n then [⟨i.lo, min i.hi (n - 1)⟩] else []) ++
    if n < i.hi then [⟨max i.lo (n + 1), i.hi⟩] else []

theorem covers_split {n m : Nat} {i : Interval} : Covers (split n i) m ↔ m ∈ i ∧ m ≠ n := by
  rw [split, Covers.append]
  split <;> split <;> simp only [Covers.cons, Covers.nil, or_false, false_or, false_iff,
    Interval.mem_def] <;> omega

/-- Takes `n` out of the interval that holds it, which may split it in two. -/
def erase (n : Nat) (l : List Interval) : List Interval := l.flatMap (split n)

theorem covers_erase {n m : Nat} {l : List Interval} :
    Covers (erase n l) m ↔ Covers l m ∧ m ≠ n := by
  induction l with
  | nil => simp [erase]
  | cons i l ih =>
    rw [erase] at ih ⊢
    rw [List.flatMap_cons, Covers.append, Covers.cons, ih, covers_split, or_and_right]

theorem separated_erase {n : Nat} {l : List Interval} (hl : Separated l) :
    Separated (erase n l) := by
  refine separated_flatMap hl fun i hi => ?_
  have := hl.nonempty i hi
  constructor
  · rw [split]
    split <;> split <;> simp only [List.cons_append, List.nil_append, Separated.nil,
      Separated.cons_iff, List.mem_cons, List.not_mem_nil, or_false, forall_eq, and_true,
      false_implies, implies_true] <;> omega
  · rw [split]
    intro j hj
    rw [List.mem_append] at hj
    rcases hj with hj | hj <;> split at hj <;> simp only [List.mem_cons, List.not_mem_nil,
      or_false] at hj <;> subst hj <;> simp only <;> omega

/-- The parts of `i` that some interval of `l` holds too. -/
def meet (l : List Interval) (i : Interval) : List Interval :=
  (l.map i.inter).filter fun j => j.lo ≤ j.hi

theorem covers_meet {l : List Interval} {i : Interval} {n : Nat} :
    Covers (meet l i) n ↔ n ∈ i ∧ Covers l n := by
  simp only [Covers, meet, List.mem_filter, List.mem_map, decide_eq_true_eq]
  constructor
  · rintro ⟨_, ⟨⟨j, hj, rfl⟩, -⟩, hn⟩
    rw [Interval.mem_inter] at hn
    exact ⟨hn.1, j, hj, hn.2⟩
  · rintro ⟨hi, j, hj, hn⟩
    have hij : n ∈ i.inter j := Interval.mem_inter.2 ⟨hi, hn⟩
    exact ⟨i.inter j, ⟨⟨j, hj, rfl⟩, Nat.le_trans hij.1 hij.2⟩, hij⟩

/-- The naturals that two lists of intervals share. -/
def inter (l l' : List Interval) : List Interval := l.flatMap (meet l')

theorem covers_inter {l l' : List Interval} {n : Nat} :
    Covers (inter l l') n ↔ Covers l n ∧ Covers l' n := by
  induction l with
  | nil => simp [inter]
  | cons i l ih =>
    rw [inter] at ih ⊢
    rw [List.flatMap_cons, Covers.append, Covers.cons, ih, covers_meet, or_and_right]

theorem separated_inter {l l' : List Interval} (hl : Separated l) (hl' : Separated l') :
    Separated (inter l l') := by
  refine separated_flatMap hl fun i _ => ⟨⟨?_, ?_⟩, ?_⟩
  · intro j hj
    simpa using (List.mem_filter.1 hj).2
  · refine List.Pairwise.filter _ (List.pairwise_map.2 (hl'.apart.imp ?_))
    intro a b h
    simp only [Interval.inter]; omega
  · intro j hj
    obtain ⟨j, -, rfl⟩ := List.mem_map.1 (List.mem_filter.1 hj).1
    simp only [Interval.inter]; omega

/-! ### Complements -/

/-- The naturals from `start` up to `limit`, itself excluded, as at most one interval. -/
def upTo (start limit : Nat) : List Interval :=
  if start < limit then [⟨start, limit - 1⟩] else []

theorem covers_upTo {start limit n : Nat} :
    Covers (upTo start limit) n ↔ start ≤ n ∧ n < limit := by
  rw [upTo]
  split <;> simp only [Covers.cons, Covers.nil, or_false, Interval.mem_def, false_iff] <;> omega

/-- What a separated list leaves free between `start` and `limit`. -/
def gaps (start limit : Nat) : List Interval → List Interval
  | [] => upTo start limit
  | i :: l => upTo start (min i.lo limit) ++ gaps (max start (i.hi + 1)) limit l

theorem covers_gaps {l : List Interval} (hl : Separated l) {start limit n : Nat} :
    Covers (gaps start limit l) n ↔ start ≤ n ∧ n < limit ∧ ¬ Covers l n := by
  induction l generalizing start with
  | nil => simp [gaps, covers_upTo]
  | cons i l ih =>
    obtain ⟨hi, ha, hl⟩ := Separated.cons_iff.1 hl
    have far : Covers l n → i.hi + 1 < n := by
      rintro ⟨j, hj, hn⟩
      have := ha j hj
      rw [Interval.mem_def] at hn; omega
    rw [gaps, Covers.append, covers_upTo, ih hl, Covers.cons, Interval.mem_def, not_or]
    constructor
    · rintro (h | h)
      · exact ⟨h.1, by omega, by omega, fun hc => by have := far hc; omega⟩
      · exact ⟨by omega, h.2.1, by omega, h.2.2⟩
    · rintro ⟨h₁, h₂, h₃, h₄⟩
      by_cases h : n < i.lo
      · exact .inl (by omega)
      · exact .inr ⟨by omega, h₂, h₄⟩

theorem separated_gaps {l : List Interval} (hl : Separated l) {start limit : Nat} :
    Separated (gaps start limit l) ∧ ∀ j ∈ gaps start limit l, start ≤ j.lo := by
  induction l generalizing start with
  | nil =>
    rw [gaps, upTo]
    split
    · exact ⟨Separated.cons_iff.2 ⟨by simp only; omega, by simp, .nil⟩, by simp⟩
    · simp
  | cons i l ih =>
    obtain ⟨hi, ha, hl⟩ := Separated.cons_iff.1 hl
    obtain ⟨hs, hg⟩ := @ih hl (max start (i.hi + 1))
    rw [gaps, upTo]
    split
    · refine ⟨Separated.cons_iff.2 ⟨by simp only; omega, ?_, hs⟩, ?_⟩
      · intro j hj
        have := hg j hj
        simp only; omega
      · intro j hj
        rcases List.mem_cons.1 hj with rfl | hj
        · exact Nat.le_refl _
        · have := hg j hj
          omega
    · refine ⟨hs, fun j hj => ?_⟩
      have := hg j hj
      omega

end Intervals

end ScannerTables
