import ScannerTables.Automaton.State
/-!
# Ordered move ranges

The ranges of a state are ascending: none is inverted, and each lies above those before it. Both
ways of giving ranges to a state keep them so, and in ascending ranges the binary search of
`State.accepts` finds a code point exactly if some range holds it.
-/

namespace ScannerTables

/-- Ranges that are not inverted, each above those before it. Unlike separated ones they may touch.
-/
structure Ascending (l : List Interval) : Prop where
  nonempty : ∀ i ∈ l, i.lo ≤ i.hi
  below : l.Pairwise fun i j => i.hi < j.lo

namespace Ascending

variable {i : Interval} {l l' : List Interval} {c : Nat}

@[simp] theorem nil : Ascending [] := ⟨by simp, .nil⟩

theorem append_iff : Ascending (l ++ l') ↔
    Ascending l ∧ Ascending l' ∧ ∀ i ∈ l, ∀ j ∈ l', i.hi < j.lo := by
  constructor
  · rintro ⟨h, p⟩
    rw [List.pairwise_append] at p
    exact ⟨⟨fun i hi => h i (List.mem_append_left _ hi), p.1⟩,
      ⟨fun i hi => h i (List.mem_append_right _ hi), p.2.1⟩, p.2.2⟩
  · rintro ⟨⟨h, p⟩, ⟨h', p'⟩, hll'⟩
    refine ⟨?_, List.pairwise_append.mpr ⟨p, p', hll'⟩⟩
    intro i hi
    rcases List.mem_append.mp hi with hi | hi
    · exact h i hi
    · exact h' i hi

theorem cons_iff : Ascending (i :: l) ↔ i.lo ≤ i.hi ∧ (∀ j ∈ l, i.hi < j.lo) ∧ Ascending l := by
  have h := @append_iff [i] l
  simp only [List.singleton_append, List.mem_singleton, forall_eq] at h
  rw [h]
  constructor
  · rintro ⟨hi, hl, below⟩
    exact ⟨hi.nonempty i (List.mem_singleton_self i), below, hl⟩
  · rintro ⟨hi, below, hl⟩
    exact ⟨⟨by simpa using hi, List.pairwise_singleton _ _⟩, hl, below⟩

/-- One more range above all others. -/
theorem concat (h : Ascending l) (hi : i.lo ≤ i.hi) (below : ∀ j ∈ l, j.hi < i.lo) :
    Ascending (l ++ [i]) := by
  refine append_iff.mpr ⟨h, cons_iff.mpr ⟨hi, by simp, nil⟩, fun j hj k hk => ?_⟩
  rw [List.mem_singleton.mp hk]
  exact below j hj

theorem le_getLast (h : Ascending (l ++ [i])) : ∀ j ∈ l ++ [i], j.hi ≤ i.hi := by
  obtain ⟨-, hi, below⟩ := append_iff.mp h
  intro j hj
  rcases List.mem_append.mp hj with hj | hj
  · have hj' := below j hj i (List.mem_singleton_self i)
    have := hi.nonempty i (List.mem_singleton_self i)
    omega
  · obtain rfl := List.mem_singleton.mp hj
    exact Nat.le_refl _

/-- Below a range only the ranges in front of it count. -/
theorem covers_of_lt (h : Ascending (l ++ i :: l')) (hc : c < i.lo) :
    Covers (l ++ i :: l') c ↔ Covers l c := by
  obtain ⟨hi, above, -⟩ := cons_iff.mp (append_iff.mp h).2.1
  rw [Covers.append, or_iff_left]
  rintro ⟨j, hj, hmem⟩
  rw [Interval.mem_def] at hmem
  obtain rfl | hj := List.mem_cons.mp hj
  · omega
  · have := above j hj
    omega

/-- Above a range only the ranges behind it count. -/
theorem covers_of_gt (h : Ascending (l ++ i :: l')) (hc : i.hi < c) :
    Covers (l ++ i :: l') c ↔ Covers l' c := by
  obtain ⟨-, hright, below⟩ := append_iff.mp h
  have hi := (cons_iff.mp hright).1
  rw [Covers.append, Covers.cons, or_iff_right, or_iff_right]
  · rw [Interval.mem_def]
    omega
  · rintro ⟨j, hj, hmem⟩
    have := below j hj i List.mem_cons_self
    rw [Interval.mem_def] at hmem
    omega

theorem of_separated (h : Separated l) : Ascending l :=
  ⟨h.nonempty, h.apart.imp fun h => by omega⟩

theorem map_single {ns : List Nat} (h : ns.Pairwise (· < ·)) :
    Ascending (ns.map Interval.single) := by
  refine ⟨?_, List.pairwise_map.mpr h⟩
  simp [Interval.single]

end Ascending

/-- The members of a set are listed in ascending order, each once. -/
theorem IntervalSet.pairwise_toList (s : IntervalSet) : s.toList.Pairwise (· < ·) := by
  rw [toList, List.pairwise_flatMap]
  refine ⟨fun i _ => List.pairwise_lt_range', s.separated.apart.imp_of_mem ?_⟩
  intro i j _ _ hij n hn m hm
  rw [Interval.mem_toList, Interval.mem_def] at hn hm
  omega

namespace State

open Ascending

/-- Binary search in ascending ranges is exact. -/
theorem search_iff {c : Nat} {l : List Interval} (hl : Ascending l) :
    search c l = true ↔ Covers l c := by
  induction hn : l.length using Nat.strongRecOn generalizing l with
  | _ n ih =>
      subst hn
      rw [search]
      split
      · next hnone =>
        have hempty : l.length = 0 := by
          have := List.getElem?_eq_none_iff.mp hnone
          omega
        simp [List.length_eq_zero_iff.mp hempty]
      · next i hsome =>
        obtain ⟨hlt, hget⟩ := List.getElem?_eq_some_iff.mp hsome
        have hsplit : l.take (l.length / 2) ++ i :: l.drop (l.length / 2 + 1) = l := by
          rw [← hget, ← List.drop_eq_getElem_cons hlt, List.take_append_drop]
        have hparts := hsplit.symm ▸ hl
        obtain ⟨hleft, hright⟩ := append_iff.mp hparts
        split
        · next hbelow =>
          rw [ih _ (by simp only [List.length_take]; omega) hleft rfl,
            ← hparts.covers_of_lt hbelow, hsplit]
        · split
          · next habove =>
            rw [ih _ (by simp only [List.length_drop]; omega) (cons_iff.mp hright.1).2.2 rfl,
              ← hparts.covers_of_gt habove, hsplit]
          · next hlo hhi =>
            refine iff_of_true rfl ⟨i, List.mem_of_getElem? hsome, ?_⟩
            exact ⟨Nat.le_of_not_lt hlo, Nat.le_of_not_lt hhi⟩

variable {s s' : State} {c lo hi : Nat}

theorem accepts_iff (h : Ascending s.ranges) : s.accepts c = true ↔ Covers s.ranges c :=
  search_iff h

/-! ### The two ways of giving ranges to a state -/

theorem addRange_eq_ok : s.addRange lo hi = .ok s' ↔
    (∀ last ∈ s.ranges.getLast?, last.hi < lo) ∧ lo ≤ hi ∧
      s' = { s with ranges := s.ranges ++ [⟨lo, hi⟩] } := by
  cases hlast : s.ranges.getLast? with
  | none =>
      by_cases h : lo ≤ hi <;>
        simp [addRange, Interval.between, hlast, h, bind, Except.bind, pure, Except.pure, eq_comm]
  | some last =>
      by_cases hle : lo ≤ last.hi
      · have hlt : ¬ last.hi < lo := Nat.not_lt.mpr hle
        simp [addRange, hlast, hle, hlt, bind, Except.bind, throw, throwThe, MonadExceptOf.throw]
      · by_cases h : lo ≤ hi <;>
          simp [addRange, Interval.between, hlast, hle, h, bind, Except.bind, pure, Except.pure,
            eq_comm, Nat.lt_of_not_le]

theorem ascending_addRange (hs : Ascending s.ranges) (h : s.addRange lo hi = .ok s') :
    Ascending s'.ranges := by
  obtain ⟨hlast, hle, rfl⟩ := addRange_eq_ok.mp h
  apply hs.concat hle
  intro j hj
  obtain ⟨init, last, hl⟩ := List.eq_nil_or_concat s.ranges |>.resolve_left (List.ne_nil_of_mem hj)
  rw [List.concat_eq_append] at hl
  have := hlast last (by simp [hl])
  have := Ascending.le_getLast (hl ▸ hs) j (hl ▸ hj)
  simp only
  omega

theorem ascending_setCharMove (s : State) (c : Nat) (ignoreCase : Bool) :
    Ascending (s.setCharMove c ignoreCase).ranges := by
  apply Ascending.map_single
  cases ignoreCase
  · exact List.pairwise_singleton _ _
  · exact IntervalSet.pairwise_toList _

theorem covers_map_single {ns : List Nat} : Covers (ns.map Interval.single) c ↔ c ∈ ns := by
  simp only [Covers, List.mem_map]
  constructor
  · rintro ⟨_, ⟨n, hn, rfl⟩, hc⟩
    rwa [Interval.mem_single.mp hc]
  · exact fun h => ⟨_, ⟨c, h, rfl⟩, Interval.mem_single.mpr rfl⟩

end State

end ScannerTables
