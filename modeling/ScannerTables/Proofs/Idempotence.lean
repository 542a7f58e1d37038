import ScannerTables.Proofs.Closure
/-!
# Closing twice

The epsilon moves that closing leaves make a summary of paths that no longer exist: the states
without ranges that these passed are gone from them. `Closes.path_iff` is what takes their place. A
path without characters that closing leaves ends where it starts, or at a state with ranges that
could be reached before. So a closed automaton is a summary of itself, `Closes.closes_self`; and
since a summary with ascending epsilon moves is determined by the automaton that it is a summary of,
closing leaves a closed automaton as it is.
-/

namespace ScannerTables.Automaton

variable {a a' a'' : Automaton} {p q : Nat}

theorem Closes.state?_eq_none (h : a.Closes a') : a'.state? p = none ↔ a.state? p = none := by
  rw [← Option.not_isSome_iff_eq_none, ← Option.not_isSome_iff_eq_none, state?_isSome,
    state?_isSome, h.size_eq]

/-! ### Paths that closing leaves -/

/-- Closing keeps which states have ranges. -/
theorem Closes.hasRanges_iff (h : a.Closes a') : (∃ t, a'.state? q = some t ∧ t.ranges ≠ []) ↔
    ∃ t, a.state? q = some t ∧ t.ranges ≠ [] := by
  constructor
  · rintro ⟨t', ht', hne⟩
    obtain ⟨t, ht⟩ := exists_state? (h.size_eq ▸ lt_size ht')
    exact ⟨t, ht, (h.state q t t' ht ht').ranges_eq ▸ hne⟩
  · rintro ⟨t, ht, hne⟩
    obtain ⟨t', ht', hcloses⟩ := h.exists_state ht
    exact ⟨t', ht', hcloses.ranges_eq ▸ hne⟩

/-- What an epsilon move of the closed automaton leads to. -/
theorem Closes.moves_iff (h : a.Closes a') (hp : p < a.size) : a'.moves p none q ↔
    Path a.moves p [] q ∧ ∃ t, a.state? q = some t ∧ t.ranges ≠ [] := by
  obtain ⟨s, hs⟩ := exists_state? hp
  obtain ⟨s', hs', hcloses⟩ := h.exists_state hs
  rw [← hcloses.mem_epsilon]
  constructor
  · rintro ⟨t, ht, hq⟩
    obtain rfl := Option.some.inj (hs'.symm.trans ht)
    exact hq
  · exact fun hq => ⟨s', hs', hq⟩

/-- A path without characters that closing leaves is empty, or it leads to a state with ranges that
could be reached before. -/
theorem Closes.path_iff (h : a.Closes a') (hp : p < a.size) : Path a'.moves p [] q ↔
    q = p ∨ Path a.moves p [] q ∧ ∃ t, a.state? q = some t ∧ t.ranges ≠ [] := by
  constructor
  · intro path
    generalize hw : ([] : List Nat) = w at path
    induction path with
    | refl => exact .inl rfl
    | @epsilon p m q w hm _ ih =>
        subst hw
        obtain ⟨first, t, ht, hne⟩ := (h.moves_iff hp).mp hm
        obtain rfl | ⟨rest, hranges⟩ := ih (lt_size ht) rfl
        · exact .inr ⟨first, t, ht, hne⟩
        · exact .inr ⟨first.trans rest, hranges⟩
    | char => exact absurd hw (by simp)
  · rintro (rfl | hq)
    · exact .refl q
    · exact .epsilon ((h.moves_iff hp).mpr hq) (.refl q)

/-- A path without characters that closing leaves was there before. -/
theorem Closes.path_of_path (h : a.Closes a') (hp : p < a.size) (path : Path a'.moves p [] q) :
    Path a.moves p [] q := by
  obtain rfl | ⟨path, -⟩ := (h.path_iff hp).mp path
  · exact .refl q
  · exact path

/-! ### The summary of a summary -/

/-- A closed automaton sums up itself. -/
theorem Closes.closes_self (h : a.Closes a') : a'.Closes a' where
  size_eq := rfl
  state p s₁ s' hs₁ hs' := by
    obtain rfl := Option.some.inj (hs₁.symm.trans hs')
    have hp : p < a.size := h.size_eq ▸ lt_size hs'
    obtain ⟨s, hs⟩ := exists_state? hp
    have hcloses := h.state p s s₁ hs hs'
    refine ⟨rfl, rfl, rfl, ?_, ?_⟩
    · intro q
      rw [hcloses.mem_epsilon, h.hasRanges_iff]
      refine and_congr_left fun hranges => ⟨fun path => ?_, h.path_of_path hp⟩
      exact (h.path_iff hp).mpr (.inr ⟨path, hranges⟩)
    · constructor
      · exact fun hfinal => ⟨p, s₁, .refl p, hs', hfinal⟩
      · rintro ⟨q, t', path, ht', hfinal⟩
        obtain ⟨t, ht⟩ := exists_state? (h.size_eq ▸ lt_size ht')
        -- the final state that `q` stands for could be reached through `q` before
        obtain ⟨r, u, rest, hu, hfinal⟩ := (h.state q t t' ht ht').final_iff.mp hfinal
        exact hcloses.final_iff.mpr ⟨r, u, (h.path_of_path hp path).trans rest, hu, hfinal⟩

/-- Every state has ascending epsilon moves, each of them once. -/
def EpsilonsAscend (a : Automaton) : Prop := ∀ s ∈ a.states, s.epsilon.Pairwise (· < ·)

theorem epsilonsAscend_of_close (h : a.close = .ok a') : a'.EpsilonsAscend := by
  intro s' hmem
  obtain ⟨p, hs'⟩ := Array.mem_iff_getElem?.mp hmem
  obtain ⟨hsize, hstates⟩ := closed_of_close h
  obtain ⟨s, hs⟩ := exists_state? (hsize ▸ lt_size hs')
  obtain ⟨l, hl, rfl⟩ := hstates p s s' hs hs'
  exact (Graph.pairwise_reachable hl).filter _

/-- There is one summary of an automaton with ascending epsilon moves. -/
theorem Closes.unique (h' : a.Closes a') (hascend' : a'.EpsilonsAscend) (h'' : a.Closes a'')
    (hascend'' : a''.EpsilonsAscend) : a' = a'' := by
  apply ext_state?
  intro p
  cases hs : a.state? p with
  | none =>
      exact (h'.state?_eq_none.mpr hs).trans (h''.state?_eq_none.mpr hs).symm
  | some s =>
      obtain ⟨s', hs', hcloses'⟩ := h'.exists_state hs
      obtain ⟨s'', hs'', hcloses''⟩ := h''.exists_state hs
      have hepsilon : s'.epsilon = s''.epsilon :=
        (hascend' s' (Array.mem_of_getElem? hs')).eq_of_mem_iff
          (hascend'' s'' (Array.mem_of_getElem? hs''))
          fun {q} => (hcloses'.mem_epsilon q).trans (hcloses''.mem_epsilon q).symm
      have hfinal : s'.isFinal = s''.isFinal :=
        Bool.eq_iff_iff.mpr (hcloses'.final_iff.trans hcloses''.final_iff.symm)
      have heq : s' = s'' := by
        cases s'
        cases s''
        congr 1
        · exact hcloses'.token_eq.trans hcloses''.token_eq.symm
        · exact hcloses'.next_eq.trans hcloses''.next_eq.symm
        · exact hcloses'.ranges_eq.trans hcloses''.ranges_eq.symm
      rw [hs', hs'', heq]

/-- The epsilon moves of a summary lead to states that have ranges, and so exist. -/
theorem Closes.epsilonsExist (h : a.Closes a') : a'.EpsilonsExist := by
  intro s' hmem q hq
  obtain ⟨p, hs'⟩ := Array.mem_iff_getElem?.mp hmem
  obtain ⟨-, t, ht, -⟩ := (h.closes_self.state p s' s' hs' hs').mem_epsilon q |>.mp hq
  exact lt_size ht

/-- An automaton that sums up itself, with ascending epsilon moves, is left as it is by closing. -/
theorem Closes.close_eq_self (h : a.Closes a) (hascend : a.EpsilonsAscend) : a.close = .ok a := by
  obtain ⟨a', hclose⟩ := h.epsilonsExist.exists_close
  rw [hclose, h.unique hascend (closes_of_close hclose) (epsilonsAscend_of_close hclose)]

/-- Where every epsilon move leads to a state that exists, closing succeeds. It keeps the tokens,
successors and ranges of all states; the epsilon moves of a state become the ascending list of the
states with ranges that it reached without a character, and it is final if it so reached a final
state. Closing once more changes nothing. -/
theorem close_exact (h : a.EpsilonsExist) :
    ∃ a', a.close = .ok a' ∧ a.Closes a' ∧ a'.EpsilonsAscend ∧ a'.close = .ok a' := by
  obtain ⟨a', hclose⟩ := h.exists_close
  have hcloses := closes_of_close hclose
  have hascend := epsilonsAscend_of_close hclose
  exact ⟨a', hclose, hcloses, hascend, hcloses.closes_self.close_eq_self hascend⟩

/-- A cycle through a state without ranges, which closing takes out of the cycle, and a final state
behind it. -/
theorem close_exact_cycle :
    let a : Automaton := ⟨#[{ epsilon := [1], ranges := [⟨97, 97⟩] }, { epsilon := [2, 3] },
      { epsilon := [0], ranges := [⟨98, 98⟩] }, { isFinal := true }]⟩
    a.EpsilonsExist ∧
      ∃ a', a.close = .ok a' ∧ a.Closes a' ∧ a'.EpsilonsAscend ∧ a'.close = .ok a' := by
  intro a
  have h : a.EpsilonsExist := by
    simp [a, EpsilonsExist, Automaton.size]
  exact ⟨h, close_exact h⟩

end ScannerTables.Automaton
