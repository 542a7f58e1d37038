import ScannerTables.Proofs.Attempt
import ScannerTables.Proofs.Recognition
/-!
# Processing that succeeds

Processing is stopped by faults of definitions alone. Whatever earlier attempts left behind, the
automaton can be closed and its dispatch generated, for moves lead to states that exist; so a
lexical state is processed exactly if the tokens of all steps of its plan can be built.
-/

namespace ScannerTables

open Checked

namespace Automaton

variable {a a' : Automaton} {L : Nat → List Nat → Prop}

/-- An automaton that tokens were built into can be closed. -/
theorem Assembled.exists_close (h : a.Assembled L) : ∃ a', a.close = .ok a' := by
  refine EpsilonsExist.exists_close fun s hmem q hq => ?_
  obtain ⟨p, hs⟩ := Array.mem_iff_getElem?.mp hmem
  exact h.lt_size_of_path (lt_size hs) (.epsilon ⟨s, hs, hq⟩ (.refl q))

/-- Closing leaves successors alone, so they all exist. -/
theorem Assembled.successorsExist (h : a.Assembled L) (hclose : a.close = .ok a') :
    a'.successorsExist = true := by
  have hcloses := closes_of_close hclose
  rw [Automaton.successorsExist, Array.all_eq_true]
  intro i hi
  have hs' : a'.state? i = some a'.states[i] := Array.getElem?_eq_getElem hi
  obtain ⟨s, hs⟩ := exists_state? (hcloses.size_eq ▸ lt_size hs' : i < a.size)
  rw [(hcloses.state i s _ hs hs').next_eq]
  cases hq : s.next with
  | none => rfl
  | some q =>
      have hlt := (h.lt_of_targets hs (.inr hq)).2
      rw [← hcloses.size_eq] at hlt
      simpa using hlt

end Automaton

namespace LexicalState

variable {s s' : LexicalState} {r : TokenRegistry} {config : Config} {L : Nat → List Nat → Prop}

/-- A search ends without misuse where every state has a composite that is stored. -/
theorem reachedFrom_ne_error {start : Nat} {e : Misuse} (hstart : start < s.composites.size)
    (hlt : ∀ p id, s.compositeOf? p = some id → id < s.composites.size) :
    s.reachedFrom start ≠ .error e := by
  have hedge : ∀ u v, Graph.Edge (s.composites.map s.successors) u v →
      v < (s.composites.map s.successors).size := by
    intro u v huv
    obtain ⟨members, -, hmem⟩ := edge_iff_follows.mp huv
    obtain ⟨m, -, hm⟩ := List.mem_filterMap.mp hmem
    obtain ⟨q, -, hq⟩ := Option.bind_eq_some_iff.mp hm
    rw [Array.size_map]
    exact hlt q v hq
  obtain ⟨l, hl⟩ := Graph.exists_preorder hedge (by rwa [Array.size_map])
  rw [reachedFrom, hl]
  exact fun h => throw_ne_ok h.symm

/-- The dispatch can be generated whatever tokens were built. -/
theorem exists_generate (h : s.automaton.Assembled L) : ∃ s', s.generate = .ok s' := by
  obtain ⟨automaton, hclose⟩ := h.exists_close
  have hexist := h.successorsExist hclose
  obtain ⟨hids, -⟩ := internAll_eq s.composites (automaton.states.toList.map (·.epsilon))
  rw [generate, hclose]
  dsimp only [bind, Except.bind]
  rw [if_pos hexist]
  generalize internAll s.composites (automaton.states.toList.map (·.epsilon)) = interned at hids ⊢
  obtain ⟨ids, composites⟩ := interned
  have hlt : ∀ (p : Nat) id, ids[p]? = some id → id < composites.size := by
    intro p id hid
    obtain ⟨hp, rfl⟩ := List.getElem?_eq_some_iff.mp hid
    have hget := hids.get hp (hids.length_eq ▸ hp)
    exact (Array.getElem?_eq_some_iff.mp hget).1
  have hpos : 0 < ids.length := by
    have hsize := (Automaton.closes_of_close hclose).size_eq
    rw [hids.length_eq, List.length_map, Array.length_toList]
    exact Nat.lt_of_lt_of_eq h.size_pos hsize.symm
  have hstart : ids[initialState]?.getD 0 < composites.size := by
    have hget : ids[initialState]? = some ids[initialState] := List.getElem?_eq_getElem hpos
    rw [hget]
    exact hlt initialState _ hget
  split
  · next e he =>
    refine absurd he (reachedFrom_ne_error hstart fun p id hid => hlt p id ?_)
    rw [← List.getElem?_toArray]
    exact hid
  · exact ⟨_, rfl⟩

/-! ### Steps that can be carried out -/

theorem exists_runStep {step : BuildStep} (hstep : Possible r step) (hpos : 0 < s.automaton.size) :
    ∃ s', runStep r step s = .ok () s' ∧ 0 < s'.automaton.size := by
  cases step with
  | unknown ordinal => exact absurd hstep id
  | token ordinal ignoreCase switch =>
      have hbuilt : ∃ f automaton, Build.token r ordinal ignoreCase initialState s.automaton =
          .ok f automaton := Build.exists_token_eq_ok hstep hpos
      obtain ⟨f, automaton, hb⟩ := hbuilt
      obtain ⟨d, -, hinstalled⟩ := (Build.wp_token hpos).of_ok hb
      simp only [runStep, hb]
      exact ⟨_, rfl, Nat.lt_of_lt_of_le hpos hinstalled.size_le⟩

theorem exists_run {steps : List BuildStep} (hsteps : ∀ step ∈ steps, Possible r step)
    (hpos : 0 < s.automaton.size) : ∃ s', steps.forM (runStep r) s = .ok () s' := by
  induction steps generalizing s with
  | nil => exact ⟨s, rfl⟩
  | cons step steps ih =>
      rw [List.forall_mem_cons] at hsteps
      obtain ⟨t, hstep, hpos'⟩ := exists_runStep hsteps.1 hpos
      obtain ⟨s', hrest⟩ := ih hsteps.2 hpos'
      exact ⟨s', run_bind_eq_ok.mpr ⟨(), t, hstep, hrest⟩⟩

/-- Processing happens once. -/
theorem process_eq_self (h : s.isProcessed = true) : process r config s = .ok () s := by
  rw [process_eq, run_get_bind, if_pos h]
  rfl

theorem process_eq_error {e : Failure} {t : LexicalState} (hdispatch : s.dispatch = none)
    (hrun : (s.plan r config).forM (runStep r) s = .error e t) :
    process r config s = .error e t := by
  rw [process_eq, run_get_bind, isProcessed, hdispatch]
  exact run_bind_eq_error.mpr (.inl hrun)

theorem process_eq_ok_of_generate {t s' : LexicalState} (hdispatch : s.dispatch = none)
    (hrun : (s.plan r config).forM (runStep r) s = .ok () t) (hgen : t.reported.generate = .ok s') :
    process r config s = .ok () s' := by
  rw [process_eq, run_get_bind, isProcessed, hdispatch]
  refine run_bind_eq_ok.mpr ⟨(), t, hrun, ?_⟩
  rw [run_modify_bind, run_get_bind, hgen]
  rfl

/-- Processing for the first time is an attempt at the plan. It is stopped by a token that cannot be
built; else the dispatch is generated of what the whole plan left. -/
theorem process_cases (r : TokenRegistry) (config : Config) (hdispatch : s.dispatch = none)
    (h : s.automaton.Assembled L) : ∃ done t, Attempt r (s.plan r config) done s t ∧
      ((∃ e, process r config s = .error e t) ∧ ¬ (∀ step ∈ s.plan r config, Possible r step) ∨
        done = s.plan r config ∧
          ∃ s', t.reported.generate = .ok s' ∧ process r config s = .ok () s') := by
  obtain ⟨done, hattempt, hall⟩ := exists_attempt r (s.plan r config) h
  refine ⟨done, _, hattempt, ?_⟩
  cases hrun : (s.plan r config).forM (runStep r) s with
  | error e t =>
      refine .inl ⟨⟨e, ?_⟩, fun hsteps => ?_⟩
      · rw [process_eq_error hdispatch hrun, final, hrun]
      · obtain ⟨s₁, hok⟩ := exists_run hsteps h.size_pos
        exact absurd (hrun.symm.trans hok) error_ne_ok
  | ok _ t =>
      obtain rfl := hall (succeeds_eq_true hrun)
      rw [final_eq_of_eq_ok hrun] at hattempt ⊢
      obtain ⟨s', hgen⟩ := exists_generate (s := t.reported) (hattempt.assembled L h)
      exact .inr ⟨rfl, s', hgen, process_eq_ok_of_generate hdispatch hrun hgen⟩

/-- A lexical state is processed exactly if its plan can be carried out. -/
theorem exists_process_iff (hdispatch : s.dispatch = none) (h : s.automaton.Assembled L) :
    (∃ s', process r config s = .ok () s') ↔ ∀ step ∈ s.plan r config, Possible r step := by
  obtain ⟨done, t, hattempt, ⟨⟨e, herror⟩, hstopped⟩ | ⟨rfl, s', -, hok⟩⟩ :=
    process_cases r config hdispatch h
  · refine iff_of_false ?_ hstopped
    rintro ⟨s', hok⟩
    exact absurd (herror.symm.trans hok) error_ne_ok
  · exact iff_of_true ⟨s', hok⟩ hattempt.possible

end LexicalState

end ScannerTables
