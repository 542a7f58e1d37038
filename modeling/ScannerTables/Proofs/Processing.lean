import ScannerTables.LexicalState.Process
import ScannerTables.Proofs.Checked
/-!
# The steps of processing

Processing goes through the undeclared literals, takes the productions out, goes through their
entries and puts the productions back. The steps change only what is built, never what the steps to
come are read from, so this is to carry out the plan that the declarations lay out at the start. The
productions are back in place when processing ends, whether it succeeded or failed.
-/

namespace ScannerTables.LexicalState

open Checked

variable {r : TokenRegistry} {config : Config} {s t : LexicalState} {step : BuildStep}

/-! ### What steps change -/

/-- A step that succeeds builds a token and changes nothing but what comes of it. -/
theorem runStep_eq_ok (h : runStep r step s = .ok () t) :
    ∃ token ignoreCase switch f automaton, step = .token token ignoreCase switch ∧
      Build.token r token ignoreCase initialState s.automaton = .ok f automaton ∧
      t = { s with
        built := s.built.insert token
        automaton := automaton
        transitions := s.transitions ++ switch.toList.map (token, ·) } := by
  cases step with
  | unknown ordinal => exact absurd h run_throw_ne_ok
  | token token ignoreCase switch =>
      simp only [runStep] at h
      split at h
      · next f automaton hb =>
        obtain ⟨-, rfl⟩ := EStateM.Result.ok.inj h
        exact ⟨token, ignoreCase, switch, f, automaton, rfl, hb, rfl⟩
      · exact absurd h (by simp)

/-- Steps change what is built alone, so that they do the same whatever else is changed before. -/
theorem run_mapState {φ : LexicalState → LexicalState}
    (hφ : ∀ (s : LexicalState) automaton built transitions,
      φ { s with automaton, built, transitions } = { φ s with automaton, built, transitions })
    (steps : List BuildStep) (s : LexicalState) :
    steps.forM (runStep r) (φ s) = mapState φ (steps.forM (runStep r) s) := by
  refine forM_mapState (fun step s => ?_) steps s
  have hs := hφ s s.automaton s.built s.transitions
  cases step with
  | unknown ordinal => rfl
  | token ordinal ignoreCase switch =>
      simp only [runStep]
      rw [show (φ s).automaton = s.automaton from congrArg (·.automaton) hs,
        show (φ s).built = s.built from congrArg (·.built) hs,
        show (φ s).transitions = s.transitions from congrArg (·.transitions) hs]
      cases Build.token r ordinal ignoreCase initialState s.automaton with
      | ok _ automaton => exact congrArg _ (hφ s automaton _ _).symm
      | error e automaton => exact congrArg _ (hφ s automaton _ s.transitions).symm

theorem exists_eq_of_run {steps : List BuildStep} (h : steps.forM (runStep r) s = .ok () t) :
    ∃ automaton built transitions, t = { s with automaton, built, transitions } := by
  induction steps generalizing s with
  | nil =>
      obtain ⟨-, rfl⟩ := EStateM.Result.ok.inj h
      exact ⟨_, _, _, rfl⟩
  | cons step steps ih =>
      obtain ⟨⟨⟩, u, hstep, hrest⟩ := run_bind_eq_ok.mp h
      obtain ⟨_, _, _, _, _, -, -, rfl⟩ := runStep_eq_ok hstep
      obtain ⟨_, _, _, rfl⟩ := ih hrest
      exact ⟨_, _, _, rfl⟩

theorem run_append (before after : List BuildStep) : (before ++ after).forM (runStep r) =
    before.forM (runStep r) >>= fun _ => after.forM (runStep r) := by
  rw [List.forM_eq_forM, List.forM_append]

/-! ### The plan behind the loops -/

/-- To go through a list and carry out the step of each element, if it has one, is to carry out the
steps of all. -/
theorem forM_runStep? {α : Type} (f : α → Option BuildStep) (l : List α) :
    (l.forM fun a => runStep? r (f a)) = (l.filterMap f).forM (runStep r) := by
  induction l with
  | nil => rfl
  | cons a l ih =>
      rw [List.forM_eq_forM] at ih ⊢
      rw [List.forM_cons, ih]
      cases hf : f a with
      | none => rw [List.filterMap_cons_none hf, runStep?, pure_bind, List.forM_eq_forM]
      | some step => rw [List.filterMap_cons_some hf, runStep?, List.forM_eq_forM, List.forM_cons]

/-- The entries of a production are judged one after the other, each in the lexical state that the
entries before it left; no entry changes how another is judged. -/
theorem runProduction_eq (p : TokenProduction) (s : LexicalState) :
    runProduction r config p s = (s.productionSteps r config p).forM (runStep r) s := by
  rw [runProduction, productionSteps, ← forM_runStep?]
  generalize (p.ignoreCase || config.ignoreCase) = inherited
  generalize p.specs = specs
  induction specs generalizing s with
  | nil => rfl
  | cons spec specs ih =>
      refine run_bind_congr fun _ t hstep => (ih t).trans ?_
      replace hstep : runStep? r (s.specStep? r inherited spec) s = .ok () t := hstep
      cases hspec : s.specStep? r inherited spec with
      | none =>
          rw [hspec] at hstep
          obtain ⟨-, rfl⟩ := EStateM.Result.ok.inj hstep
          rfl
      | some step =>
          rw [hspec] at hstep
          obtain ⟨_, _, _, _, _, -, -, rfl⟩ := runStep_eq_ok hstep
          rfl

theorem runProductions_eq (productions : List TokenProduction) (s : LexicalState) :
    productions.forM (runProduction r config) s =
      (productions.flatMap (s.productionSteps r config)).forM (runStep r) s := by
  induction productions generalizing s with
  | nil => rfl
  | cons p productions ih =>
      rw [List.flatMap_cons, run_append]
      change (runProduction r config p >>= fun _ => productions.forM (runProduction r config)) s = _
      simp only [bind, EStateM.bind, runProduction_eq]
      cases hp : (s.productionSteps r config p).forM (runStep r) s with
      | error e t => rfl
      | ok _ t =>
          obtain ⟨_, _, _, rfl⟩ := exists_eq_of_run hp
          exact ih _

/-- Without its productions, a lexical state builds their entries as it does with them, and has them
back at the end. -/
theorem withProductions_eq (s : LexicalState) :
    withProductions (fun productions => productions.forM (runProduction r config)) s =
      (s.productions.flatMap (s.productionSteps r config)).forM (runStep r) s := by
  have hrun := run_mapState (r := r) (φ := fun t => { t with productions := s.productions })
    (fun _ _ _ _ => rfl) (s.productions.flatMap (s.productionSteps r config))
    { s with productions := [] }
  rw [withProductions, runProductions_eq]
  refine Eq.trans ?_ hrun.symm
  change _ = mapState _ ((s.productions.flatMap (productionSteps { s with productions := [] }
    r config)).forM (runStep r) { s with productions := [] })
  cases (s.productions.flatMap (productionSteps { s with productions := [] } r config)).forM
    (runStep r) { s with productions := [] } <;> rfl

/-- To build the declarations is to carry out the plan that they lay out at the start. -/
theorem buildDeclarations_eq (r : TokenRegistry) (config : Config) (s : LexicalState) :
    buildDeclarations r config s = (s.plan r config).forM (runStep r) s := by
  rw [buildDeclarations, run_get_bind, plan, run_append, forM_runStep?]
  refine run_bind_congr fun _ t himplicit => ?_
  obtain ⟨_, _, _, rfl⟩ := exists_eq_of_run himplicit
  exact withProductions_eq _

/-- Processing carries out the plan and generates the dispatch of what came of it. -/
theorem process_eq (r : TokenRegistry) (config : Config) : process r config = (do
    let s ← get
    unless s.isProcessed do
      (s.plan r config).forM (runStep r)
      modify reported
      match (← get).generate with
      | .ok s => set s
      | .error m => throw (.misuse m)) := by
  funext s
  rw [process, run_get_bind, run_get_bind]
  split
  · rfl
  · have hbuilds (f : Unit → Process Unit) : (buildDeclarations r config >>= f) s =
        ((s.plan r config).forM (runStep r) >>= f) s := by
      simp only [bind, EStateM.bind, buildDeclarations_eq]
    exact hbuilds _

end ScannerTables.LexicalState
