import ScannerTables.Proofs.Assembly
import ScannerTables.Proofs.Inlining
/-!
# Attempts at a plan

A fault stops a plan at the step where it occurs, and what was done before stays. `Attempt` says
what that is: the steps that were carried out are a leading part of the plan, the automaton accepts
what their tokens match besides what it accepted before, and the token whose building failed is
counted as built. The states that a failed step leaves behind are not linked to any others, so they
are never entered.
-/

namespace ScannerTables

namespace Automaton

variable {a a' : Automaton} {token : Nat} {L : Nat → List Nat → Prop}

/-- States that are added without a link to them change nothing of what is accepted. -/
theorem Assembled.extends (h : a.Assembled L) (hext : Extends token a.size a a') :
    a'.Assembled L := by
  obtain ⟨s, hs, htoken, hfinal, hrouter, heps⟩ := h.hub
  have hpos : 0 < a.size := lt_size hs
  have hsize := hext.size_le
  refine ⟨⟨s, (hext.state_below 0 hpos).trans hs, htoken, hfinal, hrouter, ?_⟩, ?_, ?_⟩
  · intro q hq
    have := heps q hq
    omega
  · intro i t hi ht
    by_cases hlt : i < a.size
    · have ht' : a.state? i = some t := hext.state_below i hlt ▸ ht
      obtain ⟨token', placed, htargets⟩ := h.placed i t hi ht'
      refine ⟨token', placed.mono (Nat.le_refl _) hsize, ?_⟩
      intro q hq
      obtain ⟨u, hu, htoken'⟩ := htargets q hq
      exact ⟨u, (hext.state_below q (h.lt_of_targets ht' hq).2).trans hu, htoken'⟩
    · have placed := hext.placed i t (Nat.le_of_not_lt hlt) ht
      refine ⟨token, ?_, ?_⟩
      · have placed' := placed.mono hpos (Nat.le_refl _)
        have hfinal' := placed.not_final
        cases t
        cases hfinal'
        exact placed'
      · intro q hq
        have hq := placed.mem_of_targets hq
        obtain ⟨u, hu⟩ := exists_state? hq.2
        exact ⟨u, hu, (hext.placed q u hq.1 hu).token_eq⟩
  · intro t w
    rw [← h.accepts_iff]
    refine accepts_congr (R := (· < a.size)) hext.state_below ?_ hpos
    rintro p o q hp ⟨u, hu, hm⟩
    exact (h.lt_of_targets hu hm.targets).2

end Automaton

namespace LexicalState

open Checked

/-- The switch that a step of a plan records once its token is built. -/
def switches : BuildStep → List (Nat × String)
  | .unknown _ => []
  | .token ordinal _ switch => switch.toList.map (ordinal, ·)

/-- The tokens that some steps of a plan build, with whether case is ignored. -/
abbrev tokensOf (steps : List BuildStep) : List (Nat × Bool) := steps.filterMap BuildStep.token?

/-- A step whose token can be built. -/
def Possible (r : TokenRegistry) : BuildStep → Prop
  | .unknown _ => False
  | .token ordinal _ _ => r.Constructs ordinal

/-- What carrying out some steps of a plan makes of a lexical state, when those in `done` were
carried out before a fault occurred or the plan ended. -/
structure Attempt (r : TokenRegistry) (steps done : List BuildStep) (s t : LexicalState) :
    Prop where
  rest : ∃ automaton built transitions, t = { s with automaton, built, transitions }
  done_prefix : done <+: steps
  possible : ∀ step ∈ done, Possible r step
  assembled : ∀ L, s.automaton.Assembled L →
    t.automaton.Assembled fun token w => L token w ∨ Matching r (tokensOf done) token w
  built_of_mem : ∀ token, token ∈ t.built →
    token ∈ s.built ∨ ∃ ignoreCase, (token, ignoreCase) ∈ tokensOf steps
  mem_built : ∀ token, (token ∈ s.built ∨ ∃ ignoreCase, (token, ignoreCase) ∈ tokensOf done) →
    token ∈ t.built
  transitions_eq : t.transitions = s.transitions ++ done.flatMap switches

variable {r : TokenRegistry} {s t u : LexicalState} {step : BuildStep}
variable {steps done : List BuildStep}

theorem Attempt.nil : Attempt r steps [] s s where
  rest := ⟨_, _, _, rfl⟩
  done_prefix := List.nil_prefix
  possible _ h := absurd h List.not_mem_nil
  assembled L h := h.congr fun token w => by simp [Matching]
  built_of_mem token := .inl
  mem_built token h := h.elim id fun ⟨_, h⟩ => absurd h List.not_mem_nil
  transitions_eq := by simp

/-- A step that fails leaves its token counted as built and states that nothing is linked to. -/
theorem attempt_of_runStep_error {e : Failure} (hpos : 0 < s.automaton.size)
    (h : runStep r step s = .error e t) : Attempt r (step :: steps) [] s t := by
  cases step with
  | unknown ordinal =>
      obtain ⟨-, rfl⟩ := EStateM.Result.error.inj h
      exact .nil
  | token token ignoreCase switch =>
      simp only [runStep] at h
      split at h
      · exact absurd h (by simp)
      · next e' automaton hb =>
        obtain ⟨-, rfl⟩ := EStateM.Result.error.inj h
        obtain ⟨-, hext⟩ := (Build.wp_token hpos).of_error hb
        refine ⟨⟨_, _, _, rfl⟩, List.nil_prefix, fun _ h => absurd h List.not_mem_nil, ?_, ?_, ?_,
          ?_⟩
        · intro L hL
          exact (hL.extends hext).congr fun token w => by simp [Matching]
        · intro token' htoken
          rcases IntervalSet.mem_insert.mp htoken with rfl | htoken
          · exact .inr ⟨ignoreCase, List.mem_cons_self⟩
          · exact .inl htoken
        · rintro token' (htoken | ⟨_, htoken⟩)
          · exact IntervalSet.mem_insert.mpr (.inr htoken)
          · exact absurd htoken List.not_mem_nil
        · simp

/-- A step that succeeds, and the attempt at what follows it. -/
theorem Attempt.cons (hpos : 0 < s.automaton.size) (hstep : runStep r step s = .ok () t)
    (h : Attempt r steps done t u) : Attempt r (step :: steps) (step :: done) s u := by
  obtain ⟨token, ignoreCase, switch, f, automaton, rfl, hb, rfl⟩ := runStep_eq_ok hstep
  obtain ⟨d, hd, hf⟩ := (Build.wp_token hpos).of_ok hb
  have htokens : ∀ l, tokensOf (.token token ignoreCase switch :: l) =
      (token, ignoreCase) :: tokensOf l := fun l => rfl
  have hpossible : Possible r (.token token ignoreCase switch) :=
    Build.constructs_of_eq_ok hb
  refine ⟨?_, (List.prefix_cons_inj _).mpr h.done_prefix,
    List.forall_mem_cons.mpr ⟨hpossible, h.possible⟩, ?_, ?_, ?_, ?_⟩
  · obtain ⟨_, _, _, rfl⟩ := h.rest
    exact ⟨_, _, _, rfl⟩
  · intro L hL
    apply (h.assembled _ (hf.assembled hL)).congr
    intro token' w
    rw [or_assoc, htokens]
    exact or_congr_right (matching_cons hd).symm
  · intro token' htoken
    rcases h.built_of_mem token' htoken with htoken | ⟨ignoreCase', hmem⟩
    · rcases IntervalSet.mem_insert.mp htoken with rfl | htoken
      · exact .inr ⟨ignoreCase, List.mem_cons_self⟩
      · exact .inl htoken
    · exact .inr ⟨ignoreCase', List.mem_cons_of_mem _ hmem⟩
  · intro token' htoken
    apply h.mem_built
    rcases htoken with htoken | ⟨ignoreCase', hmem⟩
    · exact .inl (IntervalSet.mem_insert.mpr (.inr htoken))
    · rcases List.mem_cons.mp hmem with heq | hmem
      · exact .inl (IntervalSet.mem_insert.mpr (.inl (Prod.mk.inj heq).1))
      · exact .inr ⟨ignoreCase', hmem⟩
  · rw [h.transitions_eq, List.flatMap_cons, switches, List.append_assoc]

/-- Carrying out steps is an attempt at them, and at all of them if it succeeds. -/
theorem exists_attempt (r : TokenRegistry) (steps : List BuildStep) {L : Nat → List Nat → Prop}
    (hs : s.automaton.Assembled L) : ∃ done, Attempt r steps done s
        (final (steps.forM (runStep r)) s) ∧
      (succeeds (steps.forM (runStep r)) s = true → done = steps) := by
  induction steps generalizing s L with
  | nil => exact ⟨[], .nil, fun _ => rfl⟩
  | cons step steps ih =>
      have hpos := hs.size_pos
      change ∃ done, Attempt r (step :: steps) done s
        (final (runStep r step >>= fun _ => steps.forM (runStep r)) s) ∧
          (succeeds (runStep r step >>= fun _ => steps.forM (runStep r)) s = true → _)
      rw [final_bind_eq, succeeds_bind]
      cases hstep : runStep r step s with
      | error e t => exact ⟨[], attempt_of_runStep_error hpos hstep, fun h => absurd h (by simp)⟩
      | ok _ t =>
          have hone : Attempt r [step] [step] s t := .cons hpos hstep .nil
          obtain ⟨done, hdone, hall⟩ := ih (hone.assembled L hs)
          exact ⟨step :: done, hdone.cons hpos hstep, fun h => by rw [hall h]⟩

end LexicalState

end ScannerTables
