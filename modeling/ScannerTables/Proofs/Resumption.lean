import ScannerTables.Proofs.Completion
import ScannerTables.Proofs.Literals
/-!
# Processing that is resumed

An attempt that failed leaves states, built tokens and switches behind, and the next attempt carries
out the whole plan on top of them, with a registry that may have grown. `Residue` is what any number
of such attempts leave, `Complete` what the one that succeeds makes of it. Both are told in terms of
the lexical state as it was declared, so the outcome is the same as without the failures: what was
left behind are tokens of the plan that are built once more and switches that were recorded before,
in the same order.
-/

namespace ScannerTables

theorem TokenRegistry.Extends.keeps {r r' : TokenRegistry} (h : r.Extends r') : r.Keeps r' :=
  fun token d hd => ⟨d, h.get?_eq token d hd, rfl, rfl, rfl⟩

namespace LexicalState

variable {s₀ s s' t : LexicalState} {r r' : TokenRegistry} {config : Config} {token : Nat}
variable {tokens tokens' : List (Nat × Bool)} {steps done : List BuildStep} {w : List Nat}

/-! ### Matches of several tokens -/

theorem matching_append : Matching r (tokens ++ tokens') token w ↔
    Matching r tokens token w ∨ Matching r tokens' token w := by
  simp only [Matching, List.mem_append, or_and_right, exists_or]

/-- Tokens that are listed once more match nothing else. -/
theorem matching_append_of_subset (h : tokens ⊆ tokens') :
    Matching r (tokens ++ tokens') token w ↔ Matching r tokens' token w := by
  rw [matching_append]
  refine or_iff_right_of_imp ?_
  rintro ⟨ignoreCase, d, hmem, hmatches⟩
  exact ⟨ignoreCase, d, h hmem, hmatches⟩

/-- Tokens that can be built match the same words when definitions are added. -/
theorem matching_iff_of_extends (hr : r.Extends r') (h : ∀ u ∈ tokens, r.Constructs u.1) :
    Matching r' tokens token w ↔ Matching r tokens token w := by
  constructor
  · rintro ⟨ignoreCase, d', hmem, hd', hw⟩
    have hconstructs := h _ hmem
    obtain ⟨d, hd, -⟩ := id hconstructs
    obtain rfl := Option.some.inj ((hr.get?_eq _ _ hd).symm.trans hd')
    exact ⟨ignoreCase, d, hmem, hd, (hconstructs.matches_iff hr hd).mp hw⟩
  · rintro ⟨ignoreCase, d, hmem, hd, hw⟩
    exact ⟨ignoreCase, d, hmem, hr.get?_eq _ _ hd, ((h _ hmem).matches_iff hr hd).mpr hw⟩

theorem constructs_of_possible (h : ∀ step ∈ steps, Possible r step) :
    ∀ u ∈ tokensOf steps, r.Constructs u.1 := by
  intro u hu
  obtain ⟨step, hstep, heq⟩ := List.mem_filterMap.mp hu
  have hpossible := h step hstep
  cases step with
  | unknown ordinal => exact absurd hpossible id
  | token ordinal ignoreCase switch =>
      obtain rfl := Option.some.inj heq
      exact hpossible

theorem Possible.mono {step : BuildStep} (hr : r.Extends r') (h : Possible r step) :
    Possible r' step := by
  cases step with
  | unknown ordinal => exact h
  | token ordinal ignoreCase switch => exact TokenRegistry.Constructs.mono hr h

/-! ### The plan stays -/

/-- More definitions leave the plan as it is, if all tokens that are declared are registered. -/
theorem Registered.plan_eq (h : s.Registered r config) (hr : r.Extends r') :
    s.plan r' config = s.plan r config := by
  have himplicit : ∀ token ∈ s.implicitLiterals,
      s.implicitStep? r' config token = s.implicitStep? r config token := by
    intro token htoken
    obtain ⟨d, hd, -⟩ := h.implicit token htoken
    rw [implicitStep?, implicitStep?, hd, hr.get?_eq token d hd]
  have hlisted : ∀ p ∈ s.productions,
      s.productionSteps r' config p = s.productionSteps r config p := by
    intro p hp
    refine List.filterMap_congr fun spec hspec => ?_
    obtain ⟨d, hd, -⟩ := h.listed p hp spec hspec
    rw [specStep?, specStep?, hd, hr.get?_eq _ d hd]
  rw [plan, plan, List.filterMap_congr himplicit, List.flatMap_congr hlisted]

/-- Switches that were recorded before, in the order of the plan, decide nothing. -/
theorem lookup_append_of_prefix {l l' : List (Nat × String)} (h : l <+: l') :
    (l ++ l').lookup token = l'.lookup token := by
  obtain ⟨rest, rfl⟩ := h
  rw [List.lookup_append, List.lookup_append]
  cases l.lookup token <;> rfl

/-! ### What attempts leave -/

/-- What attempts that failed have made of a lexical state. -/
structure Residue (s₀ s : LexicalState) (r : TokenRegistry) (config : Config) : Prop where
  rest : ∃ automaton built transitions, s = { s₀ with automaton, built, transitions }
  assembled : ∃ tokens ⊆ tokensOf (s₀.plan r config), (∀ u ∈ tokens, r.Constructs u.1) ∧
    s.automaton.Assembled (Matching r tokens)
  built_of_mem : ∀ token ∈ s.built,
    token ∈ s₀.built ∨ ∃ ignoreCase, (token, ignoreCase) ∈ tokensOf (s₀.plan r config)
  mem_built : ∀ token ∈ s₀.built, token ∈ s.built
  lookup_eq : ∀ token, (s.transitions ++ (s₀.plan r config).flatMap switches).lookup token =
    (s₀.transitions ++ (s₀.plan r config).flatMap switches).lookup token

/-- What an attempt that succeeded has made of a lexical state. -/
structure Complete (s₀ s : LexicalState) (r : TokenRegistry) (config : Config) : Prop where
  name_eq : s.name = s₀.name
  isProcessed : s.isProcessed = true
  possible : ∀ step ∈ s₀.plan r config, Possible r step
  longestOf : ∀ text : List Char,
    LongestOf (fun w token => Matching r (tokensOf (s₀.plan r config)) token w)
      text (s.scanner.longestMatch text)
  mem_built : ∀ token, token ∈ s.built ↔
    token ∈ s₀.built ∨ ∃ ignoreCase, (token, ignoreCase) ∈ tokensOf (s₀.plan r config)
  lookup_eq : ∀ token, s.newLexicalState? token =
    (s₀.transitions ++ (s₀.plan r config).flatMap switches).lookup token
  warnings_eq : s.warnings =
    s₀.warnings ++ if s.built.isEmpty then [.emptyLexicalState s₀.name] else []

/-- Before the first attempt there is nothing but the declarations. -/
theorem Unbuilt.residue (h : s.Unbuilt) : s.Residue s r config where
  rest := ⟨_, _, _, rfl⟩
  assembled := by
    refine ⟨[], List.nil_subset _, by simp, ?_⟩
    rw [h.automaton_eq]
    exact Automaton.Assembled.new.congr fun token w => by simp [Matching]
  built_of_mem token := .inl
  mem_built token := id
  lookup_eq token := rfl

namespace Residue

theorem plan_eq (h : s₀.Residue s r config) : s.plan r config = s₀.plan r config := by
  obtain ⟨_, _, _, rfl⟩ := h.rest
  rfl

theorem dispatch_eq (h : s₀.Residue s r config) : s.dispatch = s₀.dispatch := by
  obtain ⟨_, _, _, rfl⟩ := h.rest
  rfl

/-- An attempt adds tokens of the plan, and switches in the order of the plan. -/
theorem attempt (h : s₀.Residue s r config) (ha : Attempt r (s₀.plan r config) done s t) :
    s₀.Residue t r config where
  rest := by
    obtain ⟨_, _, _, rfl⟩ := h.rest
    obtain ⟨automaton, built, transitions, rfl⟩ := ha.rest
    exact ⟨automaton, built, transitions, rfl⟩
  assembled := by
    obtain ⟨tokens, hsubset, hconstructs, hassembled⟩ := h.assembled
    refine ⟨tokens ++ tokensOf done, ?_, ?_, ?_⟩
    · refine List.append_subset.mpr ⟨hsubset, ?_⟩
      exact (ha.done_prefix.sublist.filterMap _).subset
    · intro u hu
      rcases List.mem_append.mp hu with hu | hu
      · exact hconstructs u hu
      · exact constructs_of_possible ha.possible u hu
    · exact (ha.assembled _ hassembled).congr fun token w => matching_append.symm
  built_of_mem token htoken := by
    rcases ha.built_of_mem token htoken with htoken | hstep
    · exact h.built_of_mem token htoken
    · exact .inr hstep
  mem_built token htoken := ha.mem_built token (.inl (h.mem_built token htoken))
  lookup_eq token := by
    have hprefix : done.flatMap switches <+: (s₀.plan r config).flatMap switches := by
      obtain ⟨rest, hrest⟩ := ha.done_prefix
      exact ⟨rest.flatMap switches, by rw [← List.flatMap_append, hrest]⟩
    rw [ha.transitions_eq, List.append_assoc, List.lookup_append, lookup_append_of_prefix hprefix,
      ← List.lookup_append, h.lookup_eq token]

/-- What the whole plan left is complete once the dispatch is generated. -/
theorem complete (h : s₀.Residue s r config)
    (ha : Attempt r (s₀.plan r config) (s₀.plan r config) s t)
    (hgen : t.reported.generate = .ok s') :
    s₀.Complete s' r config := by
  obtain ⟨tokens, hsubset, -, hassembled⟩ := h.assembled
  have ht : t.automaton.Assembled (Matching r (tokensOf (s₀.plan r config))) := by
    refine (ha.assembled _ hassembled).congr fun token w => ?_
    rw [← matching_append, matching_append_of_subset hsubset]
  have hresidue := h.attempt ha
  have hgenerates := (generates_of_generate hgen).of_reported
  obtain ⟨_, _, _, rfl⟩ := exists_eq_of_generate hgen
  refine ⟨?_, rfl, ha.possible, fun text => hgenerates.longestOf_longestMatch ht text, ?_, ?_,
    ?_⟩
  · obtain ⟨_, _, _, rfl⟩ := hresidue.rest
    rfl
  · intro token
    refine ⟨hresidue.built_of_mem token, fun htoken => ha.mem_built token ?_⟩
    exact htoken.imp_left (h.mem_built token)
  · intro token
    rw [newLexicalState?]
    dsimp only [reported]
    rw [ha.transitions_eq, h.lookup_eq]
  · obtain ⟨_, _, _, rfl⟩ := hresidue.rest
    rfl

/-- An attempt fails and leaves a residue, or it completes the lexical state. -/
theorem process_cases (h : s₀.Residue s r config) (hs : s₀.dispatch = none) :
    (∃ e t, process r config s = .error e t ∧ s₀.Residue t r config) ∨
      ∃ s', process r config s = .ok () s' ∧ s₀.Complete s' r config := by
  obtain ⟨tokens, -, -, hassembled⟩ := h.assembled
  obtain ⟨done, t, hattempt, hcases⟩ :=
    LexicalState.process_cases r config (h.dispatch_eq.trans hs) hassembled
  rw [h.plan_eq] at hattempt hcases
  rcases hcases with ⟨⟨e, herror⟩, -⟩ | ⟨rfl, s', hgen, hok⟩
  · exact .inl ⟨e, t, herror, h.attempt hattempt⟩
  · exact .inr ⟨s', hok, h.complete hattempt hgen⟩

/-- With more definitions the same attempts would have left the same. -/
theorem mono (h : s₀.Residue s r config) (hs : s₀.Registered r config) (hr : r.Extends r') :
    s₀.Residue s r' config where
  rest := h.rest
  assembled := by
    obtain ⟨tokens, hsubset, hconstructs, hassembled⟩ := h.assembled
    refine ⟨tokens, hs.plan_eq hr ▸ hsubset, fun u hu => (hconstructs u hu).mono hr, ?_⟩
    exact hassembled.congr fun token w => (matching_iff_of_extends hr hconstructs).symm
  built_of_mem := hs.plan_eq hr ▸ h.built_of_mem
  mem_built := h.mem_built
  lookup_eq := hs.plan_eq hr ▸ h.lookup_eq

end Residue

namespace Complete

theorem mono (h : s₀.Complete s r config) (hs : s₀.Registered r config) (hr : r.Extends r') :
    s₀.Complete s r' config where
  name_eq := h.name_eq
  isProcessed := h.isProcessed
  possible := by
    rw [hs.plan_eq hr]
    exact fun step hstep => (h.possible step hstep).mono hr
  longestOf text := by
    have hsame : ∀ token w, Matching r' (tokensOf (s₀.plan r config)) token w ↔
        Matching r (tokensOf (s₀.plan r config)) token w :=
      fun token w => matching_iff_of_extends hr (constructs_of_possible h.possible)
    simp only [hs.plan_eq hr, hsame]
    exact h.longestOf text
  mem_built := hs.plan_eq hr ▸ h.mem_built
  lookup_eq := hs.plan_eq hr ▸ h.lookup_eq
  warnings_eq := h.warnings_eq

/-- Processing happens once. -/
theorem process_eq (h : s₀.Complete s r config) : process r config s = .ok () s :=
  process_eq_self h.isProcessed

end Complete

/-! ### Settled lexical states -/

/-- A lexical state as it was declared, and what attempts have made of it up to now. -/
structure Settled (s₀ s : LexicalState) (r : TokenRegistry) (config : Config) : Prop where
  unbuilt : s₀.Unbuilt
  registered : s₀.Registered r config
  cases : s₀.Residue s r config ∨ s₀.Complete s r config

namespace Settled

theorem refl (hs : s.Unbuilt) (hr : s.Registered r config) : s.Settled s r config :=
  ⟨hs, hr, .inl hs.residue⟩

theorem name_eq (h : s₀.Settled s r config) : s.name = s₀.name := by
  rcases h.cases with hresidue | hcomplete
  · obtain ⟨_, _, _, rfl⟩ := hresidue.rest
    rfl
  · exact hcomplete.name_eq

theorem mono (h : s₀.Settled s r config) (hr : r.Extends r') : s₀.Settled s r' config where
  unbuilt := h.unbuilt
  registered := h.registered.keeps hr.keeps
  cases := h.cases.imp (·.mono h.registered hr) (·.mono h.registered hr)

theorem final_process (h : s₀.Settled s r config) :
    s₀.Settled (Checked.final (process r config) s) r config := by
  refine ⟨h.unbuilt, h.registered, ?_⟩
  rcases h.cases with hresidue | hcomplete
  · rcases hresidue.process_cases h.unbuilt.dispatch_eq with ⟨e, t, herror, ht⟩ | ⟨s', hok, hs'⟩
    · rw [Checked.final, herror]
      exact .inl ht
    · rw [Checked.final, hok]
      exact .inr hs'
  · rw [Checked.final, hcomplete.process_eq]
    exact .inr hcomplete

theorem complete_of_process (h : s₀.Settled s r config) (hok : process r config s = .ok () s') :
    s₀.Complete s' r config := by
  rcases h.cases with hresidue | hcomplete
  · rcases hresidue.process_cases h.unbuilt.dispatch_eq with ⟨e, t, herror, -⟩ | ⟨s'', hok', hs''⟩
    · exact absurd (herror.symm.trans hok) Checked.error_ne_ok
    · obtain ⟨-, rfl⟩ := EStateM.Result.ok.inj (hok'.symm.trans hok)
      exact hs''
  · obtain ⟨-, rfl⟩ := EStateM.Result.ok.inj (hcomplete.process_eq.symm.trans hok)
    exact hcomplete

end Settled

/-! ### The same outcome -/

/-- Lexical states that cannot be told apart by their tokens, switches, warnings and matches. -/
structure Agrees (s s' : LexicalState) : Prop where
  name_eq : s.name = s'.name
  built_eq : s.built = s'.built
  newLexicalState?_eq : ∀ token, s.newLexicalState? token = s'.newLexicalState? token
  warnings_eq : s.warnings = s'.warnings
  longestMatch_eq : ∀ text, s.scanner.longestMatch text = s'.scanner.longestMatch text

/-- What was declared decides what comes of it. -/
theorem Complete.agrees (h : s₀.Complete s r config) (h' : s₀.Complete s' r config) :
    s.Agrees s' := by
  have hname : s.name = s'.name := h.name_eq.trans h'.name_eq.symm
  have hbuilt : s.built = s'.built := IntervalSet.ext fun token =>
    (h.mem_built token).trans (h'.mem_built token).symm
  refine ⟨hname, hbuilt, fun token => (h.lookup_eq token).trans (h'.lookup_eq token).symm, ?_,
    fun text => (h.longestOf text).unique (h'.longestOf text)⟩
  rw [h.warnings_eq, h'.warnings_eq, hbuilt]

/-- If a lexical state could be completed after failures, it is so at the first attempt, with the
same outcome. -/
theorem Settled.exists_process (h : s₀.Settled s r config) (hok : process r config s = .ok () s') :
    ∃ s₁, process r config s₀ = .ok () s₁ ∧ s₁.Agrees s' := by
  have hcomplete := h.complete_of_process hok
  have hresidue : s₀.Residue s₀ r config := h.unbuilt.residue
  rcases hresidue.process_cases h.unbuilt.dispatch_eq with
    ⟨e, t, herror, -⟩ | ⟨s₁, hok₁, hs₁⟩
  · obtain ⟨s₁, hok₁⟩ := (exists_process_iff h.unbuilt.dispatch_eq
      (h.unbuilt.automaton_eq ▸ Automaton.Assembled.new)).mpr hcomplete.possible
    exact absurd (herror.symm.trans hok₁) Checked.error_ne_ok
  · exact ⟨s₁, hok₁, hs₁.agrees hcomplete⟩

end LexicalState

end ScannerTables
