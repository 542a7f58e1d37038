import ScannerTables.Proofs.Completion
import ScannerTables.Proofs.Evolution
import ScannerTables.Proofs.Rejection
import ScannerTables.Scan.Scanner
import ScannerTables.Table.Basic
/-!
# Lexical states do not depend on each other

Commands hand productions and literals to several lexical states of a lexer and build them in one
pass. What a command does to one of them is a list of effects, and `core_foldl` says that a lexical
state is what the effects on it make, whatever is declared elsewhere in between: definitions that
are registered later change no claim, and a literal that is claimed for several entries of a
production is claimed once. So lexers with one configuration and one registry, whose commands have
the same effects on a lexical state, build the same of it.

Productions of the two lexers may still differ in what they are handed to, so lexical states are
compared up to what processing does not read of them, their cores.
-/

namespace ScannerTables

open Checked

namespace TokenRegistry

variable {r r' r'' : TokenRegistry}

theorem Keeps.refl : r.Keeps r := fun _ d hd => ⟨d, hd, rfl, rfl, rfl⟩

theorem Keeps.trans (h : r.Keeps r') (h' : r'.Keeps r'') : r.Keeps r'' := by
  intro token d hd
  obtain ⟨d', hd', hpattern, hignore, hprivate⟩ := h token d hd
  obtain ⟨d'', hd'', hpattern', hignore', hprivate'⟩ := h' token d' hd'
  exact ⟨d'', hd'', hpattern'.trans hpattern, hignore'.trans hignore, hprivate'.trans hprivate⟩

theorem Revises.keeps {settled : Nat → Prop} (h : r.Revises r' settled) : r.Keeps r' := by
  intro token d hd
  obtain ⟨d', hd', ⟨_, _, _, rfl⟩, -⟩ := h.definition token d hd
  exact ⟨_, hd', rfl, rfl, rfl⟩

end TokenRegistry

/-! ### Cores -/

/-- What processing reads of a production: neither its kind nor the lexical states that it names. -/
def TokenProduction.core (p : TokenProduction) : TokenProduction :=
  { ignoreCase := p.ignoreCase, specs := p.specs }

namespace LexicalState

variable {s t : LexicalState} {r r' : TokenRegistry} {config : Config} {p : TokenProduction}
variable {inherited : Bool} {specs : List TokenSpec}

/-- A lexical state with the cores of its productions. -/
def core (s : LexicalState) : LexicalState :=
  { s with productions := s.productions.map .core }

theorem core_addProduction : (s.addProduction p).core = s.core.addProduction p.core := by
  simp only [core, addProduction, List.map_append, List.map_singleton]

theorem core_claimLiteral (s : LexicalState) (image : String) (token : Nat) (ignoreCase : Bool) :
    (s.core.claimLiteral image token ignoreCase).2 =
      (s.claimLiteral image token ignoreCase).2.core := by
  cases ignoreCase <;> rfl

theorem core_addImplicitLiteral (token : Nat) :
    (s.addImplicitLiteral token).core = s.core.addImplicitLiteral token := by
  by_cases h : token ∈ s.implicitLiterals
  · exact (congrArg core (if_pos h)).trans (if_pos h).symm
  · exact (congrArg core (if_neg h)).trans (if_neg h).symm

/-- The plan reads the cores of productions. -/
theorem plan_core : s.core.plan r config = s.plan r config := by
  have hdeclared : s.core.declared = s.declared := by
    simp only [declared, core, List.flatMap_map]
    rfl
  have himplicit : s.core.implicitStep? r config = s.implicitStep? r config := by
    funext token
    rw [implicitStep?, implicitStep?, hdeclared]
  rw [plan, plan, himplicit]
  simp only [core, List.flatMap_map]
  rfl

theorem generate_core : s.core.generate = core <$> s.generate := by
  rw [generate, generate, map_bind]
  refine bind_congr fun automaton => ?_
  by_cases h : automaton.successorsExist = true
  · rw [if_pos h, if_pos h]
    dsimp only [core]
    rw [map_bind]
    exact bind_congr fun found => rfl
  · rw [if_neg h, if_neg h]
    rfl

/-- Processing reads the cores of productions. -/
theorem process_core : process r config s.core = mapState core (process r config s) := by
  by_cases hs : s.isProcessed = true
  · have hs' : s.core.isProcessed = true := hs
    rw [process_eq_self hs, process_eq_self hs']
    rfl
  · have hs' : ¬ s.core.isProcessed = true := hs
    have hrun := run_mapState (r := r) (φ := core) (fun _ _ _ _ => rfl) (s.plan r config) s
    rw [process_eq, run_get_bind, run_get_bind, if_neg hs, if_neg hs', plan_core]
    refine run_bind_mapState hrun fun _ t _ => ?_
    have hgen : t.core.reported.generate = core <$> t.reported.generate :=
      generate_core (s := t.reported)
    rw [run_modify_bind, run_modify_bind, run_get_bind, run_get_bind, hgen]
    cases t.reported.generate <;> rfl

/-! ### Registries that say the same -/

/-- References are inlined by what labels resolve to. -/
theorem inlined_congr (h : r'.resolve? = r.resolve?) {token : Nat} {ignoreCase : Bool}
    (resolving : List String) (p : Pattern) : Build.inlined r' token ignoreCase resolving p =
      Build.inlined r token ignoreCase resolving p := by
  induction hn : r.unopened resolving using Nat.strongRecOn generalizing resolving p with
  | ind n ih =>
      rw [Build.inlined, Build.inlined]
      refine congrArg (Build.pattern token ignoreCase · p) (funext fun label => ?_)
      by_cases hl : label ∈ resolving
      · rw [dif_pos hl, dif_pos hl]
      · rw [dif_neg hl, dif_neg hl, h]
        split
        · rfl
        · next q hq => exact ih _ (hn ▸ TokenRegistry.unopened_cons_lt hq hl) _ _ rfl

theorem runStep_congr (hget : r'.get? = r.get?) (hresolve : r'.resolve? = r.resolve?) :
    runStep r' = runStep r := by
  funext step s
  cases step with
  | unknown ordinal => rfl
  | token ordinal ignoreCase switch =>
      simp only [runStep, Build.token, hget, inlined_congr hresolve]

theorem plan_congr (hget : r'.get? = r.get?) (s : LexicalState) :
    s.plan r' config = s.plan r config := by
  have himplicit : s.implicitStep? r' config = s.implicitStep? r config := by
    funext token
    rw [implicitStep?, implicitStep?, hget]
  have hspec : s.specStep? r' = s.specStep? r := by
    funext inherited spec
    rw [specStep?, specStep?, hget]
  have hproduction : s.productionSteps r' config = s.productionSteps r config := by
    funext p
    rw [productionSteps, productionSteps, hspec]
  rw [plan, plan, himplicit, hproduction]

/-- Registries with the same definitions and the same owners of labels are processed alike, in
whatever order their labels were claimed. -/
theorem process_congr (hdefinitions : r'.definitions = r.definitions)
    (hlabels : r'.byLabel? = r.byLabel?) : process r' config = process r config := by
  have hget : r'.get? = r.get? := by
    funext token
    rw [TokenRegistry.get?, TokenRegistry.get?, hdefinitions]
  have hresolve : r'.resolve? = r.resolve? := by
    funext label
    rw [TokenRegistry.resolve?, TokenRegistry.resolve?, hlabels, hget]
  rw [process_eq, process_eq, runStep_congr hget hresolve]
  simp only [plan_congr hget]

/-! ### Claims of entries -/

/-- Claims the literal of an entry, if it has one. -/
def claimSpec (r : TokenRegistry) (inherited : Bool) (s : LexicalState) (spec : TokenSpec) :
    LexicalState :=
  match r.get? spec.token with
  | none => s
  | some d => match d.image? with
    | none => s
    | some image => (s.claimLiteral image spec.token (d.ignoreCaseOr inherited)).2

/-- Claims the literals of some entries, one after the other. -/
def claimSpecs (r : TokenRegistry) (inherited : Bool) (specs : List TokenSpec) (s : LexicalState) :
    LexicalState :=
  specs.foldl (claimSpec r inherited) s

theorem claimSpec_claimSpec {spec : TokenSpec} :
    (s.claimSpec r inherited spec).claimSpec r inherited spec = s.claimSpec r inherited spec := by
  cases hd : r.get? spec.token with
  | none => simp only [claimSpec, hd]
  | some d =>
      cases himage : d.image? with
      | none => simp only [claimSpec, hd, himage]
      | some image => simp only [claimSpec, hd, himage, claimLiteral_claimLiteral]

/-- What may be done before or after a claim may be done before or after the claims of entries. -/
theorem claimSpecs_comm {φ : LexicalState → LexicalState}
    (hφ : ∀ s image token ignoreCase, ((φ s).claimLiteral image token ignoreCase).2 =
      φ (s.claimLiteral image token ignoreCase).2) (s : LexicalState) :
    (φ s).claimSpecs r inherited specs = φ (s.claimSpecs r inherited specs) := by
  have hspec : ∀ s spec, (φ s).claimSpec r inherited spec = φ (s.claimSpec r inherited spec) := by
    intro s spec
    rw [claimSpec, claimSpec]
    split
    · rfl
    · split
      · rfl
      · exact hφ s _ _ _
  rw [claimSpecs, claimSpecs]
  induction specs generalizing s with
  | nil => rfl
  | cons spec specs ih => rw [List.foldl_cons, List.foldl_cons, hspec, ih]

/-- Entries whose tokens are registered have their literals claimed. -/
theorem claimed_claimSpecs (h : ∀ spec ∈ specs, ∃ d, r.get? spec.token = some d) :
    s.Claimed (s.claimSpecs r inherited specs) r inherited specs := by
  induction specs generalizing s with
  | nil => exact .nil
  | cons spec specs ih =>
      rw [List.forall_mem_cons] at h
      obtain ⟨⟨d, hd⟩, hspecs⟩ := h
      refine .cons (t := s.claimSpec r inherited spec) ?_ (ih hspecs)
      rw [claimSpec, hd]
      dsimp only
      split
      · next himage =>
        refine .of_ne_literal hd fun text htext => ?_
        rw [TokenDefinition.image?_eq_some.mpr htext] at himage
        exact absurd himage (by simp)
      · next image himage => exact .of_claimLiteral hd (TokenDefinition.image?_eq_some.mp himage)

/-- Literals that are claimed are not claimed again. -/
theorem Claimed.claimSpecs_eq_self (h : s.Claimed t r inherited specs) :
    t.claimSpecs r inherited specs = t := by
  have hspec : ∀ spec ∈ specs, t.claimSpec r inherited spec = t := by
    intro spec hmem
    obtain ⟨d, hd, howner⟩ := h.claimed spec hmem
    rw [claimSpec, hd]
    dsimp only
    split
    · rfl
    · next image himage =>
      exact claimLiteral_eq_self (howner image (TokenDefinition.image?_eq_some.mp himage))
  clear h
  rw [claimSpecs]
  induction specs with
  | nil => rfl
  | cons spec specs ih =>
      rw [List.forall_mem_cons] at hspec
      rw [List.foldl_cons, hspec.1, ih hspec.2]

/-- Takes a production once: its literals are claimed and it is put behind the others. -/
def receive (r : TokenRegistry) (config : Config) (p : TokenProduction) (s : LexicalState) :
    LexicalState :=
  (s.claimSpecs r (p.ignoreCase || config.ignoreCase) p.specs).addProduction p

/-- Claims depend on what is registered, but not on what is registered later. -/
theorem claimSpecs_keeps (hr : r.Keeps r') (h : ∀ spec ∈ specs, ∃ d, r.get? spec.token = some d) :
    s.claimSpecs r' inherited specs = s.claimSpecs r inherited specs := by
  rw [claimSpecs, claimSpecs]
  refine List.foldl_ext _ _ s fun s spec hmem => ?_
  obtain ⟨d, hd⟩ := h spec hmem
  obtain ⟨d', hd', hpattern, hignore, -⟩ := hr spec.token d hd
  rw [claimSpec, claimSpec, hd, hd']
  simp only [TokenDefinition.image?, TokenDefinition.ignoreCaseOr, hpattern, hignore]

end LexicalState

namespace Lexer

/-! ### Effects -/

/-- What a command does to one lexical state: it adds what processing reads of a production, or the
new token of a literal that no production declares. -/
inductive Effect where
  | production (ignoreCase : Bool) (specs : List TokenSpec)
  | literal (image : String) (token : Nat)
deriving DecidableEq

/-- The lexical state after an effect, given the definitions of its tokens. -/
def Effect.apply (r : TokenRegistry) (config : Config) (s : LexicalState) : Effect → LexicalState
  | production ignoreCase specs => s.receive r config { ignoreCase, specs }
  | literal image token => (s.claimLiteral image token config.ignoreCase).2.addImplicitLiteral token

/-- The names of the lexical states that a production is for, each as often as it is named. -/
def concerned (config : Config) (p : TokenProduction) : List String :=
  if p.lexicalStates.isEmpty then [config.defaultLexicalState] else p.lexicalStates

/-- What a command that is carried out does to the lexical state with a name: a production has an
effect as often as it names the lexical state, and a literal that is known there has none. -/
def Command.effectsOn (name : String) (lx : Lexer) : Command → List Effect
  | addTokenProduction p =>
    List.replicate ((concerned lx.config p).count name) (.production p.ignoreCase p.specs)
  | addImplicitLiteral state image =>
    if state = name ∧ (lx.state? name).bind (·.lookupLiteral image) = none then
      [.literal image lx.registry.size]
    else []
  | addLexicalState _ | addDefinition _ | setOverridden _ | ensureLabels _ | build => []

/-- What some commands, one after the other, do to the lexical state with a name. -/
def effectsOn (name : String) : Lexer → List Command → List Effect
  | _, [] => []
  | lx, c :: commands => c.effectsOn name lx ++ effectsOn name (c.run lx) commands

/-- True if a command is carried out and does not build. -/
def Command.applies (lx : Lexer) : Command → Bool
  | ensureLabels _ => true
  | c => c.declares lx

/-- True if none of some commands fails or builds. -/
def allApply : Lexer → List Command → Bool
  | _, [] => true
  | lx, c :: commands => c.applies lx && allApply (c.run lx) commands

variable {lx lx' : Lexer} {r : TokenRegistry} {p : TokenProduction} {name : String} {i : Nat}
variable {s : LexicalState} {targets : List Nat} {inherited : Bool} {specs : List TokenSpec}

/-! ### What a production does to a lexical state -/

/-- An entry is claimed in the lexical states at its targets, if its token is registered. -/
theorem claimSpec_eq_modifyStates {spec : TokenSpec}
    (h : claimSpec inherited targets spec lx = .ok () lx') :
    (∃ d, lx.registry.get? spec.token = some d) ∧
      lx' = lx.modifyStates targets (·.claimSpec lx.registry inherited spec) := by
  obtain ⟨d, hd, hcases⟩ := claimSpec_eq_ok h
  refine ⟨⟨d, hd⟩, ?_⟩
  rcases hcases with ⟨himage, rfl⟩ | ⟨image, himage, rfl⟩ <;>
    simp only [LexicalState.claimSpec, hd, himage]
  exact (modifyStates_eq_self fun _ _ _ _ => rfl).symm

/-- Of the lexical states those at the targets have the literals of all entries claimed. -/
theorem getElem?_forM_claimSpec (h : specs.forM (claimSpec inherited targets) lx = .ok () lx')
    (hs : lx.states[i]? = some s) :
    (∀ spec ∈ specs, ∃ d, lx.registry.get? spec.token = some d) ∧ lx'.states[i]? =
      some (if i ∈ targets then s.claimSpecs lx.registry inherited specs else s) := by
  induction specs generalizing lx s with
  | nil =>
      obtain ⟨-, rfl⟩ := EStateM.Result.ok.inj h
      refine ⟨fun _ hmem => absurd hmem List.not_mem_nil, ?_⟩
      rw [hs]
      exact congrArg some (ite_self s).symm
  | cons spec specs ih =>
      obtain ⟨⟨⟩, lx₁, hspec, h⟩ := run_bind_eq_ok.mp h
      obtain ⟨⟨d, hd⟩, rfl⟩ := claimSpec_eq_modifyStates hspec
      obtain ⟨hspecs, hs'⟩ := ih h (by rw [getElem?_modifyStates, hs, Option.map_some])
      refine ⟨List.forall_mem_cons.mpr ⟨⟨d, hd⟩, hspecs⟩, hs'.trans ?_⟩
      rw [iterate_count LexicalState.claimSpec_claimSpec]
      split <;> rfl

/-- A lexical state receives a production as often as it is among the targets. -/
theorem getElem?_addTokenProduction (h : addTokenProduction p lx = .ok () lx')
    (hs : lx.states[i]? = some s) : ∃ targets, lx.targets p = .ok targets ∧
      (∀ spec ∈ p.specs, ∃ d, lx.registry.get? spec.token = some d) ∧
        lx'.states[i]? =
          some ((LexicalState.receive lx.registry lx.config p)^[targets.count i] s) := by
  obtain ⟨targets, lx₁, htargets, hspecs, rfl⟩ := claims_of_addTokenProduction h
  obtain ⟨hregistered, hs₁⟩ := getElem?_forM_claimSpec hspecs hs
  refine ⟨targets, htargets, hregistered, ?_⟩
  change (lx₁.modifyStates targets _).states[i]? = _
  rw [getElem?_modifyStates, hs₁, Option.map_some]
  -- all claims may be made before the first addition, and then once
  let claims := LexicalState.claimSpecs lx.registry (p.ignoreCase || lx.config.ignoreCase) p.specs
  have hcomm : Function.Commute (·.addProduction p) claims := fun s =>
    (LexicalState.claimSpecs_comm (φ := (·.addProduction p))
      (fun _ _ _ ignoreCase => by cases ignoreCase <;> rfl) s).symm
  have honce : claims (claims s) = claims s :=
    (LexicalState.claimed_claimSpecs hregistered).claimSpecs_eq_self
  have hiterate := congrFun (hcomm.comp_iterate (targets.count i)) s
  rw [Function.comp_apply, iterate_count honce] at hiterate
  exact congrArg some hiterate.symm

/-! ### What a command does to a lexical state -/

/-- The same thing done some number of times. -/
theorem foldl_replicate {α β : Type} (f : β → α → β) (n : Nat) (a : α) (b : β) :
    (List.replicate n a).foldl f b = (f · a)^[n] b := by
  induction n generalizing b with
  | zero => rfl
  | succ n ih => rw [List.replicate_succ, List.foldl_cons, ih, Function.iterate_succ_apply]

/-- A name finds a position exactly if the lexical state there has it. -/
theorem Coherent.name_eq_iff (h : lx.Coherent) {j : Nat} (hj : lx.stateIndex? name = some j)
    (hs : lx.states[i]? = some s) : name = s.name ↔ j = i := by
  obtain ⟨t, ht, rfl⟩ := (h.located _ _).mp hj
  constructor
  · exact h.name_inj ht hs
  · rintro rfl
    rw [Option.some.inj (ht.symm.trans hs)]

/-- Among the positions of some lexical states, one is as often as the lexical state there among
the names. -/
theorem Coherent.count_eq (h : lx.Coherent) {names : List String}
    (hall : List.Forall₂ (fun n j => lx.stateIndex? n = some j) names targets)
    (hs : lx.states[i]? = some s) : targets.count i = names.count s.name := by
  have hfilter := List.rel_filter (p := (· == s.name)) (q := (· == i)) (fun n j hj => by
    change (n == s.name) = true ↔ (j == i) = true
    rw [beq_iff_eq, beq_iff_eq, h.name_eq_iff hj hs]) hall
  rw [List.count_eq_length_filter, List.count_eq_length_filter, hfilter.length_eq]

/-- The positions that a production is for are those of the lexical states that it names, or that of
the default one. -/
theorem targets_eq_ok (h : lx.targets p = .ok targets) : p.lexicalStates = [] ∧ targets = [0] ∨
    p.lexicalStates ≠ [] ∧
      List.Forall₂ (fun n j => lx.stateIndex? n = some j) p.lexicalStates targets := by
  rw [Lexer.targets] at h
  split at h
  · next hempty => exact .inl ⟨List.isEmpty_iff.mp hempty, (Except.ok.inj h).symm⟩
  · next hne =>
    refine .inr ⟨fun hempty => hne (List.isEmpty_iff.mpr hempty), ?_⟩
    exact (mapM_eq_ok.mp h).imp fun n j => stateIndex_eq_ok.mp

/-- A position is as often among the targets as the lexical state there is named. -/
theorem Coherent.count_targets (h : lx.Coherent)
    (hdefault : lx.stateIndex? lx.config.defaultLexicalState = some 0)
    (htargets : lx.targets p = .ok targets) (hs : lx.states[i]? = some s) :
    targets.count i = (concerned lx.config p).count s.name := by
  apply h.count_eq _ hs
  obtain ⟨hempty, rfl⟩ | ⟨hne, hall⟩ := targets_eq_ok htargets
  · rw [concerned, hempty]
    exact .cons hdefault .nil
  · rw [concerned, if_neg fun hempty => hne (List.isEmpty_iff.mp hempty)]
    exact hall

/-- Receiving a production is its effect on the core, also if more is registered then. -/
theorem semiconj_receive (hr : lx.registry.Keeps r)
    (hregistered : ∀ spec ∈ p.specs, ∃ d, lx.registry.get? spec.token = some d) :
    Function.Semiconj LexicalState.core (LexicalState.receive lx.registry lx.config p)
      (Effect.apply r lx.config · (.production p.ignoreCase p.specs)) := by
  intro s
  rw [LexicalState.receive, LexicalState.core_addProduction,
    ← LexicalState.claimSpecs_keeps hr hregistered,
    ← LexicalState.claimSpecs_comm LexicalState.core_claimLiteral]
  rfl

/-- The effect of a literal on a lexical state is that of a new token there, or none. -/
theorem Coherent.core_addImplicitLiteral (h : lx.Coherent) {state image : String} {token : Nat}
    (hok : Lexer.addImplicitLiteral state image lx = .ok token lx') (hs : lx.states[i]? = some s) :
    ∃ s', lx'.states[i]? = some s' ∧ s'.core =
      ((Command.addImplicitLiteral state image).effectsOn s.name lx).foldl
        (Effect.apply r lx.config) s.core := by
  obtain ⟨j, t, hj, ht, hcases⟩ := addImplicitLiteral_eq_ok hok
  have hiff := h.name_eq_iff hj hs
  rw [Command.effectsOn]
  by_cases hi : j = i
  · obtain rfl := hiff.mpr hi
    subst hi
    obtain rfl := Option.some.inj (ht.symm.trans hs)
    have hstate : (lx.state? t.name).bind (·.lookupLiteral image) = t.lookupLiteral image := by
      rw [state?, hj, Option.bind_some, hs, Option.bind_some]
    rw [hstate]
    rcases hcases with ⟨hlookup, rfl⟩ | ⟨hlookup, rfl⟩
    · rw [hlookup, if_neg (by simp)]
      exact ⟨t, hs, rfl⟩
    · rw [if_pos ⟨rfl, hlookup⟩, Array.getElem?_modify, if_pos rfl, hs]
      refine ⟨_, rfl, ?_⟩
      rw [LexicalState.core_addImplicitLiteral, ← LexicalState.core_claimLiteral]
      rfl
  · rw [if_neg fun hboth => hi (hiff.mp hboth.1)]
    refine ⟨s, ?_, rfl⟩
    rcases hcases with ⟨-, rfl⟩ | ⟨-, rfl⟩
    · exact hs
    · rw [Array.getElem?_modify, if_neg hi, hs]

/-- A command that is carried out does to a lexical state what its effects do. -/
theorem Command.core_run {c : Command} (h : lx.Coherent)
    (hdefault : lx.stateIndex? lx.config.defaultLexicalState = some 0) (hc : c.applies lx = true)
    (hr : lx.registry.Keeps r) (hs : lx.states[i]? = some s) :
    ∃ s', (c.run lx).states[i]? = some s' ∧
      s'.core = (c.effectsOn s.name lx).foldl (Effect.apply r lx.config) s.core := by
  cases c with
  | addLexicalState name =>
      rw [run, final_addLexicalState]
      split
      · exact ⟨s, hs, rfl⟩
      · obtain ⟨hi, rfl⟩ := Array.getElem?_eq_some_iff.mp hs
        exact ⟨_, Array.getElem?_push_lt hi, rfl⟩
  | addDefinition d => exact ⟨s, hs, rfl⟩
  | setOverridden token => exact ⟨s, hs, rfl⟩
  | ensureLabels u => exact ⟨s, hs, rfl⟩
  | build => exact absurd hc Bool.false_ne_true
  | addTokenProduction p =>
      obtain ⟨⟨⟩, hok⟩ := eq_ok_of_succeeds hc
      obtain ⟨targets, htargets, hregistered, hs'⟩ := getElem?_addTokenProduction hok hs
      refine ⟨_, hs', ?_⟩
      rw [effectsOn, foldl_replicate, ← h.count_targets hdefault htargets hs]
      exact (semiconj_receive hr hregistered).iterate_right _ s
  | addImplicitLiteral state image =>
      obtain ⟨token, hok⟩ := eq_ok_of_succeeds hc
      exact h.core_addImplicitLiteral hok hs

/-! ### What commands do to a lexical state -/

/-- The lexical state with a name; one that is not declared counts as empty. -/
def stateOrNew (lx : Lexer) (name : String) : LexicalState :=
  (lx.state? name).getD (.new name false)

/-- A lexical state keeps its place and its name. -/
theorem Reachable.stateIndex?_run (h : lx.Reachable) (c : Command)
    (hi : lx.stateIndex? name = some i) : (c.run lx).stateIndex? name = some i := by
  obtain ⟨s, hs, rfl⟩ := (h.coherent.located _ _).mp hi
  obtain ⟨s', hs', hevolves⟩ := c.exists_state hs
  exact hevolves.name_eq ▸ (h.run c).coherent.stateIndex?_eq hs'

theorem config_run_of_applies {c : Command} (hc : c.applies lx = true) :
    (c.run lx).config = lx.config := by
  cases c with
  | ensureLabels u => rfl
  | _ => exact config_run hc

theorem Coherent.state?_eq (h : lx.Coherent) (hs : lx.states[i]? = some s) :
    lx.state? s.name = some s := by
  rw [state?, h.stateIndex?_eq hs, Option.bind_some, hs]

/-- A command that is carried out does nothing to a lexical state that is not declared. -/
theorem Command.effectsOn_of_undeclared {c : Command}
    (hdefault : lx.stateIndex? lx.config.defaultLexicalState = some 0) (hc : c.applies lx = true)
    (hname : lx.stateIndex? name = none) : c.effectsOn name lx = [] := by
  have hne : ∀ n i, lx.stateIndex? n = some i → n ≠ name := by
    rintro n i hn rfl
    exact absurd (hname.symm.trans hn) (by simp)
  cases c with
  | addTokenProduction p =>
      obtain ⟨⟨⟩, hok⟩ := eq_ok_of_succeeds hc
      obtain ⟨targets, htargets, -⟩ := addTokenProduction_eq_ok hok
      have hmem : name ∉ concerned lx.config p := by
        rw [concerned]
        split
        · rw [List.mem_singleton]
          exact (hne _ 0 hdefault).symm
        · intro hmem
          obtain ⟨j, -, hj⟩ := exists_target htargets hmem
          exact hne name j hj rfl
      rw [effectsOn, List.count_eq_zero_of_not_mem hmem, List.replicate_zero]
  | addImplicitLiteral state image =>
      obtain ⟨token, hok⟩ := eq_ok_of_succeeds hc
      obtain ⟨j, -, hj, -⟩ := addImplicitLiteral_eq_ok hok
      exact if_neg fun hboth => hne state j hj hboth.1
  | _ => rfl

/-- A command that is carried out makes of a lexical state, declared or not, what its effects make
of it. -/
theorem Command.core_stateOrNew {c : Command} (h : lx.Reachable)
    (hdefault : lx.stateIndex? lx.config.defaultLexicalState = some 0) (hc : c.applies lx = true)
    (hr : lx.registry.Keeps r) (name : String) : ((c.run lx).stateOrNew name).core =
      (c.effectsOn name lx).foldl (Effect.apply r lx.config) (lx.stateOrNew name).core := by
  cases hname : lx.stateIndex? name with
  | some i =>
      obtain ⟨s, hs, rfl⟩ := (h.coherent.located _ _).mp hname
      obtain ⟨s', hs', hcore⟩ := c.core_run h.coherent hdefault hc hr hs
      have hname' : s'.name = s.name := by
        obtain ⟨s'', hs'', hevolves⟩ := c.exists_state hs
        rw [Option.some.inj (hs'.symm.trans hs''), hevolves.name_eq]
      have hstate' : (c.run lx).state? s.name = some s' :=
        hname' ▸ (h.run c).coherent.state?_eq hs'
      rw [stateOrNew, stateOrNew, h.coherent.state?_eq hs, hstate']
      exact hcore
  | none =>
      rw [effectsOn_of_undeclared hdefault hc hname]
      have hundeclared : lx.state? name = none := by rw [state?, hname, Option.bind_none]
      rw [stateOrNew, stateOrNew, hundeclared]
      cases hs' : (c.run lx).state? name with
      | none => rfl
      | some s' =>
          obtain ⟨i, hi, hget⟩ := Option.bind_eq_some_iff.mp hs'
          obtain ⟨t, ht, rfl⟩ := ((h.run c).coherent.located _ _).mp hi
          obtain rfl := Option.some.inj (ht.symm.trans hget)
          rcases c.state_cases ht with ⟨-, n, rfl⟩ | ⟨s, hs, hevolves⟩
          · rfl
          · rw [hevolves.name_eq, h.coherent.stateIndex?_eq hs] at hname
            exact absurd hname (Option.some_ne_none i)

theorem Command.keeps_registry (c : Command) (lx : Lexer) :
    lx.registry.Keeps (c.run lx).registry := by
  rcases c.registers lx with ⟨d, heq, -⟩ | ⟨-, hrevises⟩
  · exact heq ▸ TokenRegistry.keeps_register
  · exact hrevises.keeps

theorem keeps_registry_foldl (commands : List Command) (lx : Lexer) :
    lx.registry.Keeps (commands.foldl Command.run lx).registry := by
  induction commands generalizing lx with
  | nil => exact .refl
  | cons c commands ih => exact (c.keeps_registry lx).trans (ih (c.run lx))

theorem config_foldl {commands : List Command} (hc : allApply lx commands = true) :
    (commands.foldl Command.run lx).config = lx.config := by
  induction commands generalizing lx with
  | nil => rfl
  | cons c commands ih =>
      rw [allApply, Bool.and_eq_true] at hc
      exact (ih hc.2).trans (config_run_of_applies hc.1)

/-- Commands that are carried out make of a lexical state what their effects make of it, with the
definitions that there are in the end. -/
theorem core_foldl {commands : List Command} (h : lx.Reachable)
    (hdefault : lx.stateIndex? lx.config.defaultLexicalState = some 0)
    (hc : allApply lx commands = true) (hr : (commands.foldl Command.run lx).registry.Keeps r)
    (name : String) : ((commands.foldl Command.run lx).stateOrNew name).core =
      (effectsOn name lx commands).foldl (Effect.apply r lx.config) (lx.stateOrNew name).core := by
  induction commands generalizing lx with
  | nil => rfl
  | cons c commands ih =>
      rw [allApply, Bool.and_eq_true] at hc
      have hconfig := config_run_of_applies hc.1
      have hdefault' : (c.run lx).stateIndex? (c.run lx).config.defaultLexicalState = some 0 := by
        rw [hconfig]
        exact h.stateIndex?_run c hdefault
      have hkeeps : lx.registry.Keeps r := (keeps_registry_foldl (c :: commands) lx).trans hr
      rw [effectsOn, List.foldl_append, List.foldl_cons, ih (h.run c) hdefault' hc.2 hr, hconfig,
        c.core_stateOrNew h hdefault hc.1 hkeeps]

/-- A build that succeeds processes a lexical state, with the core as its only input. -/
theorem exists_core_of_build (h : lx.Reachable) (hbuild : build lx = .ok () lx')
    (hname : (lx.stateIndex? name).isSome) : ∃ s', lx'.state? name = some s' ∧
      LexicalState.process lx.registry lx.config (lx.stateOrNew name).core = .ok () s'.core := by
  obtain ⟨i, s, hs, rfl⟩ := h.coherent.located.isSome_iff.mp hname
  obtain ⟨s', hs', hprocess⟩ := exists_process_of_build hbuild hs
  have hbuilt : lx'.Reachable := final_eq_of_eq_ok hbuild ▸ h.run .build
  have hname' : s'.name = s.name := by
    rw [← final_eq_of_eq_ok hprocess]
    exact LexicalState.records_process.name_eq
  refine ⟨s', hname' ▸ hbuilt.coherent.state?_eq hs', ?_⟩
  rw [stateOrNew, h.coherent.state?_eq hs, Option.getD_some, LexicalState.process_core, hprocess]
  rfl

/-- Lexical states are independent. Let two lexers of one configuration come to have the same
definitions under the same labels by commands none of which fails or builds, with the same effects
on a lexical state that both declare; with one configuration it is the default one in both or in
neither. If both are then built, the lexical state has the same table, tokens, switches, warnings
and matches in both. -/
theorem lexicalStates_independent (config : Config) (commands commands' : List Command)
    (lx lx' built built' : Lexer) (name : String)
    (hlx : commands.foldl Command.run (new config) = lx)
    (hlx' : commands'.foldl Command.run (new config) = lx')
    (hc : allApply (new config) commands = true) (hc' : allApply (new config) commands' = true)
    (hdefinitions : lx.registry.definitions = lx'.registry.definitions)
    (hlabels : ∀ label, lx.registry.byLabel? label = lx'.registry.byLabel? label)
    (heffects : effectsOn name (new config) commands = effectsOn name (new config) commands')
    (hname : (lx.stateIndex? name).isSome) (hname' : (lx'.stateIndex? name).isSome)
    (hbuild : build lx = .ok () built) (hbuild' : build lx' = .ok () built') :
    ∃ s s', built.state? name = some s ∧ built'.state? name = some s' ∧
      s.isDefault = s'.isDefault ∧ s.table = s'.table ∧ s.built = s'.built ∧
        (∀ token, s.newLexicalState? token = s'.newLexicalState? token) ∧
          s.warnings = s'.warnings ∧
            ∀ text, s.scanner.longestMatch text = s'.scanner.longestMatch text := by
  have hnew : (new config).Reachable := .new config
  have hdefault : (new config).stateIndex? config.defaultLexicalState = some 0 :=
    hnew.coherent.stateIndex?_eq (i := 0) rfl
  have hcore : (lx.stateOrNew name).core = (lx'.stateOrNew name).core := by
    subst hlx hlx'
    have hkeeps : (commands'.foldl Command.run (new config)).registry.Keeps
        (commands.foldl Command.run (new config)).registry := by
      intro token d hd
      rw [TokenRegistry.get?, ← hdefinitions] at hd
      exact ⟨d, hd, rfl, rfl, rfl⟩
    rw [core_foldl hnew hdefault hc .refl name, heffects, core_foldl hnew hdefault hc' hkeeps name]
  have hconfig : lx.config = lx'.config := by
    rw [← hlx, ← hlx', config_foldl hc, config_foldl hc']
  obtain ⟨s, hs, hprocess⟩ := exists_core_of_build (hlx ▸ hnew.foldl commands) hbuild hname
  obtain ⟨s', hs', hprocess'⟩ := exists_core_of_build (hlx' ▸ hnew.foldl commands') hbuild' hname'
  rw [hcore, LexicalState.process_congr hdefinitions (funext hlabels), hconfig, hprocess']
    at hprocess
  have heq : s.core = s'.core := (EStateM.Result.ok.inj hprocess).2.symm
  exact ⟨s, s', hs, hs', congrArg (·.isDefault) heq, congrArg (·.table) heq,
    congrArg (·.built) heq, fun token => congrArg (·.newLexicalState? token) heq,
    congrArg (·.warnings) heq,
    fun text => congrArg (fun s => s.scanner.longestMatch text) heq⟩

/-- Two lexers with one mode for words. In the first the default lexical state lists the new literal
of that mode too; in the second another one lists the token of that mode, in a production that both
share and in one of its own, which switches, and labels are made earlier. On the first character the
mode tries both literals. -/
theorem lexicalStates_independent_shared : ∃ (commands commands' : List Command)
    (lx lx' built built' : Lexer) (s s' : LexicalState),
    commands.foldl Command.run (new {}) = lx ∧ commands'.foldl Command.run (new {}) = lx' ∧
      allApply (new {}) commands = true ∧ allApply (new {}) commands' = true ∧
      lx.registry.definitions = lx'.registry.definitions ∧
      lx.registry.labels = [("EOF", 0), ("X", 2), ("A", 1), ("B", 3)] ∧
      lx'.registry.labels = [("EOF", 0), ("A", 1), ("X", 2), ("B", 3)] ∧
      effectsOn "WORD" (new {}) commands =
        [.production false [{ token := 1 }], .literal "b" 3] ∧
      effectsOn "WORD" (new {}) commands' =
        [.production false [{ token := 1 }], .literal "b" 3] ∧
      build lx = .ok () built ∧ build lx' = .ok () built' ∧ built.state? "WORD" = some s ∧
        built'.state? "WORD" = some s' ∧
          s.table.composites.map (fun c =>
            (c.index, c.members.map fun m => (m.asciiRanges, m.token))) =
              [(0, [([.single 98], some 3), ([.single 97], some 1)])] ∧
          s.table = s'.table ∧ s.built = s'.built ∧
          (∀ token, s.newLexicalState? token = s'.newLexicalState? token) ∧
            s.warnings = s'.warnings ∧
              ∀ text, s.scanner.longestMatch text = s'.scanner.longestMatch text := by
  let labelled : TokenDefinition := { label := some "X", pattern := .literal "x" }
  let commands : List Command := [.addLexicalState "WORD", .addDefinition (.ofLiteral "a"),
    .addTokenProduction { kind := .skip, lexicalStates := ["WORD"], specs := [{ token := 1 }] },
    .addDefinition labelled, .addImplicitLiteral "WORD" "b",
    .addTokenProduction { specs := [{ token := 3 }] }, .ensureLabels .ascii]
  let other : TokenProduction :=
    { lexicalStates := ["OTHER"], specs := [{ token := 1, next := some "DEFAULT" }] }
  let commands' : List Command := [.addLexicalState "OTHER", .addDefinition (.ofLiteral "a"),
    .ensureLabels .ascii, .addTokenProduction other, .addLexicalState "WORD",
    .addDefinition labelled,
    .addTokenProduction { lexicalStates := ["OTHER", "WORD"], specs := [{ token := 1 }] },
    .addImplicitLiteral "WORD" "b", .ensureLabels .ascii]
  let lx := commands.foldl Command.run (new {})
  let lx' := commands'.foldl Command.run (new {})
  obtain ⟨hc, heffects, hname, hsucceeds, hentry, hfirst⟩ :
      allApply (new {}) commands = true ∧
      effectsOn "WORD" (new {}) commands =
        [.production false [{ token := 1 }], .literal "b" 3] ∧
      (lx.stateIndex? "WORD").isSome = true ∧
      succeeds build lx = true ∧
      ((final build lx).state? "WORD").map (fun s => s.table.composites.map fun c =>
        (c.index, c.members.map fun m => (m.asciiRanges, m.token))) =
          some [(0, [([.single 98], some 3), ([.single 97], some 1)])] ∧
      lx.registry.labels = [("EOF", 0), ("X", 2), ("A", 1), ("B", 3)] := by
    dsimp only [lx, commands, labelled]
    cbv
  obtain ⟨hc', heffects', hname', hsucceeds', hdefinitions, hsecond⟩ :
      allApply (new {}) commands' = true ∧
      effectsOn "WORD" (new {}) commands' =
        [.production false [{ token := 1 }], .literal "b" 3] ∧
      (lx'.stateIndex? "WORD").isSome = true ∧
      succeeds build lx' = true ∧ lx.registry.definitions = lx'.registry.definitions ∧
      lx'.registry.labels = [("EOF", 0), ("A", 1), ("X", 2), ("B", 3)] := by
    dsimp only [lx, lx', commands, commands', other, labelled]
    cbv
  have hlabels : ∀ label, lx.registry.byLabel? label = lx'.registry.byLabel? label := by
    intro label
    rw [TokenRegistry.byLabel?, TokenRegistry.byLabel?, hfirst, hsecond, Claims.owner?,
      Claims.owner?]
    by_cases h : label = "X"
    · subst h
      rfl
    · simp only [List.lookup_cons, beq_eq_false_iff_ne.mpr h]
  obtain ⟨⟨⟩, built, hbuild⟩ := exists_of_succeeds hsucceeds
  obtain ⟨⟨⟩, built', hbuild'⟩ := exists_of_succeeds hsucceeds'
  obtain ⟨s, s', hs, hs', -, hsame⟩ := lexicalStates_independent {} commands commands' lx lx'
    built built' "WORD" rfl rfl hc hc' hdefinitions hlabels (heffects.trans heffects'.symm)
    hname hname' hbuild hbuild'
  rw [final_eq_of_eq_ok hbuild, hs, Option.map_some, Option.some.injEq] at hentry
  exact ⟨commands, commands', lx, lx', built, built', s, s', rfl, rfl, hc, hc', hdefinitions,
    hfirst, hsecond, heffects, heffects', hbuild, hbuild', hs, hs', hentry, hsame⟩

end Lexer

end ScannerTables
