import Mathlib.Logic.Function.Iterate
import ScannerTables.Lexer.Build
import ScannerTables.Lexer.Labels
import ScannerTables.Proofs.Dispatch
import ScannerTables.Proofs.Plan
/-!
# Lexers and their histories

A lexer is made by `Lexer.new` and changed by commands, each of which may fail half way. What holds
of every lexer with such a history is `Lexer.Coherent`: there is a default lexical state, names are
declared once, lexical states have productions that the lexer has too, and every switch leads to a
lexical state that is declared. The last is a matter of order: a build looks at the targets of all
productions before it processes the first lexical state, and processing records no others.
-/

namespace ScannerTables

open Checked

/-! ### What processing records -/

namespace LexicalState

/-- A lexical state with the same name and productions, the default one or not as before, and with
no new switches but of some kind. -/
structure Records (s s' : LexicalState) (switch : Nat × String → Prop) : Prop where
  name_eq : s'.name = s.name
  isDefault_eq : s'.isDefault = s.isDefault
  productions_eq : s'.productions = s.productions
  transitions : ∀ t ∈ s'.transitions, t ∈ s.transitions ∨ switch t

variable {s s' : LexicalState} {switch : Nat × String → Prop} {r : TokenRegistry} {config : Config}

theorem Records.refl : s.Records s switch := ⟨rfl, rfl, rfl, fun _ => .inl⟩

theorem Records.runStep {t : LexicalState} {step : BuildStep} (h : s.Records t switch)
    (hstep : ∀ token ignoreCase name, step = .token token ignoreCase (some name) →
      switch (token, name)) : s.Records (final (runStep r step) t) switch := by
  cases step with
  | unknown ordinal => exact h
  | token token ignoreCase next =>
      rw [final, LexicalState.runStep]
      dsimp only
      cases Build.token r token ignoreCase initialState t.automaton with
      | error e automaton =>
          exact ⟨h.name_eq, h.isDefault_eq, h.productions_eq, h.transitions⟩
      | ok f automaton =>
          refine ⟨h.name_eq, h.isDefault_eq, h.productions_eq, ?_⟩
          intro u hu
          rcases List.mem_append.mp hu with hu | hu
          · exact h.transitions u hu
          · obtain ⟨name, hname, rfl⟩ := List.mem_map.mp hu
            exact .inr (hstep token ignoreCase name (by rw [Option.mem_toList.mp hname]))

/-- A step of the plan switches only where an entry of a production says so, and to another lexical
state. -/
theorem exists_spec_of_mem_plan {token : Nat} {ignoreCase : Bool} {name : String}
    (h : .token token ignoreCase (some name) ∈ s.plan r config) : name ≠ s.name ∧
    ∃ p ∈ s.productions, ∃ spec ∈ p.specs, spec.token = token ∧ spec.next = some name := by
  rcases List.mem_append.mp h with h | h
  · obtain ⟨t, -, ht⟩ := List.mem_filterMap.mp h
    rw [implicitStep?] at ht
    split at ht
    · exact absurd ht (by simp)
    · split at ht
      · exact absurd ht (by simp)
      · split at ht <;> exact absurd ht (by simp)
  · obtain ⟨p, hp, h⟩ := List.mem_flatMap.mp h
    obtain ⟨spec, hspec, hstep⟩ := List.mem_filterMap.mp h
    rw [specStep?] at hstep
    split at hstep
    · exact absurd hstep (by simp)
    · dsimp only at hstep
      split at hstep
      · exact absurd hstep (by simp)
      · obtain ⟨htoken, -, hnext⟩ := BuildStep.token.inj (Option.some.inj hstep)
        obtain ⟨hnext, hne⟩ := Option.filter_eq_some_iff.mp hnext
        exact ⟨of_decide_eq_true hne, p, hp, spec, hspec, htoken, hnext⟩

/-- What the steps of the plan keep, and warnings and generating keep, processing keeps, however far
it comes. -/
theorem keeps_process {P : LexicalState → Prop} (hs : P s)
    (hstep : ∀ step ∈ s.plan r config, ∀ t, P t → P (final (runStep r step) t))
    (hreported : ∀ t, P t → P t.reported)
    (hgenerate : ∀ t t', t.generate = .ok t' → P t → P t') : P (final (process r config) s) := by
  rw [process_eq, final_get_bind]
  split
  · exact hs
  · refine final_bind (P := P) (final_forM hstep hs) fun _ t _ ht => ?_
    rw [final_modify_bind, final_get_bind]
    cases hgen : t.reported.generate with
    | error e => exact hreported t ht
    | ok t' => exact hgenerate t.reported t' hgen (hreported t ht)

/-- However far processing comes, it records only switches of its productions to other lexical
states. -/
theorem records_process : s.Records (final (process r config) s) fun t => t.2 ≠ s.name ∧
    ∃ p ∈ s.productions, ∃ spec ∈ p.specs, spec.token = t.1 ∧ spec.next = some t.2 := by
  apply keeps_process (P := fun t => s.Records t _) .refl
  · intro step hstep t ht
    refine Records.runStep ht ?_
    rintro token ignoreCase name rfl
    exact exists_spec_of_mem_plan hstep
  · exact fun t ht => ⟨ht.name_eq, ht.isDefault_eq, ht.productions_eq, ht.transitions⟩
  · intro t t' hgen ht
    obtain ⟨_, _, _, rfl⟩ := exists_eq_of_generate hgen
    exact ⟨ht.name_eq, ht.isDefault_eq, ht.productions_eq, ht.transitions⟩

theorem mem_of_newLexicalState? {token : Nat} {name : String}
    (h : s.newLexicalState? token = some name) : (token, name) ∈ s.transitions := by
  obtain ⟨l₁, l₂, heq, -⟩ := List.lookup_eq_some_iff.mp h
  simp [heq]

end LexicalState

namespace Lexer

variable {lx lx' : Lexer} {name : String} {i : Nat}

/-! ### Lexical states by name -/

/-- The index of positions is in step with the lexical states: it has a position for each name, and
there stands the lexical state of that name. -/
def Located (lx : Lexer) : Prop := ∀ (name : String) (i : Nat),
  lx.stateIndex? name = some i ↔ ∃ s, lx.states[i]? = some s ∧ s.name = name

theorem stateIndex?_eq_of_positions (h : lx'.positions = lx.positions) :
    lx'.stateIndex? = lx.stateIndex? := by
  funext name
  rw [stateIndex?, stateIndex?, h]

theorem lookup_entry (entries : List (String × Nat)) (n : String) :
    ((name, i) :: entries).lookup n = if n = name then some i else entries.lookup n := by
  rw [List.lookup_cons]
  by_cases hn : n = name
  · rw [if_pos hn, hn, beq_self_eq_true]
  · rw [if_neg hn, beq_false_of_ne hn]

namespace Located

theorem isSome_iff (h : lx.Located) : (lx.stateIndex? name).isSome ↔
    ∃ (i : Nat) (s : LexicalState), lx.states[i]? = some s ∧ s.name = name := by
  simp only [Option.isSome_iff_exists, h name]

theorem new (config : Config) : (Lexer.new config).Located := by
  intro name i
  rw [stateIndex?, Lexer.new, lookup_entry]
  cases i with
  | zero => simp [LexicalState.new, eq_comm]
  | succ i => simp

/-- A lexical state with a new name is entered at the end. -/
theorem push (h : lx.Located) (hname : lx.stateIndex? name = none) :
    Located { lx with
      states := lx.states.push (.new name false)
      positions := (name, lx.states.size) :: lx.positions } := by
  intro n i
  have hlookup : stateIndex? { lx with
      states := lx.states.push (.new name false)
      positions := (name, lx.states.size) :: lx.positions } n =
        if n = name then some lx.states.size else lx.stateIndex? n := by
    rw [stateIndex?, lookup_entry, stateIndex?]
  rw [hlookup, Array.getElem?_push]
  split
  · next hn =>
    subst hn
    constructor
    · intro hi
      obtain rfl := Option.some.inj hi
      exact ⟨_, if_pos rfl, rfl⟩
    · rintro ⟨s, hs, hn⟩
      split at hs
      · next hi => rw [hi]
      · rw [(h n i).mpr ⟨s, hs, hn⟩] at hname
        exact absurd hname (Option.some_ne_none i)
  · next hn =>
    rw [h n i]
    split
    · next hi =>
      refine iff_of_false ?_ ?_
      · rintro ⟨s, hs, -⟩
        exact absurd (Array.getElem?_eq_some_iff.mp hs).1 (hi ▸ Nat.lt_irrefl _)
      · rintro ⟨s, hs, rfl⟩
        obtain rfl := Option.some.inj hs
        exact hn rfl
    · rfl

end Located

/-! ### What holds of every lexer -/

/-- The lexical states of a lexer fit together. -/
structure Coherent (lx : Lexer) : Prop where
  states_pos : 0 < lx.states.size
  located : lx.Located
  productions : ∀ (i : Nat) (s : LexicalState), lx.states[i]? = some s →
    ∀ p ∈ s.productions, p ∈ lx.productions
  transitions : ∀ (i : Nat) (s : LexicalState), lx.states[i]? = some s →
    ∀ t ∈ s.transitions, (lx.stateIndex? t.2).isSome

/-- A name finds the one lexical state that has it. -/
theorem Coherent.stateIndex?_eq (h : lx.Coherent) {s : LexicalState} (hs : lx.states[i]? = some s) :
    lx.stateIndex? s.name = some i :=
  (h.located s.name i).mpr ⟨s, hs, rfl⟩

theorem Coherent.name_inj (h : lx.Coherent) {j : Nat} {s t : LexicalState}
    (hs : lx.states[i]? = some s) (ht : lx.states[j]? = some t) (heq : s.name = t.name) : i = j :=
  Option.some.inj ((h.stateIndex?_eq hs).symm.trans (heq ▸ h.stateIndex?_eq ht))

/-- Every lexical state as it was, but for productions that the lexer has now and for switches to
lexical states that are declared. -/
structure Amends (lx lx' : Lexer) : Prop where
  size_eq : lx'.states.size = lx.states.size
  positions_eq : lx'.positions = lx.positions
  productions : ∀ p ∈ lx.productions, p ∈ lx'.productions
  state : ∀ (i : Nat) (s' : LexicalState), lx'.states[i]? = some s' →
    ∃ s, lx.states[i]? = some s ∧ s'.name = s.name ∧
      (∀ p ∈ s'.productions, p ∈ s.productions ∨ p ∈ lx'.productions) ∧
        ∀ t ∈ s'.transitions, t ∈ s.transitions ∨ (lx.stateIndex? t.2).isSome

theorem Amends.located (h : lx.Amends lx') (hlx : lx.Located) : lx'.Located := by
  intro name i
  rw [stateIndex?_eq_of_positions h.positions_eq, hlx name i]
  constructor
  · rintro ⟨s, hs, rfl⟩
    obtain ⟨hi, -⟩ := Array.getElem?_eq_some_iff.mp hs
    have hs' := Array.getElem?_eq_getElem (h.size_eq ▸ hi : i < lx'.states.size)
    obtain ⟨t, ht, hname, -⟩ := h.state i _ hs'
    obtain rfl := Option.some.inj (hs.symm.trans ht)
    exact ⟨_, hs', hname⟩
  · rintro ⟨s', hs', rfl⟩
    obtain ⟨s, hs, hname, -⟩ := h.state i s' hs'
    exact ⟨s, hs, hname.symm⟩

theorem Coherent.amends (h : lx.Coherent) (ha : lx.Amends lx') : lx'.Coherent where
  states_pos := ha.size_eq ▸ h.states_pos
  located := ha.located h.located
  productions i s' hs' p hp := by
    obtain ⟨s, hs, -, hproductions, -⟩ := ha.state i s' hs'
    rcases hproductions p hp with hp | hp
    · exact ha.productions p (h.productions i s hs p hp)
    · exact hp
  transitions i s' hs' t ht := by
    obtain ⟨s, hs, -, -, htransitions⟩ := ha.state i s' hs'
    rw [stateIndex?_eq_of_positions ha.positions_eq]
    exact (htransitions t ht).elim (h.transitions i s hs t) id

/-! ### Commands -/

/-- What can be done with a lexer. -/
inductive Command where
  | addLexicalState (name : String)
  | addDefinition (d : TokenDefinition)
  | addTokenProduction (p : TokenProduction)
  | addImplicitLiteral (state image : String)
  | setOverridden (token : Nat)
  | ensureLabels (u : IdentifierClasses)
  | build

/-- The lexer after a command, whether that was carried out or failed on the way. -/
def Command.run (lx : Lexer) : Command → Lexer
  | addLexicalState name => final (Lexer.addLexicalState name) lx
  | addDefinition d => (lx.addDefinition d).2
  | addTokenProduction p => final (Lexer.addTokenProduction p) lx
  | addImplicitLiteral state image => final (Lexer.addImplicitLiteral state image) lx
  | setOverridden token => lx.setOverridden token
  | ensureLabels u => lx.ensureLabels u
  | build => final Lexer.build lx

/-- The lexers that commands make, in any number and order. -/
inductive Reachable : Lexer → Prop
  | new (config : Config) : Reachable (new config)
  | run {lx : Lexer} (h : Reachable lx) (c : Command) : Reachable (c.run lx)

theorem Reachable.foldl (h : lx.Reachable) (commands : List Command) :
    (commands.foldl Command.run lx).Reachable := by
  induction commands generalizing lx with
  | nil => exact h
  | cons c commands ih => exact ih (h.run c)

/-! ### Every command keeps a lexer coherent -/

section

variable {targets : List Nat} {f : LexicalState → LexicalState}

theorem size_modifyStates : (lx.modifyStates targets f).states.size = lx.states.size := by
  rw [modifyStates]
  generalize lx.states = states
  induction targets generalizing states with
  | nil => rfl
  | cons i targets ih => rw [List.foldl_cons, ih, Array.size_modify]

theorem getElem?_modifyStates :
    (lx.modifyStates targets f).states[i]? = lx.states[i]?.map f^[targets.count i] := by
  rw [modifyStates]
  generalize lx.states = states
  induction targets generalizing states with
  | nil => rw [List.foldl_nil, List.count_nil, Function.iterate_zero, Option.map_id, id]
  | cons j targets ih =>
      rw [List.foldl_cons, ih, Array.getElem?_modify, List.count_cons]
      split
      · next heq => rw [Option.map_map, heq, if_pos (beq_self_eq_true i), Function.iterate_succ]
      · next hne => rw [if_neg (by simpa using hne), Nat.add_zero]

/-- Where lexical states are modified, each comes of one that was there. -/
theorem exists_of_modifyStates {P : LexicalState → LexicalState → Prop} (refl : ∀ s, P s s)
    (step : ∀ s t, P (f s) t → P s t) {s' : LexicalState}
    (h : (lx.modifyStates targets f).states[i]? = some s') :
    ∃ s, lx.states[i]? = some s ∧ P s s' := by
  rw [getElem?_modifyStates] at h
  obtain ⟨s, hs, rfl⟩ := Option.map_eq_some_iff.mp h
  refine ⟨s, hs, ?_⟩
  clear h hs
  induction targets.count i generalizing s with
  | zero => exact refl s
  | succ n ih => exact step s _ (ih (f s))

/-- Modifying lexical states amends them, if names and switches stay. -/
theorem amends_of_modifyStates (hname : ∀ s, (f s).name = s.name)
    (htransitions : ∀ s, (f s).transitions = s.transitions)
    (hproductions : ∀ s, ∀ p ∈ (f s).productions, p ∈ s.productions ∨ p ∈ lx'.productions)
    (hstates : lx'.states = (lx.modifyStates targets f).states)
    (hpositions : lx'.positions = lx.positions)
    (hmono : ∀ p ∈ lx.productions, p ∈ lx'.productions) : lx.Amends lx' where
  size_eq := by rw [hstates, size_modifyStates]
  positions_eq := hpositions
  productions := hmono
  state i s' hs' := by
    rw [hstates] at hs'
    refine exists_of_modifyStates (P := fun s s' => s'.name = s.name ∧
      (∀ p ∈ s'.productions, p ∈ s.productions ∨ p ∈ lx'.productions) ∧
        ∀ t ∈ s'.transitions, t ∈ s.transitions ∨ (lx.stateIndex? t.2).isSome)
      (fun s => ⟨rfl, fun _ => .inl, fun _ => .inl⟩) ?_ hs'
    intro s t h
    refine ⟨h.1.trans (hname s), ?_, htransitions s ▸ h.2.2⟩
    intro p hp
    exact (h.2.1 p hp).elim (hproductions s p) .inr

end

/-- Claiming literals, and listing them as undeclared, amends lexical states. -/
theorem amends_of_claimLiteral {targets : List Nat} {image : String} {token : Nat}
    {ignoreCase : Bool} {f : LexicalState → LexicalState}
    (hlist : ∀ s, ∃ tokens, f s = { s with implicitLiterals := tokens })
    (hstates : lx'.states = (lx.modifyStates targets fun s =>
      f (s.claimLiteral image token ignoreCase).2).states)
    (hpositions : lx'.positions = lx.positions)
    (hproductions : lx'.productions = lx.productions) : lx.Amends lx' := by
  have heq : ∀ s : LexicalState, ∃ tokens exact folded,
      f (s.claimLiteral image token ignoreCase).2 =
        { s with
          implicitLiterals := tokens, exactLiterals := exact, foldedLiterals := folded } := by
    intro s
    obtain ⟨exact, folded, hclaim⟩ := s.claimLiteral_eq image token ignoreCase
    obtain ⟨tokens, htokens⟩ := hlist (s.claimLiteral image token ignoreCase).2
    exact ⟨tokens, exact, folded, by rw [htokens, hclaim]⟩
  refine amends_of_modifyStates (fun s => ?_) (fun s => ?_) (fun s p hp => .inl ?_) hstates
    hpositions fun p hp => hproductions ▸ hp
  all_goals
    obtain ⟨tokens, exact, folded, heq⟩ := heq s
    first
    | rw [heq]
    | rwa [heq] at hp

theorem eq_new_of_getElem? {config : Config} {s : LexicalState}
    (h : (Lexer.new config).states[i]? = some s) : s = .new config.defaultLexicalState true := by
  cases i with
  | zero => exact (Option.some.inj h).symm
  | succ i => exact absurd h (by simp [Lexer.new])

theorem final_addLexicalState : final (addLexicalState name) lx =
    if (lx.stateIndex? name).isSome then lx
    else { lx with
      states := lx.states.push (.new name false)
      positions := (name, lx.states.size) :: lx.positions } := by
  rw [addLexicalState]
  rw [final_get_bind]
  split <;> rfl

/-- What every claim of a literal keeps, the claims of entries keep, however far they come. -/
theorem keeps_claimSpecs {P : Lexer → Prop} {inherited : Bool} {targets : List Nat}
    (specs : List TokenSpec) (h : P lx)
    (hclaim : ∀ lx image token ignoreCase, P lx →
      P (lx.modifyStates targets fun s => (s.claimLiteral image token ignoreCase).2)) :
    P (final (specs.forM (claimSpec inherited targets)) lx) := by
  refine final_forM (fun spec _ lx h => ?_) h
  rw [claimSpec, final_get_bind]
  cases lx.registry.get? spec.token with
  | none => exact h
  | some d =>
      dsimp only
      cases d.image? with
      | none => exact h
      | some image => exact hclaim lx image spec.token _ h

/-- What claims of literals keep and the addition of a production keeps, handing over the production
keeps, whether it is accepted or not. -/
theorem keeps_addTokenProduction {P : Lexer → Prop} (p : TokenProduction) (h : P lx)
    (hclaim : ∀ lx targets image token ignoreCase, P lx →
      P (lx.modifyStates targets fun s => (s.claimLiteral image token ignoreCase).2))
    (hadd : ∀ lx targets, P lx → P { lx.modifyStates targets (·.addProduction p) with
      productions := lx.productions ++ [p] }) : P (final (addTokenProduction p) lx) := by
  rw [addTokenProduction, final_get_bind]
  cases lx.targets p with
  | error e => exact h
  | ok targets =>
      refine final_bind (P := P) h fun _ _ htargets _ => ?_
      obtain ⟨rfl, rfl⟩ := EStateM.Result.ok.inj htargets
      refine final_bind (P := P) ?_ fun _ lx _ h => hadd lx targets h
      exact keeps_claimSpecs p.specs h fun lx => hclaim lx targets

section

variable {s : LexicalState} {state image : String}

theorem addImplicitLiteral_of_undeclared (h : lx.state? state = none) :
    addImplicitLiteral state image lx = .error (.unknownLexicalState state) lx := by
  rw [addImplicitLiteral, run_get_bind, h]
  rfl

theorem addImplicitLiteral_of_known {token : Nat} (hstate : lx.state? state = some s)
    (hlookup : s.lookupLiteral image = some token) :
    addImplicitLiteral state image lx = .ok token lx := by
  rw [addImplicitLiteral, run_get_bind, hstate]
  dsimp only
  rw [hlookup]
  rfl

theorem addImplicitLiteral_of_unknown (hstate : lx.state? state = some s)
    (hlookup : s.lookupLiteral image = none) :
    addImplicitLiteral state image lx = .ok lx.registry.size
      { lx.modifyStates (lx.stateIndex? state).toList fun s =>
          (s.claimLiteral image lx.registry.size lx.config.ignoreCase).2.addImplicitLiteral
            lx.registry.size with
        registry := lx.registry.register (.ofLiteral image) } := by
  rw [addImplicitLiteral, run_get_bind, hstate]
  dsimp only
  rw [hlookup]
  rfl

end

/-- An implicit literal that is known, or given where there is no lexical state, changes nothing;
another one is registered and claimed. -/
theorem final_addImplicitLiteral (state image : String) :
    final (addImplicitLiteral state image) lx = lx ∨
      final (addImplicitLiteral state image) lx =
        { lx.modifyStates (lx.stateIndex? state).toList fun s =>
            (s.claimLiteral image lx.registry.size lx.config.ignoreCase).2.addImplicitLiteral
              lx.registry.size with
          registry := lx.registry.register (.ofLiteral image) } := by
  cases hstate : lx.state? state with
  | none =>
      rw [final, addImplicitLiteral_of_undeclared hstate]
      exact .inl rfl
  | some s =>
      cases hlookup : s.lookupLiteral image with
      | some token => exact .inl (final_eq_of_eq_ok (addImplicitLiteral_of_known hstate hlookup))
      | none => exact .inr (final_eq_of_eq_ok (addImplicitLiteral_of_unknown hstate hlookup))

/-- A check that succeeds finds every lexical state that productions switch to. -/
theorem isSome_of_checkTargets (h : lx.checkTargets = .ok ()) (hname : name ∈ lx.switchTargets) :
    (lx.stateIndex? name).isSome := by
  rw [checkTargets] at h
  generalize lx.switchTargets = names at h hname
  induction names with
  | nil => exact absurd hname List.not_mem_nil
  | cons n names ih =>
      obtain ⟨⟨⟩, hfirst, hrest⟩ := bind_eq_ok.mp h
      rcases List.mem_cons.mp hname with rfl | hname
      · obtain ⟨i, hi, -⟩ := map_eq_ok.mp hfirst
        rw [stateIndex] at hi
        split at hi
        · next j hj => exact Option.isSome_of_eq_some hj
        · exact absurd hi (by simp)
      · exact ih hrest hname

/-- Processing reaches every lexical state up to the first that fails, and leaves the others. -/
theorem forall₂_processAll (r : TokenRegistry) (config : Config) (states : List LexicalState) :
    List.Forall₂ (fun s s' => s' = s ∨ s' = final (LexicalState.process r config) s) states
      (processAll r config states).1 := by
  induction states with
  | nil => exact .nil
  | cons s states ih =>
      rw [processAll]
      cases hs : LexicalState.process r config s with
      | error e s' =>
          refine .cons (.inr (by rw [final, hs])) ?_
          exact List.forall₂_same.mpr fun _ _ => .inl rfl
      | ok u s' => exact .cons (.inr (by rw [final, hs])) ih

/-- A build changes nothing, or it has checked the targets and processes the lexical states. -/
theorem final_build (lx : Lexer) : final build lx = lx ∨ lx.checkTargets = .ok () ∧
    (final build lx).states = (processAll lx.registry lx.config lx.states.toList).1.toArray ∧
      (final build lx).positions = lx.positions ∧
        (final build lx).productions = lx.productions := by
  rw [build, final_get_bind]
  cases hchecked : lx.checkTargets with
  | error e => exact .inl rfl
  | ok u =>
      refine .inr ⟨rfl, ?_⟩
      dsimp only
      rw [final_set_bind]
      cases (processAll lx.registry lx.config lx.states.toList).2 <;> exact ⟨rfl, rfl, rfl⟩

/-- Processing goes through exactly if every lexical state can be processed. -/
theorem processAll_eq_none_iff {r : TokenRegistry} {config : Config}
    {states states' : List LexicalState} : processAll r config states = (states', none) ↔
      List.Forall₂ (fun s s' => LexicalState.process r config s = .ok () s') states states' := by
  induction states generalizing states' with
  | nil =>
      rw [processAll, List.forall₂_nil_left_iff, Prod.mk_inj, eq_comm]
      exact and_iff_left rfl
  | cons s states ih =>
      rw [processAll, List.forall₂_cons_left_iff]
      cases hs : LexicalState.process r config s with
      | error e t =>
          refine iff_of_false (fun h => ?_) ?_
          · exact absurd (Prod.mk.inj h).2 (Option.some_ne_none _)
          · rintro ⟨_, _, hok, -⟩
            exact absurd hok error_ne_ok
      | ok _ t =>
          constructor
          · intro h
            obtain ⟨rfl, hnone⟩ := Prod.mk.inj h
            exact ⟨t, _, rfl, ih.mp (Prod.ext rfl hnone), rfl⟩
          · rintro ⟨_, rest, hok, hrest, rfl⟩
            obtain ⟨-, rfl⟩ := EStateM.Result.ok.inj hok
            rw [ih.mpr hrest]

/-- A build succeeds exactly if all targets are declared and every lexical state can be processed.
It then settles the targets of the tokens and collects what there is to tell. -/
theorem build_eq_ok : build lx = .ok () lx' ↔ lx.checkTargets = .ok () ∧ ∃ states,
    List.Forall₂ (fun s s' => LexicalState.process lx.registry lx.config s = .ok () s')
      lx.states.toList states ∧
    lx' = { lx with
      states := states.toArray
      registry := recordTargets { lx with states := states.toArray }
      warnings := states.flatMap LexicalState.warnings } := by
  rw [build, run_get_bind]
  cases hchecked : lx.checkTargets with
  | error e =>
      refine iff_of_false run_throw_ne_ok ?_
      rintro ⟨hok, -⟩
      exact absurd hok throw_ne_ok
  | ok u =>
      rw [and_iff_right rfl]
      simp only [← processAll_eq_none_iff]
      obtain ⟨states, failure⟩ := processAll lx.registry lx.config lx.states.toList
      constructor
      · intro h
        obtain ⟨_, _, hset, h⟩ := run_bind_eq_ok.mp h
        obtain ⟨-, rfl⟩ := EStateM.Result.ok.inj hset
        cases failure with
        | some e => exact absurd h run_throw_ne_ok
        | none =>
            obtain ⟨-, rfl⟩ := EStateM.Result.ok.inj h
            exact ⟨states, rfl, rfl⟩
      · rintro ⟨_, heq, rfl⟩
        obtain ⟨rfl, rfl⟩ := Prod.mk.inj heq
        rfl

/-- A build that succeeds has processed every lexical state. -/
theorem exists_process_of_build (h : build lx = .ok () lx') (hs : lx.states[i]? = some s) :
    ∃ s', lx'.states[i]? = some s' ∧ LexicalState.process lx.registry lx.config s = .ok () s' := by
  obtain ⟨-, states, hall, rfl⟩ := build_eq_ok.mp h
  obtain ⟨hi, rfl⟩ := Array.getElem?_eq_some_iff.mp hs
  have hi' : i < states.length := hall.length_eq ▸ (by simpa using hi)
  refine ⟨_, List.getElem?_toArray.trans (List.getElem?_eq_getElem hi'), ?_⟩
  exact hall.get (by simpa using hi) hi'

theorem amends_of_processAll (h : lx.Coherent) (hchecked : lx.checkTargets = .ok ())
    (hstates : lx'.states = (processAll lx.registry lx.config lx.states.toList).1.toArray)
    (hpositions : lx'.positions = lx.positions)
    (hproductions : lx'.productions = lx.productions) : lx.Amends lx' := by
  have hall := forall₂_processAll lx.registry lx.config lx.states.toList
  refine ⟨?_, hpositions, fun p hp => hproductions ▸ hp, ?_⟩
  · rw [hstates, List.size_toArray, ← hall.length_eq, Array.length_toList]
  · intro i s' hs'
    rw [hstates, List.getElem?_toArray] at hs'
    obtain ⟨hlt, rfl⟩ := List.getElem?_eq_some_iff.mp hs'
    have hlt' : i < lx.states.toList.length := hall.length_eq ▸ hlt
    have hs : lx.states[i]? = some lx.states.toList[i] := by
      rw [← Array.getElem?_toList, List.getElem?_eq_getElem hlt']
    refine ⟨_, hs, ?_⟩
    rcases hall.get hlt' hlt with heq | heq <;> simp only [List.get_eq_getElem] at heq
    · rw [heq]
      exact ⟨rfl, fun _ => .inl, fun _ => .inl⟩
    · rw [heq]
      have hrecords := @LexicalState.records_process lx.states.toList[i] lx.registry lx.config
      refine ⟨hrecords.name_eq, fun p hp => .inl (hrecords.productions_eq ▸ hp), ?_⟩
      intro t ht
      refine (hrecords.transitions t ht).imp_right ?_
      rintro ⟨-, p, hp, spec, hspec, -, hnext⟩
      refine isSome_of_checkTargets hchecked (List.mem_flatMap.mpr
        ⟨p, h.productions i _ hs p hp, List.mem_filterMap.mpr ⟨spec, hspec, hnext⟩⟩)

namespace Coherent

theorem new (config : Config) : (Lexer.new config).Coherent where
  states_pos := Nat.one_pos
  located := .new config
  productions i s hs p hp := by
    obtain rfl := eq_new_of_getElem? hs
    exact absurd hp List.not_mem_nil
  transitions i s hs t ht := by
    obtain rfl := eq_new_of_getElem? hs
    exact absurd ht List.not_mem_nil

theorem addLexicalState (h : lx.Coherent) (name : String) :
    (final (Lexer.addLexicalState name) lx).Coherent := by
  rw [final_addLexicalState]
  split
  · exact h
  · next hname =>
    have hlocated := h.located.push (Option.not_isSome_iff_eq_none.mp hname)
    -- a lexical state is an old one or the new one, which has a new name and nothing else
    have hcases : ∀ (i : Nat) (s : LexicalState),
        (lx.states.push (.new name false))[i]? = some s →
          lx.states[i]? = some s ∨ i = lx.states.size ∧ s = .new name false := by
      intro i s hs
      rw [Array.getElem?_push] at hs
      split at hs
      · next hi => exact .inr ⟨hi, (Option.some.inj hs).symm⟩
      · exact .inl hs
    refine ⟨by rw [Array.size_push]; exact Nat.succ_pos _, hlocated, ?_, ?_⟩
    · intro i s hs p hp
      rcases hcases i s hs with hs | ⟨-, rfl⟩
      · exact h.productions i s hs p hp
      · exact absurd hp List.not_mem_nil
    · intro i s hs t ht
      rcases hcases i s hs with hs | ⟨-, rfl⟩
      · obtain ⟨j, u, hu, hname⟩ := h.located.isSome_iff.mp (h.transitions i s hs t ht)
        obtain ⟨hj, rfl⟩ := Array.getElem?_eq_some_iff.mp hu
        exact hlocated.isSome_iff.mpr ⟨j, _, Array.getElem?_push_lt hj, hname⟩
      · exact absurd ht List.not_mem_nil

theorem addTokenProduction (h : lx.Coherent) (p : TokenProduction) :
    (final (Lexer.addTokenProduction p) lx).Coherent := by
  refine keeps_addTokenProduction (P := Coherent) p h ?_ ?_
  · intro lx targets image token ignoreCase h
    exact h.amends (amends_of_claimLiteral (f := id) (fun s => ⟨s.implicitLiterals, rfl⟩) rfl rfl
      rfl)
  · intro lx targets h
    refine h.amends (amends_of_modifyStates (f := (·.addProduction p)) (fun _ => rfl)
      (fun _ => rfl) ?_ rfl rfl fun q hq => List.mem_append_left _ hq)
    intro s q hq
    rcases List.mem_append.mp hq with hq | hq
    · exact .inl hq
    · exact .inr (List.mem_append_right _ hq)

theorem addImplicitLiteral (h : lx.Coherent) (state image : String) :
    (final (Lexer.addImplicitLiteral state image) lx).Coherent := by
  obtain heq | heq := @final_addImplicitLiteral lx state image <;> rw [heq]
  · exact h
  · exact h.amends (amends_of_claimLiteral (fun s => s.addImplicitLiteral_eq lx.registry.size)
      rfl rfl rfl)

theorem build (h : lx.Coherent) : (final Lexer.build lx).Coherent := by
  rcases final_build lx with heq | ⟨hchecked, hstates, hpositions, hproductions⟩
  · rw [heq]
    exact h
  · exact h.amends (amends_of_processAll h hchecked hstates hpositions hproductions)

end Coherent

/-- Every lexer that commands make is coherent. -/
theorem Reachable.coherent (h : lx.Reachable) : lx.Coherent := by
  induction h with
  | new config => exact .new config
  | run _ c ih =>
      cases c with
      | addLexicalState name => exact ih.addLexicalState name
      | addDefinition d => exact ⟨ih.states_pos, ih.located, ih.productions, ih.transitions⟩
      | addTokenProduction p => exact ih.addTokenProduction p
      | addImplicitLiteral state image => exact ih.addImplicitLiteral state image
      | setOverridden token => exact ⟨ih.states_pos, ih.located, ih.productions, ih.transitions⟩
      | ensureLabels u => exact ⟨ih.states_pos, ih.located, ih.productions, ih.transitions⟩
      | build => exact ih.build

end Lexer

end ScannerTables
