import ScannerTables.Proofs.Arrangement
import ScannerTables.Proofs.History
/-!
# How lexers evolve

A command changes the lexical states of a lexer step by step, and `LexicalState.Step` lists the
steps. `Command.evolves` goes through the commands: each lexical state is new or has come by steps
from the one that stood at its place. What is shown for a new lexical state and for a step therefore
holds in every lexer, by `Reachable.forall_state`; so does `Accounted`, which says that whatever an
automaton was built for, and whatever is switched on, counts as built.

`Command.registers` goes through the commands once more for the definitions: a command adds one, or
revises those that are there without touching patterns or ordinals.
-/

namespace ScannerTables

open Checked

namespace LexicalState

variable {s s' : LexicalState} {r : TokenRegistry} {config : Config}

/-! ### Steps -/

/-- A change that a command makes to a lexical state. -/
inductive Step (r : TokenRegistry) (config : Config) (s : LexicalState) : LexicalState → Prop
  | addProduction (p : TokenProduction) : Step r config s (s.addProduction p)
  | addImplicitLiteral (token : Nat) : Step r config s (s.addImplicitLiteral token)
  | claimLiteral (image : String) (token : Nat) (ignoreCase : Bool) :
      Step r config s (s.claimLiteral image token ignoreCase).2
  | process : Step r config s (final (process r config) s)

/-- Any number of changes, all with one registry. -/
abbrev Evolves (s : LexicalState) (r : TokenRegistry) (config : Config) : LexicalState → Prop :=
  Relation.ReflTransGen (Step r config) s

/-- A step declares something, which leaves alone all that was built, or it processes. -/
theorem Step.cases (h : Step r config s s') :
    (∃ productions implicitLiterals exactLiterals foldedLiterals, s' =
      { s with productions, implicitLiterals, exactLiterals, foldedLiterals }) ∨
    s' = final (LexicalState.process r config) s := by
  cases h with
  | addProduction p => exact .inl ⟨_, _, _, _, rfl⟩
  | addImplicitLiteral token =>
      obtain ⟨tokens, heq⟩ := s.addImplicitLiteral_eq token
      exact .inl ⟨_, _, _, _, heq⟩
  | claimLiteral image token ignoreCase =>
      obtain ⟨exact, folded, heq⟩ := s.claimLiteral_eq image token ignoreCase
      exact .inl ⟨_, _, _, _, heq⟩
  | process => exact .inr rfl

theorem Step.called (h : Step r config s s') (hs : s.Called) : s'.Called := by
  cases h with
  | addProduction p => exact hs.addProduction p
  | addImplicitLiteral token => exact hs.addImplicitLiteral token
  | claimLiteral image token ignoreCase => exact hs.claimLiteral image token ignoreCase
  | process => exact hs.process r config

theorem Step.name_eq (h : Step r config s s') : s'.name = s.name := by
  rcases h.cases with ⟨_, _, _, _, rfl⟩ | rfl
  · rfl
  · exact records_process.name_eq

theorem Evolves.name_eq (h : s.Evolves r config s') : s'.name = s.name := by
  induction h with
  | refl => rfl
  | tail _ hlast ih => exact hlast.name_eq.trans ih

/-- What each step keeps, any number of steps keeps. -/
theorem Evolves.keeps {P : LexicalState → Prop} (h : s.Evolves r config s') (hs : s.Called)
    (hstep : ∀ s s', s.Called → Step r config s s' → P s → P s') (hP : P s) : s'.Called ∧ P s' := by
  induction h with
  | refl => exact ⟨hs, hP⟩
  | tail _ hlast ih => exact ⟨hlast.called ih.1, hstep _ _ ih.1 hlast ih.2⟩

end LexicalState

namespace Lexer

variable {lx lx' lx'' : Lexer} {r : TokenRegistry} {config : Config} {i : Nat}
variable {s s' : LexicalState}

/-- Every lexical state has come by steps from the one that stood at its place. -/
structure Evolves (lx : Lexer) (r : TokenRegistry) (config : Config) (lx' : Lexer) : Prop where
  size_eq : lx'.states.size = lx.states.size
  state : ∀ (i : Nat) (s' : LexicalState), lx'.states[i]? = some s' →
    ∃ s, lx.states[i]? = some s ∧ s.Evolves r config s'

theorem Evolves.refl : lx.Evolves r config lx := ⟨rfl, fun _ s hs => ⟨s, hs, .refl⟩⟩

theorem Evolves.trans (h : lx.Evolves r config lx') (h' : lx'.Evolves r config lx'') :
    lx.Evolves r config lx'' where
  size_eq := h'.size_eq.trans h.size_eq
  state i s'' hs'' := by
    obtain ⟨s', hs', hlast⟩ := h'.state i s'' hs''
    obtain ⟨s, hs, hfirst⟩ := h.state i s' hs'
    exact ⟨s, hs, hfirst.trans hlast⟩

theorem evolves_of_modifyStates {targets : List Nat} {f : LexicalState → LexicalState}
    (hf : ∀ s : LexicalState, s.Evolves r config (f s))
    (hstates : lx'.states = (lx.modifyStates targets f).states) : lx.Evolves r config lx' where
  size_eq := by rw [hstates, size_modifyStates]
  state i s' hs' := by
    rw [hstates] at hs'
    exact exists_of_modifyStates (P := fun s s' => s.Evolves r config s') (fun _ => .refl)
      (fun s _ h => (hf s).trans h) hs'

theorem evolves_addTokenProduction (p : TokenProduction) :
    lx.Evolves r config (final (addTokenProduction p) lx) := by
  refine keeps_addTokenProduction (P := lx.Evolves r config) p .refl ?_ ?_
  · intro lx' targets image token ignoreCase h
    exact h.trans (evolves_of_modifyStates
      (fun _ => .single (.claimLiteral image token ignoreCase)) rfl)
  · intro lx' targets h
    exact h.trans (evolves_of_modifyStates (fun _ => .single (.addProduction p)) rfl)

theorem evolves_addImplicitLiteral (state image : String) :
    lx.Evolves r config (final (addImplicitLiteral state image) lx) := by
  obtain heq | heq := @final_addImplicitLiteral lx state image <;> rw [heq]
  · exact .refl
  · refine evolves_of_modifyStates (fun s => ?_) rfl
    exact .trans (.single (.claimLiteral image lx.registry.size lx.config.ignoreCase))
      (.single (.addImplicitLiteral lx.registry.size))

theorem evolves_build : lx.Evolves lx.registry lx.config (final build lx) := by
  rcases final_build lx with heq | ⟨-, hstates, -⟩
  · rw [heq]
    exact .refl
  · have hall := forall₂_processAll lx.registry lx.config lx.states.toList
    refine ⟨?_, fun i s' hs' => ?_⟩
    · rw [hstates, List.size_toArray, ← hall.length_eq, Array.length_toList]
    · rw [hstates, List.getElem?_toArray] at hs'
      obtain ⟨hlt, rfl⟩ := List.getElem?_eq_some_iff.mp hs'
      have hlt' : i < lx.states.toList.length := hall.length_eq ▸ hlt
      refine ⟨lx.states.toList[i], ?_, ?_⟩
      · rw [← Array.getElem?_toList, List.getElem?_eq_getElem hlt']
      · rcases hall.get hlt' hlt with heq | heq <;> simp only [List.get_eq_getElem] at heq <;>
          rw [heq]
        exact .single .process

/-- A command declares one more lexical state, or all of them come by steps from those that were
there. -/
theorem Command.evolves (c : Command) (lx : Lexer) :
    (∃ name, (c.run lx).states = lx.states.push (.new name false)) ∨
      lx.Evolves lx.registry lx.config (c.run lx) := by
  cases c with
  | addLexicalState name =>
      rw [run, final_addLexicalState]
      split
      · exact .inr .refl
      · exact .inl ⟨name, rfl⟩
  | addDefinition d => exact .inr ⟨rfl, fun _ s hs => ⟨s, hs, .refl⟩⟩
  | addTokenProduction p => exact .inr (evolves_addTokenProduction p)
  | addImplicitLiteral state image => exact .inr (evolves_addImplicitLiteral state image)
  | setOverridden token => exact .inr ⟨rfl, fun _ s hs => ⟨s, hs, .refl⟩⟩
  | ensureLabels u => exact .inr ⟨rfl, fun _ s hs => ⟨s, hs, .refl⟩⟩
  | build => exact .inr evolves_build

/-- After a command, a lexical state is new or has come by steps from the one at its place. -/
theorem Command.state_cases (c : Command) (h : (c.run lx).states[i]? = some s') :
    (lx.states[i]? = none ∧ ∃ name, s' = .new name false) ∨
      ∃ s, lx.states[i]? = some s ∧ s.Evolves lx.registry lx.config s' := by
  rcases c.evolves lx with ⟨name, heq⟩ | hevolves
  · rw [heq, Array.getElem?_push] at h
    split at h
    · next hi => exact .inl ⟨by simp [hi], name, (Option.some.inj h).symm⟩
    · exact .inr ⟨s', h, .refl⟩
  · exact .inr (hevolves.state i s' h)

/-- A lexical state that is there goes on by steps. -/
theorem Command.exists_state (c : Command) (h : lx.states[i]? = some s) :
    ∃ s', (c.run lx).states[i]? = some s' ∧ s.Evolves lx.registry lx.config s' := by
  obtain ⟨hi, -⟩ := Array.getElem?_eq_some_iff.mp h
  have hi' : i < (c.run lx).states.size := by
    rcases c.evolves lx with ⟨name, heq⟩ | hevolves
    · rw [heq, Array.size_push]
      exact Nat.lt_succ_of_lt hi
    · rwa [hevolves.size_eq]
  have hs' := Array.getElem?_eq_getElem hi'
  refine ⟨_, hs', ?_⟩
  rcases c.state_cases hs' with ⟨hnone, -⟩ | ⟨s₀, hs₀, hevolves⟩
  · exact absurd (h.symm.trans hnone) (Option.some_ne_none s)
  · obtain rfl := Option.some.inj (h.symm.trans hs₀)
    exact hevolves

/-- What holds of new lexical states and is kept by steps holds of the lexical states of every
lexer. -/
theorem Reachable.forall_state {P : LexicalState → Prop} (h : lx.Reachable)
    (hnew : ∀ name isDefault, P (.new name isDefault))
    (hstep : ∀ (r : TokenRegistry) (config : Config) (s s' : LexicalState), s.Called →
      LexicalState.Step r config s s' → P s → P s')
    (hs : lx.states[i]? = some s) : s.Called ∧ P s := by
  induction h generalizing s with
  | new config =>
      obtain rfl := eq_new_of_getElem? hs
      exact ⟨.new _ true, hnew _ true⟩
  | run _ c ih =>
      rcases c.state_cases hs with ⟨-, name, rfl⟩ | ⟨s₀, hs₀, hevolves⟩
      · exact ⟨.new name false, hnew name false⟩
      · obtain ⟨hcalled, hP⟩ := ih hs₀
        exact hevolves.keeps hcalled (fun s s' => hstep _ _ s s') hP

theorem Reachable.called (h : lx.Reachable) (hs : lx.states[i]? = some s) : s.Called :=
  (h.forall_state (P := fun _ => True) (fun _ _ => trivial) (fun _ _ _ _ _ _ _ => trivial) hs).1

end Lexer

/-! ### What counts as built -/

/-- However far the building of a token comes, the new states belong to the token, and the others
to the token that they belonged to. -/
theorem Build.token_of_final {a : Automaton} (r : TokenRegistry) (token : Nat) (ignoreCase : Bool)
    (initial : Nat) (hi : initial < a.size) :
    a.size ≤ (final (Build.token r token ignoreCase initial) a).size ∧
      ∀ i t, (final (Build.token r token ignoreCase initial) a).state? i = some t →
        (∃ t₀, a.state? i = some t₀ ∧ t.token = t₀.token) ∨ t.token = some token := by
  rw [final]
  cases hb : Build.token r token ignoreCase initial a with
  | error e a' =>
      obtain ⟨-, hext⟩ := (wp_token hi).of_error hb
      refine ⟨hext.size_le, fun i t ht => ?_⟩
      by_cases hlt : i < a.size
      · exact .inl ⟨t, hext.state_below i hlt ▸ ht, rfl⟩
      · exact .inr (hext.placed i t (Nat.le_of_not_lt hlt) ht).token_eq
  | ok f a' =>
      obtain ⟨d, -, hinstalled⟩ := (wp_token hi).of_ok hb
      refine ⟨hinstalled.size_le, fun i t ht => ?_⟩
      by_cases hlt : i < a.size
      · by_cases hinitial : i = initial
        · -- the initial state gets a move and keeps the rest
          obtain ⟨t₀, ht₀, heq⟩ := hinstalled.state_initial
          subst hinitial
          obtain rfl := Option.some.inj (heq.symm.trans ht)
          exact .inl ⟨t₀, ht₀, rfl⟩
        · exact .inl ⟨t, hinstalled.state_ne i hlt hinitial ▸ ht, rfl⟩
      · exact .inr (hinstalled.placed i t (Nat.le_of_not_lt hlt) ht).token_eq

namespace LexicalState

variable {s s' : LexicalState} {r : TokenRegistry} {config : Config}

/-- Whatever the automaton was built for, and whatever is switched on, counts as built. -/
structure Accounted (s : LexicalState) : Prop where
  size_pos : 0 < s.automaton.size
  mem_of_token : ∀ i t, s.automaton.state? i = some t → ∀ token ∈ t.token, token ∈ s.built
  mem_of_switch : ∀ u ∈ s.transitions, u.1 ∈ s.built

namespace Accounted

theorem new (name : String) (isDefault : Bool) : (LexicalState.new name isDefault).Accounted where
  size_pos := Nat.one_pos
  mem_of_token i t ht token htoken := by
    have hlt := Automaton.lt_size ht
    obtain rfl : i = 0 := Nat.lt_one_iff.mp hlt
    obtain rfl := Option.some.inj ht
    exact absurd htoken (Option.not_mem_none token)
  mem_of_switch u hu := absurd hu List.not_mem_nil

theorem runStep (h : s.Accounted) (step : BuildStep) : (final (runStep r step) s).Accounted := by
  cases step with
  | unknown ordinal => exact h
  | token ordinal ignoreCase switch =>
      have hold : ∀ token, token ∈ s.built → token ∈ s.built.insert ordinal :=
        fun token htoken => IntervalSet.mem_insert.mpr (.inr htoken)
      have hself : ordinal ∈ s.built.insert ordinal := IntervalSet.mem_insert.mpr (.inl rfl)
      obtain ⟨hsize, htokens⟩ := Build.token_of_final r ordinal ignoreCase initialState h.size_pos
      have hmem : ∀ i t, (final (Build.token r ordinal ignoreCase initialState)
          s.automaton).state? i = some t → ∀ token ∈ t.token, token ∈ s.built.insert ordinal := by
        intro i t ht token htoken
        rcases htokens i t ht with ⟨t₀, ht₀, heq⟩ | heq <;> rw [heq] at htoken
        · exact hold token (h.mem_of_token i t₀ ht₀ token htoken)
        · exact Option.mem_some.mp htoken ▸ hself
      have hswitch : ∀ u ∈ s.transitions, u.1 ∈ s.built.insert ordinal :=
        fun u hu => hold _ (h.mem_of_switch u hu)
      rw [final, LexicalState.runStep]
      rw [final] at hsize hmem
      dsimp only
      cases hb : Build.token r ordinal ignoreCase initialState s.automaton with
      | error e automaton =>
          rw [hb] at hsize hmem
          exact ⟨Nat.lt_of_lt_of_le h.size_pos hsize, hmem, hswitch⟩
      | ok f automaton =>
          rw [hb] at hsize hmem
          refine ⟨Nat.lt_of_lt_of_le h.size_pos hsize, hmem, fun u hu => ?_⟩
          rcases List.mem_append.mp hu with hu | hu
          · exact hswitch u hu
          · obtain ⟨name, -, rfl⟩ := List.mem_map.mp hu
            exact hself

theorem generate (h : s.Accounted) (hgen : s.generate = .ok s') : s'.Accounted := by
  have hcloses := (generates_of_generate hgen).closes
  obtain ⟨automaton, composites, d, rfl⟩ := exists_eq_of_generate hgen
  refine ⟨hcloses.size_eq ▸ h.size_pos, ?_, h.mem_of_switch⟩
  intro i t' ht' token htoken
  obtain ⟨t, ht⟩ := Automaton.exists_state? (hcloses.size_eq ▸ Automaton.lt_size ht')
  exact h.mem_of_token i t ht token ((hcloses.state i t t' ht ht').token_eq ▸ htoken)

theorem process (h : s.Accounted) : (final (LexicalState.process r config) s).Accounted :=
  keeps_process h (fun step _ _ ht => ht.runStep step)
    (fun _ ht => ⟨ht.size_pos, ht.mem_of_token, ht.mem_of_switch⟩)
    fun _ _ hgen ht => ht.generate hgen

theorem step (h : s.Accounted) (hstep : Step r config s s') : s'.Accounted := by
  rcases hstep.cases with ⟨_, _, _, _, rfl⟩ | rfl
  · exact ⟨h.size_pos, h.mem_of_token, h.mem_of_switch⟩
  · exact h.process

end Accounted

end LexicalState

/-! ### What commands change of definitions -/

/-- The same definitions but for labels, for marks as overridden, which are never taken back, and
for the targets of tokens that were settled. -/
structure TokenRegistry.Revises (r r' : TokenRegistry) (settled : Nat → Prop) : Prop where
  size_eq : r'.size = r.size
  definition : ∀ token d, r.get? token = some d → ∃ d', r'.get? token = some d' ∧
    (∃ label overridden newLexicalState, d' = { d with label, overridden, newLexicalState }) ∧
    (d.overridden = true → d'.overridden = true) ∧
    (d'.newLexicalState = d.newLexicalState ∨ settled token)

namespace TokenRegistry

variable {r r' r'' : TokenRegistry} {settled : Nat → Prop} {token : Nat}

theorem get?_isSome : (r.get? token).isSome ↔ token < r.size := by
  rw [get?, isSome_getElem?]
  rfl

theorem size_register {d : TokenDefinition} : (r.register d).size = r.size + 1 := Array.size_push _

namespace Revises

theorem refl : r.Revises r settled where
  size_eq := rfl
  definition _ d hd := ⟨d, hd, ⟨_, _, _, rfl⟩, id, .inl rfl⟩

theorem trans (h : r.Revises r' settled) (h' : r'.Revises r'' settled) : r.Revises r'' settled where
  size_eq := h'.size_eq.trans h.size_eq
  definition token d hd := by
    obtain ⟨d', hd', ⟨_, _, _, rfl⟩, hover, htarget⟩ := h.definition token d hd
    obtain ⟨d'', hd'', ⟨_, _, _, rfl⟩, hover', htarget'⟩ := h'.definition token _ hd'
    refine ⟨_, hd'', ⟨_, _, _, rfl⟩, hover' ∘ hover, ?_⟩
    rcases htarget' with heq | hsettled
    · exact htarget.imp_left heq.trans
    · exact .inr hsettled

/-- What was not there is not there. -/
theorem exists_definition (h : r.Revises r' settled) {d' : TokenDefinition}
    (hd' : r'.get? token = some d') : ∃ d, r.get? token = some d ∧
      (∃ label overridden newLexicalState, d' = { d with label, overridden, newLexicalState }) ∧
      (d'.newLexicalState = d.newLexicalState ∨ settled token) := by
  have hlt : token < r.size := h.size_eq ▸ get?_isSome.mp (Option.isSome_of_eq_some hd')
  obtain ⟨d, hd⟩ := Option.isSome_iff_exists.mp (get?_isSome.mpr hlt)
  obtain ⟨d'', hd'', hrest, -, htarget⟩ := h.definition token d hd
  obtain rfl := Option.some.inj (hd'.symm.trans hd'')
  exact ⟨d, hd, hrest, htarget⟩

theorem modify {f : TokenDefinition → TokenDefinition} {labels : Claims}
    (hf : ∀ d, ∃ label overridden, f d = { d with label, overridden } ∧
      (d.overridden = true → overridden = true)) :
    r.Revises { r.modify token f with labels := labels } settled where
  size_eq := Array.size_modify
  definition token' d hd := by
    obtain ⟨label, overridden, heq, hover⟩ := hf d
    rw [get?] at hd
    rw [get?, TokenRegistry.modify, Array.getElem?_modify, hd]
    split
    · refine ⟨f d, rfl, ⟨label, overridden, d.newLexicalState, heq⟩, ?_, .inl ?_⟩
      · rwa [heq]
      · rw [heq]
    · exact ⟨d, rfl, ⟨_, _, _, rfl⟩, id, .inl rfl⟩

theorem relabel (token : Nat) (label : String) : r.Revises (r.relabel token label) settled := by
  rw [TokenRegistry.relabel]
  split
  · exact .refl
  · exact .modify fun d => ⟨some label, d.overridden, rfl, id⟩

theorem ensureLabels {u : IdentifierClasses} : r.Revises (r.ensureLabels u) settled := by
  rw [TokenRegistry.ensureLabels]
  generalize newLabels u _ _ = labels
  induction labels generalizing r with
  | nil => exact .refl
  | cons entry labels ih => exact (relabel entry.1 entry.2).trans ih

end Revises

end TokenRegistry

namespace Lexer

variable {lx lx' : Lexer}

/-! ### Targets -/

section

variable {token : Nat} {target : String} {targets : List (Nat × Option String)}

/-- What is noted of a token with another switch for it. -/
def settle (noted : Option (Option String)) (target : String) : Option (Option String) :=
  match noted with
  | none => some (some target)
  | some noted => some (if noted ≠ some target then none else noted)

theorem lookup_map_value {α : Type} (f : Nat → α → α) (entries : List (Nat × α)) :
    (entries.map fun entry => (entry.1, f entry.1 entry.2)).lookup token =
      (entries.lookup token).map (f token) := by
  induction entries with
  | nil => rfl
  | cons entry entries ih =>
      rw [List.map_cons, List.lookup_cons, List.lookup_cons, ih]
      by_cases h : token = entry.1
      · subst h
        simp
      · simp [beq_eq_false_iff_ne.mpr h]

theorem lookup_noteSwitch (switch : Nat × String) : (noteSwitch targets switch).lookup token =
    if switch.1 = token then settle (targets.lookup token) switch.2
    else targets.lookup token := by
  rw [noteSwitch]
  split
  · next hnone =>
    rw [List.lookup_append, List.lookup_cons, List.lookup_nil]
    by_cases h : switch.1 = token
    · rw [if_pos h, ← h, hnone, beq_self_eq_true]
      rfl
    · rw [if_neg h, beq_eq_false_iff_ne.mpr (Ne.symm h)]
      exact Option.or_none
  · next noted hnoted =>
    rw [lookup_map_value fun t o => if t = switch.1 ∧ o ≠ some switch.2 then none else o]
    by_cases h : switch.1 = token
    · subst h
      simp only [if_true, hnoted, Option.map_some, settle, true_and]
    · simp only [if_neg h, Ne.symm h, false_and, if_false, Option.map_id']

/-- The targets of a token are noted one after the other. -/
theorem lookup_foldl_noteSwitch (switches : List (Nat × String)) :
    (switches.foldl noteSwitch targets).lookup token =
      ((switches.filter (·.1 = token)).map (·.2)).foldl settle (targets.lookup token) := by
  induction switches generalizing targets with
  | nil => rfl
  | cons switch switches ih =>
      rw [List.foldl_cons, ih, lookup_noteSwitch]
      by_cases h : switch.1 = token
      · rw [if_pos h, List.filter_cons, if_pos (decide_eq_true h), List.map_cons, List.foldl_cons]
      · rw [if_neg h, List.filter_cons, if_neg (by simpa using h)]

/-- Once nothing is kept of a token, nothing will be. -/
theorem foldl_settle_none (names : List String) : names.foldl settle (some none) = some none := by
  induction names with
  | nil => rfl
  | cons name names ih => rw [List.foldl_cons, settle, if_pos (Option.some_ne_none name).symm, ih]

/-- A target is kept exactly if all others are the same. -/
theorem foldl_settle (target : String) (others : List String) :
    others.foldl settle (some (some target)) =
      some (if others.all (· == target) then some target else none) := by
  induction others with
  | nil => rfl
  | cons name others ih =>
      rw [List.foldl_cons, settle, List.all_cons]
      by_cases h : name = target
      · rw [if_neg (by simp [h]), ih, h, beq_self_eq_true, Bool.true_and]
      · rw [if_pos (by simpa using Ne.symm h), foldl_settle_none, beq_eq_false_iff_ne.mpr h]
        rfl

theorem nodup_noteSwitch (h : (targets.map Prod.fst).Nodup) (switch : Nat × String) :
    ((noteSwitch targets switch).map Prod.fst).Nodup := by
  rw [noteSwitch]
  split
  · next hnone =>
    rw [List.map_append, List.map_singleton]
    refine List.nodup_append.mpr ⟨h, List.nodup_singleton _, fun token htoken t ht => ?_⟩
    obtain ⟨entry, hentry, rfl⟩ := List.mem_map.mp htoken
    have hne := List.lookup_eq_none_iff.mp hnone entry hentry
    rw [List.mem_singleton.mp ht]
    exact fun heq => by simp [heq] at hne
  · rw [List.map_map]
    exact h

theorem nodup_foldl_noteSwitch (h : (targets.map Prod.fst).Nodup)
    (switches : List (Nat × String)) :
    ((switches.foldl noteSwitch targets).map Prod.fst).Nodup := by
  induction switches generalizing targets with
  | nil => exact h
  | cons switch switches ih => exact ih (nodup_noteSwitch h switch)

/-- Writing entries to definitions, no token twice, changes each definition as its entry says. -/
theorem get?_foldl_modify (h : (targets.map Prod.fst).Nodup) (r : TokenRegistry) :
    (targets.foldl (fun r entry => r.modify entry.1 fun d => { d with newLexicalState := entry.2 })
      r).get? token = (r.get? token).map fun d =>
        { d with newLexicalState := (targets.lookup token).getD d.newLexicalState } := by
  induction targets generalizing r with
  | nil => exact Option.map_id'.symm
  | cons entry targets ih =>
      rw [List.map_cons, List.nodup_cons] at h
      rw [List.foldl_cons, ih h.2, List.lookup_cons, TokenRegistry.get?, TokenRegistry.modify,
        Array.getElem?_modify, TokenRegistry.get?]
      by_cases heq : entry.1 = token
      · have hnone : targets.lookup token = none := by
          refine List.lookup_eq_none_iff.mpr fun other hother => ?_
          have hne : token ≠ other.1 := fun ht =>
            h.1 (heq ▸ ht ▸ List.mem_map_of_mem hother)
          simpa using hne
        rw [if_pos heq, hnone, ← heq, beq_self_eq_true, Option.map_map]
        rfl
      · rw [if_neg heq, beq_eq_false_iff_ne.mpr (Ne.symm heq)]

end

/-- The targets that the lexical states have for a token, in order. -/
def targetsOf (lx : Lexer) (token : Nat) : List String :=
  (lx.transitions.filter (·.1 = token)).map (·.2)

theorem targetsOf_congr (h : lx'.states = lx.states) : lx'.targetsOf = lx.targetsOf := by
  funext token
  rw [targetsOf, targetsOf, transitions, transitions, h]

/-- What is recorded for a token: the first target that the lexical states have for it, if all the
others are the same, and no target if they differ. -/
theorem get?_recordTargets (token : Nat) : lx.recordTargets.get? token =
    (lx.registry.get? token).map fun d => match lx.targetsOf token with
      | [] => d
      | target :: others =>
        { d with newLexicalState := if others.all (· == target) then some target else none } := by
  have hnodup : ((lx.transitions.foldl noteSwitch []).map Prod.fst).Nodup := by
    refine nodup_foldl_noteSwitch ?_ lx.transitions
    exact List.nodup_nil
  rw [recordTargets, get?_foldl_modify hnodup, lookup_foldl_noteSwitch, ← targetsOf]
  cases lx.targetsOf token with
  | nil => rfl
  | cons target others =>
      rw [List.lookup_nil, List.foldl_cons, settle, foldl_settle]
      rfl

theorem recordTargets_eq : ∃ definitions, definitions.size = lx.registry.definitions.size ∧
    lx.recordTargets = { lx.registry with definitions } := by
  rw [recordTargets]
  generalize lx.transitions.foldl noteSwitch [] = targets
  induction targets using List.reverseRecOn with
  | nil => exact ⟨_, rfl, rfl⟩
  | append_singleton targets entry ih =>
      obtain ⟨definitions, hsize, heq⟩ := ih
      rw [List.foldl_append, heq]
      exact ⟨_, Array.size_modify.trans hsize, rfl⟩

/-- Recording targets settles the tokens that are switched on. -/
theorem revises_recordTargets :
    lx.registry.Revises lx.recordTargets (lx.targetsOf · ≠ []) where
  size_eq := by
    obtain ⟨definitions, hsize, heq⟩ := lx.recordTargets_eq
    rw [heq]
    exact hsize
  definition token d hd := by
    rw [get?_recordTargets, hd, Option.map_some]
    refine ⟨_, rfl, ?_, ?_, ?_⟩ <;> cases lx.targetsOf token
    · exact ⟨_, _, _, rfl⟩
    · exact ⟨_, _, _, rfl⟩
    · exact id
    · exact id
    · exact .inl rfl
    · exact .inr (List.cons_ne_nil _ _)

theorem registry_addTokenProduction (p : TokenProduction) :
    (final (addTokenProduction p) lx).registry = lx.registry :=
  keeps_addTokenProduction (P := (·.registry = lx.registry)) p rfl (fun _ _ _ _ _ => id)
    fun _ _ => id

theorem registry_addImplicitLiteral (state image : String) :
    (final (addImplicitLiteral state image) lx).registry = lx.registry ∨
      (final (addImplicitLiteral state image) lx).registry =
        lx.registry.register (.ofLiteral image) := by
  obtain heq | heq := @final_addImplicitLiteral lx state image <;> rw [heq]
  · exact .inl rfl
  · exact .inr rfl

theorem registry_build : (final build lx).registry = lx.registry ∨ ∃ lx' : Lexer,
    lx'.registry = lx.registry ∧ lx'.states = (final build lx).states ∧
      (final build lx).registry = lx'.recordTargets := by
  rw [build, final_get_bind]
  cases lx.checkTargets with
  | error e => exact .inl rfl
  | ok u =>
      dsimp only
      rw [final_set_bind]
      cases (processAll lx.registry lx.config lx.states.toList).2 with
      | some e => exact .inl rfl
      | none =>
          let states := (processAll lx.registry lx.config lx.states.toList).1.toArray
          exact .inr ⟨{ lx with states }, rfl, rfl, rfl⟩

/-- The target that comes with the definition which a command adds. -/
def Command.target? : Command → Option String
  | .addDefinition d => d.newLexicalState
  | _ => none

/-- A command adds a definition, or it revises those that are there. -/
theorem Command.registers (c : Command) (lx : Lexer) :
    (∃ d, (c.run lx).registry = lx.registry.register d ∧ d.newLexicalState = c.target?) ∨
      c.target? = none ∧
        lx.registry.Revises (c.run lx).registry ((c.run lx).targetsOf · ≠ []) := by
  cases c with
  | addLexicalState name =>
      refine .inr ⟨rfl, ?_⟩
      rw [run, final_addLexicalState]
      split <;> exact .refl
  | addDefinition d => exact .inl ⟨d, rfl, rfl⟩
  | addTokenProduction p =>
      refine .inr ⟨rfl, ?_⟩
      rw [run, registry_addTokenProduction]
      exact .refl
  | addImplicitLiteral state image =>
      rcases @registry_addImplicitLiteral lx state image with heq | heq <;> rw [run, heq]
      · exact .inr ⟨rfl, .refl⟩
      · exact .inl ⟨_, rfl, rfl⟩
  | setOverridden token =>
      exact .inr ⟨rfl, .modify fun d => ⟨d.label, true, rfl, fun _ => rfl⟩⟩
  | ensureLabels u => exact .inr ⟨rfl, .ensureLabels⟩
  | build =>
      refine .inr ⟨rfl, ?_⟩
      rw [run]
      rcases @registry_build lx with heq | ⟨lx', hregistry, hstates, heq⟩ <;> rw [heq]
      · exact .refl
      · rw [← targetsOf_congr hstates, ← hregistry]
        exact revises_recordTargets

/-- What is registered under an ordinal bears it. -/
theorem Reachable.ordinal_eq (h : lx.Reachable) {token : Nat} {d : TokenDefinition}
    (hd : lx.registry.get? token = some d) : d.ordinal = token := by
  induction h generalizing d with
  | new config =>
      have hlt := TokenRegistry.get?_isSome.mp (Option.isSome_of_eq_some hd)
      obtain rfl : token = 0 := Nat.lt_one_iff.mp hlt
      obtain rfl := Option.some.inj hd
      rfl
  | run _ c ih =>
      rcases c.registers _ with ⟨d₀, heq, -⟩ | ⟨-, hrevises⟩
      · rw [heq, TokenRegistry.get?, TokenRegistry.register, Array.getElem?_push] at hd
        split at hd
        · next hsize =>
          obtain rfl := Option.some.inj hd
          exact hsize.symm
        · exact ih hd
      · obtain ⟨d₀, hd₀, ⟨_, _, _, rfl⟩, -⟩ := hrevises.exists_definition hd
        have hordinal := ih hd₀
        exact hordinal

end Lexer

theorem Lexer.Reachable.accounted {lx : Lexer} {i : Nat} {s : LexicalState} (h : lx.Reachable)
    (hs : lx.states[i]? = some s) : s.Accounted :=
  (h.forall_state .new (fun _ _ _ _ _ hstep hs => hs.step hstep) hs).2

end ScannerTables
