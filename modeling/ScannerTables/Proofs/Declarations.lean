import ScannerTables.Proofs.History
import ScannerTables.Proofs.Literals
import ScannerTables.Proofs.Recognition
/-!
# Lexers made by declarations

A grammar is declared by commands that succeed. Here is what each of them does to the lexical
states, and what follows for all lexers made that way: nothing is built of their lexical states,
whose literals are registered, a production is in every lexical state that it names, and an image
that was given as an implicit literal is known where it was given.
-/

namespace ScannerTables.Lexer

open Checked

variable {lx lx' : Lexer} {p : TokenProduction} {i : Nat} {s : LexicalState}

/-- True if a command is a declaration that succeeds. -/
def Command.declares (lx : Lexer) : Command → Bool
  | addLexicalState name => succeeds (Lexer.addLexicalState name) lx
  | addTokenProduction p => succeeds (Lexer.addTokenProduction p) lx
  | addImplicitLiteral state image => succeeds (Lexer.addImplicitLiteral state image) lx
  | addDefinition _ | setOverridden _ => true
  | ensureLabels _ | build => false

/-- The lexers that successful declarations make, with the declarations in their order. -/
inductive Declared : List Command → Lexer → Prop
  | new (config : Config) : Declared [] (new config)
  | run {commands : List Command} {lx : Lexer} (h : Declared commands lx) (c : Command)
      (hc : c.declares lx = true) : Declared (commands ++ [c]) (c.run lx)

theorem Declared.reachable {commands : List Command} (h : Declared commands lx) : lx.Reachable := by
  induction h with
  | new config => exact .new config
  | run _ c _ ih => exact ih.run c

/-! ### What a declaration does -/

section

variable {targets : List Nat} {f : LexicalState → LexicalState} {inherited : Bool}

/-- Lexical states at some positions with the literals of some entries claimed. -/
structure ClaimedAt (lx lx' : Lexer) (targets : List Nat) (inherited : Bool)
    (specs : List TokenSpec) : Prop where
  rest : ∃ states, lx' = { lx with states := states }
  size_eq : lx'.states.size = lx.states.size
  state : ∀ (i : Nat) (s : LexicalState), lx.states[i]? = some s →
    ∃ s', lx'.states[i]? = some s' ∧ (i ∉ targets → s' = s) ∧
      (i ∈ targets → s.Claimed s' lx.registry inherited specs)

theorem ClaimedAt.nil : lx.ClaimedAt lx targets inherited [] :=
  ⟨⟨_, rfl⟩, rfl, fun _ s hs => ⟨s, hs, fun _ => rfl, fun _ => .nil⟩⟩

theorem ClaimedAt.cons {lx₁ : Lexer} {spec : TokenSpec} {specs : List TokenSpec}
    (h : lx.ClaimedAt lx₁ targets inherited [spec])
    (h' : lx₁.ClaimedAt lx' targets inherited specs) :
    lx.ClaimedAt lx' targets inherited (spec :: specs) where
  rest := by
    obtain ⟨_, rfl⟩ := h.rest
    obtain ⟨states, rfl⟩ := h'.rest
    exact ⟨states, rfl⟩
  size_eq := h'.size_eq.trans h.size_eq
  state i s hs := by
    obtain ⟨t, ht, hsame, hclaimed⟩ := h.state i s hs
    obtain ⟨s', hs', hsame', hclaimed'⟩ := h'.state i t ht
    obtain ⟨_, rfl⟩ := h.rest
    exact ⟨s', hs', fun hi => (hsame' hi).trans (hsame hi),
      fun hi => (hclaimed hi).cons (hclaimed' hi)⟩

/-- An entry is accepted if its token is registered; its literal, if it has one, is claimed. -/
theorem claimSpec_eq_ok {spec : TokenSpec} (h : claimSpec inherited targets spec lx = .ok () lx') :
    ∃ d, lx.registry.get? spec.token = some d ∧ (d.image? = none ∧ lx' = lx ∨
      ∃ text, d.image? = some text ∧ lx' = lx.modifyStates targets fun s =>
        (s.claimLiteral text spec.token (d.ignoreCaseOr inherited)).2) := by
  rw [claimSpec, run_get_bind] at h
  cases hd : lx.registry.get? spec.token with
  | none =>
      rw [hd] at h
      exact absurd h run_throw_ne_ok
  | some d =>
      rw [hd] at h
      dsimp only at h
      cases htext : d.image? with
      | none =>
          rw [htext] at h
          exact ⟨d, rfl, .inl ⟨htext, (EStateM.Result.ok.inj h).2.symm⟩⟩
      | some text =>
          rw [htext] at h
          exact ⟨d, rfl, .inr ⟨text, htext, (EStateM.Result.ok.inj h).2.symm⟩⟩

/-- What makes no difference the second time is done once where it is done at all. -/
theorem iterate_count {f : LexicalState → LexicalState} (h : f (f s) = f s) :
    f^[targets.count i] s = if i ∈ targets then f s else s := by
  split
  · next hi =>
    obtain ⟨n, hn⟩ := Nat.exists_eq_succ_of_ne_zero (List.count_pos_iff.mpr hi).ne'
    rw [hn, Function.iterate_succ_apply, Function.iterate_fixed h]
  · next hi => rw [List.count_eq_zero_of_not_mem hi, Function.iterate_zero, id]

/-- The literal of one entry is claimed once, however often a lexical state is named. -/
theorem claimedAt_of_claimSpec {spec : TokenSpec}
    (h : claimSpec inherited targets spec lx = .ok () lx') :
    lx.ClaimedAt lx' targets inherited [spec] := by
  obtain ⟨d, hd, ⟨htext, rfl⟩ | ⟨text, htext, rfl⟩⟩ := claimSpec_eq_ok h
  · refine ⟨⟨_, rfl⟩, rfl, fun i s hs => ⟨s, hs, fun _ => rfl, ?_⟩⟩
    intro _
    apply LexicalState.Claimed.of_ne_literal hd
    intro text htext'
    rw [TokenDefinition.image?_eq_some.mpr htext'] at htext
    exact absurd htext (by simp)
  · refine ⟨⟨_, rfl⟩, size_modifyStates, ?_⟩
    intro i s hs
    refine ⟨_, by rw [getElem?_modifyStates, hs, Option.map_some], fun hi => ?_, fun hi => ?_⟩
    · rw [iterate_count LexicalState.claimLiteral_claimLiteral, if_neg hi]
    · rw [iterate_count LexicalState.claimLiteral_claimLiteral, if_pos hi]
      exact .of_claimLiteral hd (TokenDefinition.image?_eq_some.mp htext)

theorem claimedAt_of_forM {specs : List TokenSpec}
    (h : specs.forM (claimSpec inherited targets) lx = .ok () lx') :
    lx.ClaimedAt lx' targets inherited specs := by
  induction specs generalizing lx with
  | nil =>
      obtain ⟨-, rfl⟩ := EStateM.Result.ok.inj h
      exact .nil
  | cons spec specs ih =>
      obtain ⟨⟨⟩, lx₁, hspec, h⟩ := run_bind_eq_ok.mp h
      exact (claimedAt_of_claimSpec hspec).cons (ih h)

end

theorem iterate_addProduction (n : Nat) : (·.addProduction p)^[n] s =
    { s with productions := s.productions ++ List.replicate n p } := by
  induction n with
  | zero => simp
  | succ n ih =>
      rw [Function.iterate_succ_apply', ih, LexicalState.addProduction, List.replicate_succ',
        List.append_assoc]

/-- A production is added in two passes over its targets: its literals are claimed, and then it is
put behind the other productions. -/
theorem claims_of_addTokenProduction (h : addTokenProduction p lx = .ok () lx') :
    ∃ targets lx₁, lx.targets p = .ok targets ∧
      p.specs.forM (claimSpec (p.ignoreCase || lx.config.ignoreCase) targets) lx = .ok () lx₁ ∧
        lx' = { lx₁.modifyStates targets (·.addProduction p) with
          productions := lx₁.productions ++ [p] } := by
  rw [addTokenProduction, run_get_bind] at h
  cases htargets : lx.targets p with
  | error e =>
      rw [htargets] at h
      obtain ⟨_, _, hthrow, -⟩ := run_bind_eq_ok.mp h
      exact absurd hthrow run_throw_ne_ok
  | ok targets =>
      rw [htargets] at h
      obtain ⟨_, _, hpure, h⟩ := run_bind_eq_ok.mp h
      obtain ⟨rfl, rfl⟩ := EStateM.Result.ok.inj hpure
      obtain ⟨⟨⟩, lx₁, hspecs, h⟩ := run_bind_eq_ok.mp h
      obtain ⟨-, rfl⟩ := EStateM.Result.ok.inj h
      exact ⟨targets, lx₁, rfl, hspecs, rfl⟩

/-- A production that is added has its literals claimed at every position that it names, and stands
there as often as it names it; everything else is as it was. -/
theorem addTokenProduction_eq_ok (h : addTokenProduction p lx = .ok () lx') :
    ∃ targets, lx.targets p = .ok targets ∧ lx'.registry = lx.registry ∧ lx'.config = lx.config ∧
      lx'.states.size = lx.states.size ∧
        ∀ (i : Nat) (s : LexicalState), lx.states[i]? = some s →
          ∃ s', lx'.states[i]? = some s' ∧ (i ∉ targets → s' = s) ∧
            (i ∈ targets → ∃ t n,
              s.Claimed t lx.registry (p.ignoreCase || lx.config.ignoreCase) p.specs ∧
                s' = { t with productions := t.productions ++ List.replicate (n + 1) p }) := by
  obtain ⟨targets, lx₁, htargets, hspecs, rfl⟩ := claims_of_addTokenProduction h
  have hclaimed := claimedAt_of_forM hspecs
  obtain ⟨states, heq⟩ := hclaimed.rest
  refine ⟨targets, htargets, heq ▸ rfl, heq ▸ rfl, ?_, ?_⟩
  · exact size_modifyStates.trans hclaimed.size_eq
  · intro i s hs
    obtain ⟨t, ht, hsame, hclaim⟩ := hclaimed.state i s hs
    refine ⟨_, by rw [getElem?_modifyStates, ht]; rfl, fun hi => ?_, fun hi => ?_⟩
    · rw [List.count_eq_zero_of_not_mem hi, Function.iterate_zero, id, hsame hi]
    · obtain ⟨n, hn⟩ := Nat.exists_eq_succ_of_ne_zero (List.count_pos_iff.mpr hi).ne'
      exact ⟨t, n, hclaim hi, by rw [hn, iterate_addProduction]⟩

/-- An implicit literal that is known is left alone; another one is registered and claimed. -/
theorem addImplicitLiteral_eq_ok {state image : String} {token : Nat}
    (h : addImplicitLiteral state image lx = .ok token lx') :
    ∃ i s, lx.stateIndex? state = some i ∧ lx.states[i]? = some s ∧
      (s.lookupLiteral image = some token ∧ lx' = lx ∨
        s.lookupLiteral image = none ∧ lx' = { lx with
          registry := lx.registry.register (.ofLiteral image)
          states := lx.states.modify i fun s =>
            (s.claimLiteral image lx.registry.size lx.config.ignoreCase).2.addImplicitLiteral
              lx.registry.size }) := by
  cases hs : lx.state? state with
  | none =>
      rw [addImplicitLiteral_of_undeclared hs] at h
      exact absurd h error_ne_ok
  | some s =>
      obtain ⟨i, hi, hget⟩ := Option.bind_eq_some_iff.mp hs
      refine ⟨i, s, hi, hget, ?_⟩
      cases hlookup : s.lookupLiteral image with
      | some token' =>
          rw [addImplicitLiteral_of_known hs hlookup] at h
          obtain ⟨rfl, rfl⟩ := EStateM.Result.ok.inj h
          exact .inl ⟨rfl, rfl⟩
      | none =>
          rw [addImplicitLiteral_of_unknown hs hlookup, hi] at h
          obtain ⟨-, rfl⟩ := EStateM.Result.ok.inj h
          exact .inr ⟨rfl, rfl⟩

theorem config_run {c : Command} (hc : c.declares lx = true) : (c.run lx).config = lx.config := by
  cases c with
  | addLexicalState name =>
      rw [Command.run, final_addLexicalState]
      split <;> rfl
  | addDefinition d => rfl
  | setOverridden token => rfl
  | addTokenProduction p =>
      obtain ⟨⟨⟩, hok⟩ := eq_ok_of_succeeds hc
      obtain ⟨-, -, -, hconfig, -⟩ := addTokenProduction_eq_ok hok
      exact hconfig
  | addImplicitLiteral state image =>
      obtain ⟨token, hok⟩ := eq_ok_of_succeeds hc
      rw [Command.run]
      obtain ⟨_, _, -, -, ⟨-, heq⟩ | ⟨-, heq⟩⟩ := addImplicitLiteral_eq_ok hok <;> rw [heq]
  | ensureLabels u => exact absurd hc Bool.false_ne_true
  | build => exact absurd hc Bool.false_ne_true

/-! ### What declarations keep -/

theorem unbuilt_addImplicitLiteral {image : String} {token : Nat} {ignoreCase : Bool}
    (h : s.Unbuilt) :
    ((s.claimLiteral image token ignoreCase).2.addImplicitLiteral token).Unbuilt := by
  obtain ⟨exact, folded, hclaim⟩ := s.claimLiteral_eq image token ignoreCase
  obtain ⟨tokens, heq⟩ := (s.claimLiteral image token ignoreCase).2.addImplicitLiteral_eq token
  rw [heq, hclaim]
  exact ⟨h.automaton_eq, h.dispatch_eq⟩

/-- Nothing is built of the lexical states, and their literals are registered. -/
def Registered (lx : Lexer) : Prop := ∀ (i : Nat) (s : LexicalState), lx.states[i]? = some s →
  s.Unbuilt ∧ s.Registered lx.registry lx.config

namespace Registered

theorem new (config : Config) : (Lexer.new config).Registered := by
  intro i s hs
  obtain rfl := eq_new_of_getElem? hs
  exact ⟨⟨rfl, rfl⟩, .new _ _⟩

theorem addLexicalState (h : lx.Registered) (name : String) :
    (final (Lexer.addLexicalState name) lx).Registered := by
  rw [final_addLexicalState]
  split
  · exact h
  · intro i s hs
    rw [Array.getElem?_push] at hs
    split at hs
    · obtain rfl := Option.some.inj hs
      exact ⟨⟨rfl, rfl⟩, .new _ _⟩
    · exact h i s hs

theorem keeps (h : lx.Registered) {r : TokenRegistry} (hr : lx.registry.Keeps r) :
    Registered { lx with registry := r } :=
  fun i s hs => ⟨(h i s hs).1, (h i s hs).2.keeps hr⟩

theorem addTokenProduction (h : lx.Registered) (hok : addTokenProduction p lx = .ok () lx') :
    lx'.Registered := by
  obtain ⟨targets, -, hregistry, hconfig, hsize, hstate⟩ := addTokenProduction_eq_ok hok
  intro i s' hs'
  obtain ⟨hi, -⟩ := Array.getElem?_eq_some_iff.mp hs'
  have hs := Array.getElem?_eq_getElem (hsize ▸ hi : i < lx.states.size)
  obtain ⟨s'', hs'', hsame, hclaimed⟩ := hstate i _ hs
  obtain rfl := Option.some.inj (hs'.symm.trans hs'')
  obtain ⟨hunbuilt, hregistered⟩ := h i _ hs
  rw [hregistry, hconfig]
  by_cases htarget : i ∈ targets
  · obtain ⟨t, n, hclaim, rfl⟩ := hclaimed htarget
    refine ⟨?_, hregistered.addProductions hclaim n⟩
    obtain ⟨_, _, rfl⟩ := hclaim.rest
    exact ⟨hunbuilt.automaton_eq, hunbuilt.dispatch_eq⟩
  · obtain rfl := hsame htarget
    exact ⟨hunbuilt, hregistered⟩

theorem addImplicitLiteral (h : lx.Registered) {state image : String} {token : Nat}
    (hok : addImplicitLiteral state image lx = .ok token lx') : lx'.Registered := by
  obtain ⟨j, t, -, -, ⟨-, rfl⟩ | ⟨-, rfl⟩⟩ := addImplicitLiteral_eq_ok hok
  · exact h
  · intro i s' hs'
    rw [Array.getElem?_modify] at hs'
    split at hs'
    · obtain ⟨s, hs, rfl⟩ := Option.map_eq_some_iff.mp hs'
      exact ⟨unbuilt_addImplicitLiteral (h i s hs).1, (h i s hs).2.addImplicitLiteral image⟩
    · exact ⟨(h i s' hs').1, (h i s' hs').2.keeps TokenRegistry.keeps_register⟩

end Registered

theorem Declared.registered {commands : List Command} (h : Declared commands lx) :
    lx.Registered := by
  induction h with
  | new config => exact .new config
  | run _ c hc ih =>
      cases c with
      | addLexicalState name => exact ih.addLexicalState name
      | addDefinition d => exact ih.keeps TokenRegistry.keeps_register
      | setOverridden token =>
          exact ih.keeps (TokenRegistry.keeps_modify (fun _ => rfl) (fun _ => rfl) fun _ => rfl)
      | addTokenProduction p =>
          obtain ⟨⟨⟩, hok⟩ := eq_ok_of_succeeds hc
          exact ih.addTokenProduction hok
      | addImplicitLiteral state image =>
          obtain ⟨token, hok⟩ := eq_ok_of_succeeds hc
          exact ih.addImplicitLiteral hok
      | ensureLabels u => exact absurd hc Bool.false_ne_true
      | build => exact absurd hc Bool.false_ne_true

/-! ### Declarations stay -/

/-- A lexical state with more declarations: productions stay, and so do owners. -/
structure Grows (s s' : LexicalState) : Prop where
  name_eq : s'.name = s.name
  productions : ∀ p ∈ s.productions, p ∈ s'.productions
  owner : ∀ image ignoreCase owner, s.literalOwner? image ignoreCase = some owner →
    s'.literalOwner? image ignoreCase = some owner

theorem Grows.refl : Grows s s := ⟨rfl, fun _ => id, fun _ _ _ => id⟩

theorem grows_addProductions {t : LexicalState} {r : TokenRegistry} {inherited : Bool}
    (h : s.Claimed t r inherited p.specs) (n : Nat) :
    Grows s { t with productions := t.productions ++ List.replicate n p } := by
  obtain ⟨_, _, rfl⟩ := h.rest
  exact ⟨rfl, fun q hq => List.mem_append_left _ hq, h.keeps⟩

theorem grows_addImplicitLiteral {image : String} {token : Nat} {ignoreCase : Bool} :
    Grows s ((s.claimLiteral image token ignoreCase).2.addImplicitLiteral token) where
  name_eq := by
    obtain ⟨exact, folded, hclaim⟩ := s.claimLiteral_eq image token ignoreCase
    obtain ⟨tokens, heq⟩ := (s.claimLiteral image token ignoreCase).2.addImplicitLiteral_eq token
    rw [heq, hclaim]
  productions q hq := by
    obtain ⟨exact, folded, hclaim⟩ := s.claimLiteral_eq image token ignoreCase
    rw [LexicalState.productions_addImplicitLiteral, hclaim]
    exact hq
  owner _ _ _ ho := by
    rw [LexicalState.literalOwner?_addImplicitLiteral]
    exact LexicalState.literalOwner?_claimLiteral_of_some ho

theorem Command.grows {c : Command} (hc : c.declares lx = true) (hs : lx.states[i]? = some s) :
    ∃ s', (c.run lx).states[i]? = some s' ∧ Grows s s' := by
  cases c with
  | addLexicalState name =>
      rw [run, final_addLexicalState]
      split
      · exact ⟨s, hs, .refl⟩
      · obtain ⟨hi, rfl⟩ := Array.getElem?_eq_some_iff.mp hs
        exact ⟨_, Array.getElem?_push_lt hi, .refl⟩
  | addDefinition d => exact ⟨s, hs, .refl⟩
  | setOverridden token => exact ⟨s, hs, .refl⟩
  | addTokenProduction p =>
      obtain ⟨⟨⟩, hok⟩ := eq_ok_of_succeeds hc
      obtain ⟨targets, -, -, -, -, hstate⟩ := addTokenProduction_eq_ok hok
      obtain ⟨s', hs', hsame, hclaimed⟩ := hstate i s hs
      refine ⟨s', hs', ?_⟩
      by_cases hi : i ∈ targets
      · obtain ⟨t, n, hclaim, rfl⟩ := hclaimed hi
        exact grows_addProductions hclaim (n + 1)
      · exact hsame hi ▸ .refl
  | addImplicitLiteral state image =>
      obtain ⟨token, hok⟩ := eq_ok_of_succeeds hc
      rw [run]
      obtain ⟨j, t, -, -, ⟨-, heq⟩ | ⟨-, heq⟩⟩ := addImplicitLiteral_eq_ok hok
      · rw [heq]
        exact ⟨s, hs, .refl⟩
      · rw [heq, Array.getElem?_modify, hs]
        split
        · exact ⟨_, rfl, grows_addImplicitLiteral⟩
        · exact ⟨s, rfl, .refl⟩
  | ensureLabels u => exact absurd hc Bool.false_ne_true
  | build => exact absurd hc Bool.false_ne_true

/-- What a declaration brought about in a lexical state holds of it later. -/
theorem Declared.exists_of_mem {commands : List Command} {c : Command}
    {P : Nat → LexicalState → Prop} (hgrow : ∀ i s s', Grows s s' → P i s → P i s')
    (hadded : ∀ {commands lx}, Declared commands lx → c.declares lx = true →
      ∃ i s, (c.run lx).states[i]? = some s ∧ P i s)
    (h : Declared commands lx) (hmem : c ∈ commands) :
    ∃ (i : Nat) (s : LexicalState), lx.states[i]? = some s ∧ P i s := by
  induction h with
  | new => exact absurd hmem List.not_mem_nil
  | run h c' hc ih =>
      rcases List.mem_append.mp hmem with hmem | hmem
      · obtain ⟨i, s, hs, hP⟩ := ih hmem
        obtain ⟨s', hs', hgrows⟩ := Command.grows hc hs
        exact ⟨i, s', hs', hgrow i s s' hgrows hP⟩
      · obtain rfl := List.mem_singleton.mp hmem
        exact hadded h hc

theorem stateIndex_eq_ok {name : String} :
    lx.stateIndex name = .ok i ↔ lx.stateIndex? name = some i := by
  rw [stateIndex]
  cases lx.stateIndex? name <;> simp

/-- A name of a production finds one of its targets. -/
theorem exists_target {targets : List Nat} {name : String} (h : lx.targets p = .ok targets)
    (hname : name ∈ p.lexicalStates) : ∃ i ∈ targets, lx.stateIndex? name = some i := by
  rw [Lexer.targets, if_neg (by simpa using List.ne_nil_of_mem hname)] at h
  obtain ⟨n, hn, rfl⟩ := List.getElem_of_mem hname
  have hall := mapM_eq_ok.mp h
  exact ⟨_, List.getElem_mem (hall.length_eq ▸ hn),
    stateIndex_eq_ok.mp (hall.get hn (hall.length_eq ▸ hn))⟩

/-- The lexical states that a production is for: those that it names, or the first if it names
none. -/
def Concerns (p : TokenProduction) (i : Nat) (s : LexicalState) : Prop :=
  s.name ∈ p.lexicalStates ∨ p.lexicalStates = [] ∧ i = 0

/-- A production that is added is in the lexical states at its targets. -/
theorem exists_of_addTokenProduction (hc : (Command.addTokenProduction p).declares lx = true) :
    ∃ targets, lx.targets p = .ok targets ∧ ∀ i ∈ targets, ∀ s, lx.states[i]? = some s →
      ∃ s', ((Command.addTokenProduction p).run lx).states[i]? = some s' ∧ s'.name = s.name ∧
        p ∈ s'.productions := by
  obtain ⟨⟨⟩, hok⟩ := eq_ok_of_succeeds hc
  obtain ⟨targets, htargets, -, -, -, hstate⟩ := addTokenProduction_eq_ok hok
  refine ⟨targets, htargets, ?_⟩
  intro i hi s hs
  obtain ⟨s', hs', -, hclaimed⟩ := hstate i s hs
  obtain ⟨t, n, hclaim, rfl⟩ := hclaimed hi
  refine ⟨_, hs', (grows_addProductions hclaim (n + 1)).name_eq, List.mem_append_right _ ?_⟩
  exact List.mem_replicate.mpr ⟨n.succ_ne_zero, rfl⟩

/-- A production is in every lexical state that it is for. -/
theorem Declared.mem_productions {commands : List Command} (h : Declared commands lx)
    (hp : .addTokenProduction p ∈ commands) (hs : lx.states[i]? = some s) (hc : Concerns p i s) :
    p ∈ s.productions := by
  rcases hc with hname | ⟨hempty, rfl⟩
  · obtain ⟨j, t, ht, heq, hmem⟩ := h.exists_of_mem
      (P := fun _ t => t.name = s.name ∧ p ∈ t.productions)
      (fun _ _ _ hgrows hP => ⟨hgrows.name_eq.trans hP.1, hgrows.productions p hP.2⟩)
      (fun h hc => by
        obtain ⟨targets, htargets, hadded⟩ := exists_of_addTokenProduction hc
        obtain ⟨j, hj, hindex⟩ := exists_target htargets hname
        obtain ⟨t, ht, heq⟩ := (h.reachable.coherent.located _ _).mp hindex
        obtain ⟨t', ht', heq', hmem⟩ := hadded j hj t ht
        exact ⟨j, t', ht', heq'.trans heq, hmem⟩) hp
    obtain rfl := h.reachable.coherent.name_inj ht hs heq
    exact Option.some.inj (ht.symm.trans hs) ▸ hmem
  · obtain ⟨j, t, ht, rfl, hmem⟩ := h.exists_of_mem (P := fun j t => j = 0 ∧ p ∈ t.productions)
      (fun _ _ _ hgrows hP => ⟨hP.1, hgrows.productions p hP.2⟩)
      (fun h hc => by
        obtain ⟨targets, htargets, hadded⟩ := exists_of_addTokenProduction hc
        rw [Lexer.targets, hempty] at htargets
        obtain rfl := Except.ok.inj htargets
        obtain ⟨t', ht', -, hmem⟩ := hadded 0 (List.mem_singleton_self 0) _
          (Array.getElem?_eq_getElem h.reachable.coherent.states_pos)
        exact ⟨0, t', ht', rfl, hmem⟩) hp
    exact Option.some.inj (ht.symm.trans hs) ▸ hmem

/-- An image that was given as an implicit literal has an owner where it was given. -/
theorem Declared.exists_owner_of_implicit {commands : List Command} {image : String}
    (h : Declared commands lx) (hi : .addImplicitLiteral s.name image ∈ commands)
    (hs : lx.states[i]? = some s) :
    ∃ ignoreCase owner, s.literalOwner? image ignoreCase = some owner := by
  obtain ⟨j, t, ht, heq, howner⟩ := h.exists_of_mem
    (P := fun _ t => t.name = s.name ∧
      ∃ ignoreCase owner, t.literalOwner? image ignoreCase = some owner)
    (fun _ _ _ hgrows hP => ⟨hgrows.name_eq.trans hP.1, by
      obtain ⟨ignoreCase, owner, ho⟩ := hP.2
      exact ⟨ignoreCase, owner, hgrows.owner _ _ _ ho⟩⟩)
    (fun h hc => by
      obtain ⟨token, hok⟩ := eq_ok_of_succeeds hc
      rw [Command.run]
      obtain ⟨j, t, hindex, ht, hcases⟩ := addImplicitLiteral_eq_ok hok
      obtain ⟨t', ht', heq⟩ := (h.reachable.coherent.located _ _).mp hindex
      obtain rfl := Option.some.inj (ht.symm.trans ht')
      rcases hcases with ⟨hlookup, hsame⟩ | ⟨-, hadded⟩
      · rw [hsame]
        refine ⟨j, t, ht, heq, ?_⟩
        cases ho : t.literalOwner? image false with
        | some owner => exact ⟨false, owner, ho⟩
        | none =>
            rw [LexicalState.lookupLiteral, ho] at hlookup
            exact ⟨true, token, hlookup⟩
      · refine ⟨j, _, by rw [hadded, Array.getElem?_modify, if_pos rfl, ht]; rfl, ?_, ?_⟩
        · rw [grows_addImplicitLiteral.name_eq, heq]
        · obtain ⟨owner, ho⟩ := Option.isSome_iff_exists.mp
            LexicalState.isSome_literalOwner?_claimLiteral
          exact ⟨_, owner, LexicalState.literalOwner?_addImplicitLiteral.trans ho⟩) hi
  obtain rfl := h.reachable.coherent.name_inj ht hs heq
  exact Option.some.inj (ht.symm.trans hs) ▸ howner

end ScannerTables.Lexer
