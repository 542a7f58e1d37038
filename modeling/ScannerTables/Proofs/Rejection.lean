import ScannerTables.Proofs.Declarations
/-!
# Productions that are rejected

Adding a production fails if a lexical state that it names is not declared or a token that it lists
is not registered. The names are looked at before anything is changed, the tokens one after the
other while literals are claimed. So what an unregistered token leaves are the claims of the
literals that are listed before it; nothing else changes, and nothing at all exactly if each of them
has an owner already.
-/

namespace ScannerTables

namespace LexicalState

variable {s : LexicalState} {image : String} {token : Nat} {ignoreCase : Bool}

/-- A literal that has an owner is not claimed again. -/
theorem claimLiteral_eq_self (h : (s.literalOwner? image ignoreCase).isSome) :
    (s.claimLiteral image token ignoreCase).2 = s := by
  cases ignoreCase with
  | false =>
      have hclaim : s.exactLiterals.claim image token = s.exactLiterals := if_pos h
      simp only [claimLiteral, hclaim, Bool.false_eq_true, if_false]
  | true =>
      have hclaim : s.foldedLiterals.claim (Unicode.upperText image) token = s.foldedLiterals :=
        if_pos h
      simp only [claimLiteral, hclaim, if_true]

end LexicalState

namespace Lexer

open Checked

variable {lx lx' : Lexer} {p : TokenProduction} {e : DefinitionError} {targets : List Nat}
variable {inherited : Bool} {spec : TokenSpec} {specs : List TokenSpec}

theorem modifyStates_eq_self {f : LexicalState → LexicalState}
    (h : ∀ i ∈ targets, ∀ s, lx.states[i]? = some s → f s = s) :
    lx.modifyStates targets f = lx := by
  have hstates : (lx.modifyStates targets f).states = lx.states := by
    apply Array.ext_getElem?
    intro i
    rw [getElem?_modifyStates]
    cases hs : lx.states[i]? with
    | none => rfl
    | some s =>
        by_cases hi : i ∈ targets
        · rw [Option.map_some, Function.iterate_fixed (h i hi s hs)]
        · rw [List.count_eq_zero_of_not_mem hi, Function.iterate_zero, Option.map_id, id]
  exact congrArg (fun states => { lx with states := states }) hstates

/-- The literals of some entries have owners in the lexical states at some positions. -/
def Owned (lx : Lexer) (targets : List Nat) (inherited : Bool) (specs : List TokenSpec) : Prop :=
  ∀ spec ∈ specs, ∀ d text, lx.registry.get? spec.token = some d → d.pattern = .literal text →
    ∀ i ∈ targets, ∀ s, lx.states[i]? = some s →
      (s.literalOwner? text (d.ignoreCaseOr inherited)).isSome

/-- An entry changes nothing if its literal has owners. -/
theorem claimSpec_of_owned (h : claimSpec inherited targets spec lx = .ok () lx')
    (howned : lx.Owned targets inherited [spec]) : lx' = lx := by
  obtain ⟨d, hd, ⟨-, rfl⟩ | ⟨text, htext, rfl⟩⟩ := claimSpec_eq_ok h
  · rfl
  · refine modifyStates_eq_self fun i hi s hs => LexicalState.claimLiteral_eq_self ?_
    exact howned spec (List.mem_singleton_self spec) d text hd
      (TokenDefinition.image?_eq_some.mp htext) i hi s hs

theorem forM_claimSpec_of_owned (h : specs.forM (claimSpec inherited targets) lx = .ok () lx')
    (howned : lx.Owned targets inherited specs) : lx' = lx := by
  induction specs with
  | nil => exact (EStateM.Result.ok.inj h).2.symm
  | cons spec specs ih =>
      obtain ⟨⟨⟩, lx₁, hspec, hrest⟩ := run_bind_eq_ok.mp h
      obtain rfl := claimSpec_of_owned hspec fun spec' hspec' =>
        howned spec' (List.mem_singleton.mp hspec' ▸ List.mem_cons_self)
      exact ih hrest fun spec' hspec' => howned spec' (List.mem_cons_of_mem _ hspec')

/-- Entries change nothing exactly if their literals have owners. -/
theorem forM_claimSpec_eq_self_iff (h : specs.forM (claimSpec inherited targets) lx = .ok () lx') :
    lx' = lx ↔ lx.Owned targets inherited specs := by
  refine ⟨?_, forM_claimSpec_of_owned h⟩
  rintro rfl spec hspec d text hd htext i hi s hs
  obtain ⟨s', hs', -, hclaimed⟩ := (claimedAt_of_forM h).state i s hs
  obtain rfl := Option.some.inj (hs.symm.trans hs')
  obtain ⟨d', hd', howner⟩ := (hclaimed hi).claimed spec hspec
  obtain rfl := Option.some.inj (hd.symm.trans hd')
  exact howner text htext

/-- An entry fails for want of its token, before it changes anything. -/
theorem claimSpec_eq_error (h : claimSpec inherited targets spec lx = .error e lx') :
    lx.registry.get? spec.token = none ∧ e = .unknownToken spec.token ∧ lx' = lx := by
  rw [claimSpec, run_get_bind] at h
  cases hd : lx.registry.get? spec.token with
  | none =>
      rw [hd] at h
      obtain ⟨rfl, rfl⟩ := EStateM.Result.error.inj h
      exact ⟨rfl, rfl, rfl⟩
  | some d =>
      rw [hd] at h
      dsimp only at h
      cases htext : d.image? <;> rw [htext] at h <;> exact absurd h.symm error_ne_ok

theorem targets_eq_error (h : lx.targets p = .error e) : ∃ before name after,
    p.lexicalStates = before ++ name :: after ∧ (∀ n ∈ before, (lx.stateIndex? n).isSome) ∧
      lx.stateIndex? name = none ∧ e = .unknownLexicalState name := by
  rw [targets] at h
  split at h
  · exact absurd h.symm throw_ne_ok
  · obtain ⟨before, name, after, heq, hbefore, hname⟩ := mapM_eq_error h
    refine ⟨before, name, after, heq, ?_, ?_⟩
    · intro n hn
      obtain ⟨i, hi⟩ := hbefore n hn
      exact Option.isSome_of_eq_some (stateIndex_eq_ok.mp hi)
    · rw [stateIndex] at hname
      split at hname
      · exact absurd hname.symm throw_ne_ok
      · next hnone => exact ⟨hnone, (Except.error.inj hname).symm⟩

/-- What a production that is rejected leaves behind. If a lexical state is not declared, the lexer
is as it was. Else a token is not registered; then the literals that are listed before it are
claimed, and the lexer is as it was exactly if all of them had owners. -/
theorem addTokenProduction_eq_error (lx lx' : Lexer) (p : TokenProduction) (e : DefinitionError)
    (h : addTokenProduction p lx = .error e lx') :
    (∃ before name after, p.lexicalStates = before ++ name :: after ∧
      (∀ n ∈ before, (lx.stateIndex? n).isSome) ∧ lx.stateIndex? name = none ∧
        e = .unknownLexicalState name ∧ lx' = lx) ∨
    ∃ targets before spec after, lx.targets p = .ok targets ∧ p.specs = before ++ spec :: after ∧
      lx.registry.get? spec.token = none ∧ e = .unknownToken spec.token ∧
        lx.ClaimedAt lx' targets (p.ignoreCase || lx.config.ignoreCase) before ∧
          (lx' = lx ↔ lx.Owned targets (p.ignoreCase || lx.config.ignoreCase) before) := by
  rw [addTokenProduction, run_get_bind] at h
  cases htargets : lx.targets p with
  | error e' =>
      rw [htargets] at h
      obtain ⟨rfl, rfl⟩ := EStateM.Result.error.inj h
      obtain ⟨before, name, after, heq, hbefore, hnone, he⟩ := targets_eq_error htargets
      exact .inl ⟨before, name, after, heq, hbefore, hnone, he, rfl⟩
  | ok targets =>
      rw [htargets] at h
      rcases run_bind_eq_error.mp h with hpure | ⟨_, _, hpure, h⟩
      · exact absurd hpure.symm error_ne_ok
      obtain ⟨rfl, rfl⟩ := EStateM.Result.ok.inj hpure
      rcases run_bind_eq_error.mp h with hspecs | ⟨_, _, -, hmodify⟩
      · obtain ⟨before, spec, after, lx₁, heq, hbefore, hspec⟩ := forM_eq_error hspecs
        obtain ⟨hnone, he, rfl⟩ := claimSpec_eq_error hspec
        have hclaimed := claimedAt_of_forM hbefore
        refine .inr ⟨targets, before, spec, after, rfl, heq, ?_, he, hclaimed,
          forM_claimSpec_eq_self_iff hbefore⟩
        obtain ⟨_, heq'⟩ := hclaimed.rest
        rwa [heq'] at hnone
      · exact absurd hmodify.symm error_ne_ok

/-- A literal is listed before a token that is not registered: the production is rejected, and yet
the literal is claimed, so that it counts as known when the grammar uses it. -/
theorem addTokenProduction_eq_error_after_literal : ∃ (lx lx' : Lexer) (p : TokenProduction)
    (targets : List Nat) (before : List TokenSpec) (e : DefinitionError),
    addTokenProduction p lx = .error e lx' ∧ lx.ClaimedAt lx' targets false before ∧
      ¬ lx.Owned targets false before ∧ lx.productions = lx'.productions ∧
        addImplicitLiteral "DEFAULT" "a" lx = .ok 2
            ((Command.addImplicitLiteral "DEFAULT" "a").run lx) ∧
          addImplicitLiteral "DEFAULT" "a" lx' = .ok 1 lx' := by
  let lx := (Command.addDefinition (.ofLiteral "a")).run (new {})
  let p : TokenProduction := { specs := [{ token := 1 }, { token := 9 }] }
  let lx' := (Command.addTokenProduction p).run lx
  have herror : addTokenProduction p lx = .error (.unknownToken 9) lx' := rfl
  have hbefore : lx.states.toList.map (·.lookupLiteral "a") = [none] := by
    dsimp only [lx]
    cbv
  have hafter : lx'.states.toList.map (·.lookupLiteral "a") = [some 1] := by
    dsimp only [lx', p, lx]
    cbv
  have hunknown : addImplicitLiteral "DEFAULT" "a" lx =
      .ok 2 ((Command.addImplicitLiteral "DEFAULT" "a").run lx) := by
    dsimp only [lx]
    cbv
  have hknown : addImplicitLiteral "DEFAULT" "a" lx' = .ok 1 lx' := by
    dsimp only [lx', p, lx]
    cbv
  have hchanged : lx' ≠ lx := by
    intro heq
    rw [heq, hbefore] at hafter
    exact absurd hafter (by simp)
  rcases addTokenProduction_eq_error lx lx' p _ herror with ⟨_, _, _, -, -, -, -, hsame⟩ |
    ⟨targets, before, spec, after, -, -, -, -, hclaimed, hsame⟩
  · exact absurd hsame hchanged
  · exact ⟨lx, lx', p, targets, before, _, herror, hclaimed,
      fun howned => hchanged (hsame.mpr howned), rfl, hunknown, hknown⟩

end Lexer

end ScannerTables
