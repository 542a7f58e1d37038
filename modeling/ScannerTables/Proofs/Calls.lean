import ScannerTables.Proofs.Independence
import ScannerTables.Proofs.Memoization
/-!
# The calls behind a lexical state

Commands change lexical states by calls. A production has its literals claimed, entry by entry, and
is then added; an implicit literal is claimed and listed; a build processes. `callsOn` lists the
calls that commands make on the lexical state at a position, those of commands that fail on the way
included: the claims of a production whose entry is not registered stop at that entry, and a build
does not come to the lexical states behind the first one that fails.

A lexical state is what its calls have made of a new one (`eq_foldl_callsOn`). What is shown of a
call, and by induction of calls in a row, is shown of the lexical states of every lexer.
-/

namespace ScannerTables

open Checked

namespace LexicalState

/-- Processing leaves declarations alone; what counts as built afterwards did so before, or the plan
builds it. -/
theorem exists_final_process_eq (r : TokenRegistry) (config : Config) (s : LexicalState) :
    ∃ automaton composites built transitions warnings dispatch, final (process r config) s =
        { s with automaton, composites, built, transitions, warnings, dispatch } ∧
      ∀ token ∈ built, token ∈ s.built ∨ ∃ ignoreCase, s.Builds r config token ignoreCase := by
  apply keeps_process (P := fun t => ∃ automaton composites built transitions warnings dispatch,
    t = { s with automaton, composites, built, transitions, warnings, dispatch } ∧
      ∀ token ∈ built, token ∈ s.built ∨ ∃ ignoreCase, s.Builds r config token ignoreCase)
  · exact ⟨_, _, _, _, _, _, rfl, fun _ => .inl⟩
  · rintro step hstep _ ⟨automaton, composites, built, transitions, warnings, dispatch, rfl, hbuilt⟩
    cases step with
    | unknown ordinal => exact ⟨_, _, _, _, _, _, rfl, hbuilt⟩
    | token ordinal ignoreCase switch =>
        have hplan : s.Builds r config ordinal ignoreCase :=
          mem_plan_iff.mp (List.mem_filterMap.mpr ⟨_, hstep, rfl⟩)
        -- the token of a step counts as built, whether or not its automaton could be
        have hinsert : ∀ token ∈ built.insert ordinal,
            token ∈ s.built ∨ ∃ ignoreCase, s.Builds r config token ignoreCase := by
          intro token htoken
          obtain rfl | htoken := IntervalSet.mem_insert.mp htoken
          · exact .inr ⟨ignoreCase, hplan⟩
          · exact hbuilt token htoken
        rw [final, runStep]
        dsimp only
        cases Build.token r ordinal ignoreCase initialState automaton with
        | error e automaton => exact ⟨_, _, _, _, _, _, rfl, hinsert⟩
        | ok f automaton => exact ⟨_, _, _, _, _, _, rfl, hinsert⟩
  · rintro _ ⟨_, _, _, _, _, _, rfl, hbuilt⟩
    exact ⟨_, _, _, _, _, _, rfl, hbuilt⟩
  · rintro _ t' hgen ⟨_, _, _, _, _, _, rfl, hbuilt⟩
    obtain ⟨_, _, _, rfl⟩ := exists_eq_of_generate hgen
    exact ⟨_, _, _, _, _, _, rfl, hbuilt⟩

namespace Call

/-- Every call leaves a lexical state its name, and its part as the default one or not. -/
theorem identity_run (s : LexicalState) (c : Call) :
    (c.run s).name = s.name ∧ (c.run s).isDefault = s.isDefault := by
  cases c with
  | addProduction p => exact ⟨rfl, rfl⟩
  | addImplicitLiteral token =>
      obtain ⟨tokens, heq⟩ := s.addImplicitLiteral_eq token
      rw [run, heq]
      exact ⟨rfl, rfl⟩
  | claimLiteral image token ignoreCase =>
      obtain ⟨exact, folded, heq⟩ := s.claimLiteral_eq image token ignoreCase
      rw [run, heq]
      exact ⟨rfl, rfl⟩
  | canonical members => exact ⟨rfl, rfl⟩
  | process r config => exact ⟨records_process.name_eq, records_process.isDefault_eq⟩

/-- What each call keeps, calls in a row keep. -/
theorem foldl_keeps {P : LexicalState → Prop} (calls : List Call) {s : LexicalState}
    (hstep : ∀ c ∈ calls, ∀ s, P s → P (c.run s)) (hs : P s) : P (calls.foldl Call.run s) := by
  induction calls generalizing s with
  | nil => exact hs
  | cons c calls ih =>
      rw [List.forall_mem_cons] at hstep
      exact ih hstep.2 (hstep.1 s hs)

end Call

end LexicalState

namespace Lexer

open LexicalState (Call)

/-- The claim of the literal of an entry, if it has one. -/
def claimCall? (r : TokenRegistry) (inherited : Bool) (spec : TokenSpec) : Option Call :=
  (r.get? spec.token).bind fun d =>
    d.image?.map fun image => .claimLiteral image spec.token (d.ignoreCaseOr inherited)

/-- The claims of entries, each made some number of times, up to the first entry whose token is not
registered. -/
def claimCalls (r : TokenRegistry) (inherited : Bool) (times : Nat) (specs : List TokenSpec) :
    List Call :=
  (specs.takeWhile fun spec => (r.get? spec.token).isSome).flatMap fun spec =>
    (claimCall? r inherited spec).toList.flatMap (List.replicate times)

/-- The calls that a command makes on the lexical state at a position. -/
def Command.callsOn (i : Nat) (lx : Lexer) : Command → List Call
  | addTokenProduction p =>
    match lx.targets p with
    | .error _ => []
    | .ok targets =>
      let times := targets.count i
      claimCalls lx.registry (p.ignoreCase || lx.config.ignoreCase) times p.specs ++
        if p.specs.all fun spec => (lx.registry.get? spec.token).isSome then
          List.replicate times (.addProduction p)
        else []
  | addImplicitLiteral state image =>
    if lx.stateIndex? state = some i ∧ lx.states[i]?.bind (·.lookupLiteral image) = none then
      [.claimLiteral image lx.registry.size lx.config.ignoreCase,
        .addImplicitLiteral lx.registry.size]
    else []
  | build =>
    match lx.checkTargets with
    | .error _ => []
    | .ok _ =>
      -- processing stops behind the first lexical state that fails
      if i < lx.states.size ∧ (lx.states.toList.take i).all
          (succeeds (LexicalState.process lx.registry lx.config)) then
        [.process lx.registry lx.config]
      else []
  | addLexicalState _ | addDefinition _ | setOverridden _ | ensureLabels _ => []

/-- The calls that commands, one after the other, make on the lexical state at a position. -/
def callsOn (i : Nat) : Lexer → List Command → List Call
  | _, [] => []
  | lx, c :: commands => c.callsOn i lx ++ callsOn i (c.run lx) commands

variable {lx : Lexer} {r : TokenRegistry} {config : Config} {i : Nat} {s : LexicalState}
variable {inherited : Bool} {targets : List Nat} {specs : List TokenSpec} {p : TokenProduction}

/-! ### Productions -/

/-- The claim of an entry, made some number of times. -/
theorem iterate_claimSpec (n : Nat) (spec : TokenSpec) (s : LexicalState) :
    (·.claimSpec r inherited spec)^[n] s =
      ((claimCall? r inherited spec).toList.flatMap (List.replicate n)).foldl Call.run s := by
  have hcall : (·.claimSpec r inherited spec) =
      fun s => (claimCall? r inherited spec).elim s (Call.run s) := by
    funext s
    rw [LexicalState.claimSpec, claimCall?]
    cases r.get? spec.token with
    | none => rfl
    | some d =>
        cases himage : d.image? with
        | none => simp only [himage, Option.bind_some, Option.map_none, Option.elim_none]
        | some image =>
            simp only [himage, Option.bind_some, Option.map_some, Option.elim_some, Call.run]
  rw [hcall]
  cases claimCall? r inherited spec with
  | none => exact congrFun (Function.iterate_id n) s
  | some c =>
      change (Call.run · c)^[n] s = (List.replicate n c ++ []).foldl Call.run s
      rw [List.append_nil, foldl_replicate]

/-- An entry is claimed at the targets if its token is registered, and else nothing happens. -/
theorem claimSpec_eq (spec : TokenSpec) : claimSpec inherited targets spec lx =
    if (lx.registry.get? spec.token).isSome then
      .ok () (lx.modifyStates targets (·.claimSpec lx.registry inherited spec))
    else .error (.unknownToken spec.token) lx := by
  cases hrun : claimSpec inherited targets spec lx with
  | error e lx' =>
      obtain ⟨hd, rfl, rfl⟩ := claimSpec_eq_error hrun
      rw [hd]
      rfl
  | ok _ lx' =>
      obtain ⟨⟨d, hd⟩, rfl⟩ := claimSpec_eq_modifyStates hrun
      rw [hd]
      rfl

theorem succeeds_forM_claimSpec (inherited : Bool) (targets : List Nat) (specs : List TokenSpec)
    (lx : Lexer) : succeeds (specs.forM (claimSpec inherited targets)) lx =
      specs.all fun spec => (lx.registry.get? spec.token).isSome := by
  induction specs generalizing lx with
  | nil => rfl
  | cons spec specs ih =>
      change succeeds (claimSpec inherited targets spec >>= fun _ => _) lx = _
      rw [succeeds_bind, claimSpec_eq, List.all_cons]
      cases (lx.registry.get? spec.token).isSome with
      | false => rfl
      | true => exact ih _

/-- Entries are claimed up to the first whose token is not registered. -/
theorem getElem?_final_claimSpecs (inherited : Bool) (targets : List Nat)
    (specs : List TokenSpec) (hs : lx.states[i]? = some s) :
    (final (specs.forM (claimSpec inherited targets)) lx).states[i]? =
      some ((claimCalls lx.registry inherited (targets.count i) specs).foldl Call.run s) := by
  induction specs generalizing lx s with
  | nil => exact hs
  | cons spec specs ih =>
      change (final (claimSpec inherited targets spec >>= fun _ => _) lx).states[i]? = _
      rw [final_bind_eq, claimSpec_eq, claimCalls, List.takeWhile_cons]
      cases (lx.registry.get? spec.token).isSome with
      | false => exact hs
      | true =>
          change (final (specs.forM _) (lx.modifyStates targets _)).states[i]? = _
          apply (ih (by rw [getElem?_modifyStates, hs, Option.map_some])).trans
          rw [if_pos rfl, List.flatMap_cons, List.foldl_append, iterate_claimSpec]
          rfl

theorem getElem?_final_addTokenProduction (hs : lx.states[i]? = some s) :
    (final (addTokenProduction p) lx).states[i]? =
      some (((Command.addTokenProduction p).callsOn i lx).foldl Call.run s) := by
  rw [addTokenProduction, final_get_bind, Command.callsOn]
  cases lx.targets p with
  | error e => exact hs
  | ok targets =>
      have hclaims := getElem?_final_claimSpecs (p.ignoreCase || lx.config.ignoreCase) targets
        p.specs hs
      have hregistered := succeeds_forM_claimSpec (p.ignoreCase || lx.config.ignoreCase) targets
        p.specs lx
      dsimp only
      rw [pure_bind, final_bind_eq, List.foldl_append]
      rw [final] at hclaims
      rw [Checked.succeeds] at hregistered
      cases hrun : p.specs.forM (claimSpec (p.ignoreCase || lx.config.ignoreCase) targets) lx with
      | error e lx' =>
          rw [hrun] at hclaims hregistered
          rw [← hregistered]
          exact hclaims
      | ok _ lx' =>
          rw [hrun] at hclaims hregistered
          rw [← hregistered, if_pos rfl, foldl_replicate]
          change (lx'.modifyStates targets (·.addProduction p)).states[i]? = _
          rw [getElem?_modifyStates, hclaims, Option.map_some]
          rfl

/-! ### Implicit literals -/

section

variable {state image : String}

theorem state?_of_stateIndex? (hindex : lx.stateIndex? state = some i)
    (hs : lx.states[i]? = some s) : lx.state? state = some s := by
  rw [state?, hindex, Option.bind_some, hs]

theorem getElem?_final_addImplicitLiteral (hs : lx.states[i]? = some s) :
    (final (addImplicitLiteral state image) lx).states[i]? =
      some (((Command.addImplicitLiteral state image).callsOn i lx).foldl Call.run s) := by
  rw [Command.callsOn, hs, Option.bind_some]
  cases hstate : lx.state? state with
  | none =>
      rw [final, addImplicitLiteral_of_undeclared hstate, if_neg]
      · exact hs
      · rintro ⟨hindex, -⟩
        exact absurd ((state?_of_stateIndex? hindex hs).symm.trans hstate) (Option.some_ne_none s)
  | some t =>
      obtain ⟨j, hindex, ht⟩ := Option.bind_eq_some_iff.mp hstate
      rw [hindex]
      cases hlookup : t.lookupLiteral image with
      | some token =>
          rw [final_eq_of_eq_ok (addImplicitLiteral_of_known hstate hlookup), if_neg]
          · exact hs
          · rintro ⟨hj, hnone⟩
            obtain rfl := Option.some.inj hj
            obtain rfl := Option.some.inj (ht.symm.trans hs)
            exact absurd (hlookup.symm.trans hnone) (Option.some_ne_none token)
      | none =>
          rw [final_eq_of_eq_ok (addImplicitLiteral_of_unknown hstate hlookup), hindex]
          change (lx.modifyStates [j] _).states[i]? = _
          rw [getElem?_modifyStates, hs, Option.map_some, List.count_singleton]
          by_cases hj : j = i
          · subst hj
            obtain rfl := Option.some.inj (ht.symm.trans hs)
            rw [if_pos (beq_self_eq_true j), if_pos ⟨rfl, hlookup⟩]
            rfl
          · rw [if_neg (fun heq => hj (beq_iff_eq.mp heq)),
              if_neg fun hboth => hj (Option.some.inj hboth.1)]
            rfl

end

/-! ### Builds -/

/-- Processing comes to the lexical states up to the first that fails. -/
theorem getElem?_processAll (r : TokenRegistry) (config : Config) {states : List LexicalState}
    (hs : states[i]? = some s) :
    (processAll r config states).1[i]? =
      some (if (states.take i).all (Checked.succeeds (LexicalState.process r config)) then
        final (LexicalState.process r config) s else s) := by
  induction states generalizing i with
  | nil => exact absurd hs nofun
  | cons t states ih =>
      rw [processAll]
      cases i with
      | zero =>
          obtain rfl := Option.some.inj hs
          cases hprocess : LexicalState.process r config t with
          | error e t' => exact congrArg some (by rw [final, hprocess]; rfl)
          | ok _ t' => exact congrArg some (by rw [final, hprocess]; rfl)
      | succ i =>
          rw [List.take_succ_cons, List.all_cons, Checked.succeeds]
          cases hprocess : LexicalState.process r config t with
          | error e t' => exact hs
          | ok _ t' => exact ih hs

theorem getElem?_final_build (hs : lx.states[i]? = some s) :
    (final build lx).states[i]? = some ((Command.build.callsOn i lx).foldl Call.run s) := by
  rw [build, final_get_bind, Command.callsOn]
  cases lx.checkTargets with
  | error e => exact hs
  | ok _ =>
      have hall := getElem?_processAll lx.registry lx.config
        (Array.getElem?_toList.trans hs)
      have hi := (Array.getElem?_eq_some_iff.mp hs).1
      dsimp only
      rw [final_set_bind]
      have hstates : (processAll lx.registry lx.config lx.states.toList).1.toArray[i]? = some
          (List.foldl Call.run s (if i < lx.states.size ∧ (lx.states.toList.take i).all
            (Checked.succeeds (LexicalState.process lx.registry lx.config)) then
            [.process lx.registry lx.config] else [])) := by
        rw [List.getElem?_toArray, hall]
        split
        · next hbefore => rw [if_pos ⟨hi, hbefore⟩]; rfl
        · next hbefore => rw [if_neg fun hboth => hbefore hboth.2]; rfl
      cases (processAll lx.registry lx.config lx.states.toList).2 <;> exact hstates

/-! ### What is called -/

theorem mem_claimCalls {times : Nat} {c : Call}
    (h : c ∈ claimCalls r inherited times specs) :
    ∃ image token ignoreCase, c = .claimLiteral image token ignoreCase := by
  obtain ⟨spec, -, h⟩ := List.mem_flatMap.mp h
  obtain ⟨c', hc', h⟩ := List.mem_flatMap.mp h
  obtain ⟨d, -, hd⟩ := Option.bind_eq_some_iff.mp (Option.mem_toList.mp hc')
  obtain ⟨image, -, rfl⟩ := Option.map_eq_some_iff.mp hd
  exact ⟨_, _, _, List.eq_of_mem_replicate h⟩

/-- A call claims a literal, adds a production, lists the literal that the command registers, or
processes with the definitions and the configuration that there are. -/
theorem Command.mem_callsOn {c : Command} {call : Call} (hlx : lx.Coherent)
    (h : call ∈ c.callsOn i lx) :
    (∃ image token ignoreCase, call = .claimLiteral image token ignoreCase) ∨
      (∃ p, call = .addProduction p) ∨
        (∃ image, call = .addImplicitLiteral lx.registry.size ∧
          (c.run lx).registry = lx.registry.register (.ofLiteral image)) ∨
            call = .process lx.registry lx.config := by
  cases c with
  | addTokenProduction p =>
      rw [callsOn] at h
      split at h
      · exact absurd h List.not_mem_nil
      · obtain h | h := List.mem_append.mp h
        · exact .inl (mem_claimCalls h)
        · split at h
          · exact .inr (.inl ⟨p, List.eq_of_mem_replicate h⟩)
          · exact absurd h List.not_mem_nil
  | addImplicitLiteral state image =>
      rw [callsOn] at h
      split at h
      · next hnew =>
        obtain rfl | h := List.mem_cons.mp h
        · exact .inl ⟨_, _, _, rfl⟩
        · obtain ⟨hindex, hlookup⟩ := hnew
          obtain ⟨s, hs, -⟩ := (hlx.located state i).mp hindex
          rw [hs, Option.bind_some] at hlookup
          have hok := addImplicitLiteral_of_unknown (state?_of_stateIndex? hindex hs) hlookup
          refine .inr (.inr (.inl ⟨image, List.mem_singleton.mp h, ?_⟩))
          rw [run, final_eq_of_eq_ok hok]
      · exact absurd h List.not_mem_nil
  | build =>
      rw [callsOn] at h
      split at h
      · exact absurd h List.not_mem_nil
      · split at h
        · exact .inr (.inr (.inr (List.mem_singleton.mp h)))
        · exact absurd h List.not_mem_nil
  | addLexicalState name => exact absurd h List.not_mem_nil
  | addDefinition d => exact absurd h List.not_mem_nil
  | setOverridden token => exact absurd h List.not_mem_nil
  | ensureLabels u => exact absurd h List.not_mem_nil

/-! ### Histories -/

/-- A command does to a lexical state what its calls do. -/
theorem Command.getElem?_run (c : Command) (hs : lx.states[i]? = some s) :
    (c.run lx).states[i]? = some ((c.callsOn i lx).foldl Call.run s) := by
  cases c with
  | addLexicalState name =>
      rw [run, final_addLexicalState]
      split
      · exact hs
      · obtain ⟨hi, rfl⟩ := Array.getElem?_eq_some_iff.mp hs
        exact Array.getElem?_push_lt hi
  | addDefinition d => exact hs
  | addTokenProduction p => exact getElem?_final_addTokenProduction hs
  | addImplicitLiteral state image => exact getElem?_final_addImplicitLiteral hs
  | setOverridden token => exact hs
  | ensureLabels u => exact hs
  | build => exact getElem?_final_build hs

/-- The positions that a production is for are those of lexical states. -/
theorem Coherent.exists_of_mem_targets (h : lx.Coherent) (htargets : lx.targets p = .ok targets)
    (hi : i ∈ targets) : ∃ s, lx.states[i]? = some s := by
  obtain ⟨-, rfl⟩ | ⟨-, hall⟩ := targets_eq_ok htargets
  · obtain rfl := List.mem_singleton.mp hi
    exact ⟨_, Array.getElem?_eq_getElem h.states_pos⟩
  · obtain ⟨n, hn, rfl⟩ := List.getElem_of_mem hi
    obtain ⟨s, hs, -⟩ := (h.located _ _).mp (hall.get (hall.length_eq ▸ hn) hn)
    exact ⟨s, hs⟩

/-- No call is made where no lexical state is declared yet. -/
theorem Command.callsOn_of_undeclared (c : Command) (h : lx.Coherent)
    (hi : lx.states[i]? = none) : c.callsOn i lx = [] := by
  have hne : ∀ s, lx.states[i]? ≠ some s := fun s hs => nomatch hi.symm.trans hs
  cases c with
  | addTokenProduction p =>
      rw [callsOn]
      cases htargets : lx.targets p with
      | error e => rfl
      | ok targets =>
          have hcount : targets.count i = 0 := by
            apply List.count_eq_zero_of_not_mem
            intro hmem
            obtain ⟨s, hs⟩ := h.exists_of_mem_targets htargets hmem
            exact hne s hs
          simp [claimCalls, hcount]
  | addImplicitLiteral state image =>
      apply if_neg
      rintro ⟨hindex, -⟩
      obtain ⟨s, hs, -⟩ := (h.located state i).mp hindex
      exact hne s hs
  | build =>
      rw [callsOn]
      cases lx.checkTargets with
      | error e => rfl
      | ok _ => exact if_neg fun hboth => hne _ (Array.getElem?_eq_getElem hboth.1)
  | _ => rfl

/-- After commands, a lexical state is what their calls have made of the one at its place, or of a
new one if there was none. -/
theorem Reachable.foldl_callsOn (h : lx.Reachable) (commands : List Command)
    (hs : (commands.foldl Command.run lx).states[i]? = some s) :
    (∃ t, lx.states[i]? = some t ∧ s = (callsOn i lx commands).foldl Call.run t) ∨
      lx.states[i]? = none ∧
        ∃ name, s = (callsOn i lx commands).foldl Call.run (.new name false) := by
  induction commands generalizing lx with
  | nil => exact .inl ⟨s, hs, rfl⟩
  | cons c commands ih =>
      simp only [callsOn, List.foldl_append]
      obtain ⟨t', ht', heq⟩ | ⟨hnone, name, heq⟩ := ih (h.run c) hs
      · cases ht : lx.states[i]? with
        | some t =>
            rw [c.getElem?_run ht] at ht'
            obtain rfl := Option.some.inj ht'
            exact .inl ⟨t, rfl, heq⟩
        | none =>
            -- the command declares the lexical state, and the calls on it begin behind
            rw [c.callsOn_of_undeclared h.coherent ht]
            obtain ⟨-, name, rfl⟩ | ⟨t, ht₀, -⟩ := c.state_cases ht'
            · exact .inr ⟨rfl, name, heq⟩
            · exact absurd (ht.symm.trans ht₀) nofun
      · cases ht : lx.states[i]? with
        | some t => exact absurd (hnone.symm.trans (c.getElem?_run ht)) nofun
        | none =>
            rw [c.callsOn_of_undeclared h.coherent ht]
            exact .inr ⟨rfl, name, heq⟩

/-- A lexical state of a lexer is what the calls of its history have made of a new one. -/
theorem eq_foldl_callsOn (config : Config) (commands : List Command)
    (hs : (commands.foldl Command.run (new config)).states[i]? = some s) :
    s = (callsOn i (new config) commands).foldl Call.run (.new s.name s.isDefault) := by
  have hnew : ∀ t : LexicalState, t = .new t.name t.isDefault →
      s = (callsOn i (new config) commands).foldl Call.run t → t = .new s.name s.isDefault := by
    intro t ht heq
    have hkept := Call.foldl_keeps (callsOn i (new config) commands)
      (P := fun u => u.name = t.name ∧ u.isDefault = t.isDefault)
      (fun c _ u hu => ⟨(c.identity_run u).1.trans hu.1, (c.identity_run u).2.trans hu.2⟩)
      (s := t) ⟨rfl, rfl⟩
    rw [← heq] at hkept
    rw [hkept.1, hkept.2]
    exact ht
  obtain ⟨t, ht, heq⟩ | ⟨-, name, heq⟩ := (Reachable.new config).foldl_callsOn commands hs
  · obtain rfl := eq_new_of_getElem? ht
    exact hnew _ rfl heq ▸ heq
  · exact hnew _ rfl heq ▸ heq

end Lexer

end ScannerTables
