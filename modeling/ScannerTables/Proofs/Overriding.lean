import ScannerTables.Proofs.Evolution
import ScannerTables.Proofs.Tokenization
/-!
# Overridden tokens

A token that is overridden is left out of every plan that is made from then on. What was built
before is not undone: a lexical state that is processed stays as it is, and the states that a failed
attempt left stay as well. So it is in the lexical states where nothing had been built of a token
that overriding keeps it away for good, and there no later command brings it back.
-/

namespace ScannerTables

open Checked

/-- A token that is registered and marked as overridden. -/
def TokenRegistry.Overrides (r : TokenRegistry) (token : Nat) : Prop :=
  ∃ d, r.get? token = some d ∧ d.overridden = true

namespace LexicalState

variable {s s' : LexicalState} {r : TokenRegistry} {config : Config} {token : Nat}
variable {ignoreCase : Bool} {text : List Char} {m : ScanMatch}

/-! ### What a match was built for -/

/-- The token of a match is that of some state. -/
theorem exists_state_of_longestMatch (h : s.scanner.longestMatch text = some m) :
    ∃ i t, s.automaton.state? i = some t ∧ t.token = some m.token := by
  obtain ⟨i, ms, hms, mem, hmem, haccepts⟩ := Scanner.exists_member_of_longestMatch h
  rw [scanner, List.getElem?_toArray, List.getElem?_map, Option.map_eq_some_iff] at hms
  obtain ⟨c, -, rfl⟩ := hms
  obtain ⟨id, -, rfl⟩ := List.mem_map.mp hmem
  rw [scannerMember] at haccepts
  split at haccepts
  · obtain ⟨t, ht, htoken⟩ := Option.bind_eq_some_iff.mp haccepts
    exact ⟨id, t, ht, htoken⟩
  · exact absurd haccepts (by simp)

theorem longestMatch_eq_none_of_dispatch (h : s.dispatch = none) :
    s.scanner.longestMatch text = none := by
  rw [Scanner.longestMatch, scanner, reachable, h]
  rfl

/-- Nothing of what was built so far matches a token: a scanner does not answer with it, or as long
as there is none yet, the automaton accepts no word for it. -/
def Silent (s : LexicalState) (token : Nat) : Prop :=
  if s.isProcessed then ∀ text m, s.scanner.longestMatch text = some m → m.token ≠ token
  else ∀ w, ¬ s.automaton.Accepts initialState token w

theorem silent_iff_of_dispatch_none (h : s.dispatch = none) :
    s.Silent token ↔ ∀ w, ¬ s.automaton.Accepts initialState token w := by
  rw [Silent, isProcessed, h]
  exact Iff.rfl

theorem silent_iff_of_dispatch_ne_none (h : s.dispatch ≠ none) :
    s.Silent token ↔ ∀ text m, s.scanner.longestMatch text = some m → m.token ≠ token := by
  rw [Silent, isProcessed, if_pos (Option.isSome_iff_ne_none.mpr h)]

/-- Where nothing was built that matches a token, no match answers with it. -/
theorem Silent.token_ne (h : s.Silent token) (hm : s.scanner.longestMatch text = some m) :
    m.token ≠ token := by
  by_cases hdispatch : s.dispatch = none
  · rw [longestMatch_eq_none_of_dispatch hdispatch] at hm
    exact absurd hm (by simp)
  · exact (silent_iff_of_dispatch_ne_none hdispatch).mp h text m hm

/-- Where a token does not count as built, nothing matches it. -/
theorem Accounted.silent (h : s.Accounted) (hbuilt : token ∉ s.built) : s.Silent token := by
  by_cases hdispatch : s.dispatch = none
  · rw [silent_iff_of_dispatch_none hdispatch]
    rintro w ⟨q, t, -, ht, -, htoken⟩
    exact hbuilt (h.mem_of_token q t ht token htoken)
  · rw [silent_iff_of_dispatch_ne_none hdispatch]
    rintro text m hm rfl
    obtain ⟨i, t, ht, htoken⟩ := exists_state_of_longestMatch hm
    exact hbuilt (h.mem_of_token i t ht m.token htoken)

/-! ### Steps after a token was overridden -/

theorem not_mem_plan (h : r.Overrides token) :
    (token, ignoreCase) ∉ tokensOf (s.plan r config) := by
  obtain ⟨d, hd, hover⟩ := h
  rw [mem_plan_iff]
  rintro ⟨d', hd', hover', -⟩
  obtain rfl := Option.some.inj (hd.symm.trans hd')
  exact absurd (hover.symm.trans hover') Bool.noConfusion

/-- What processing makes of a lexical state when a token is overridden: the token is not counted as
built, and nothing that matches it is built. -/
theorem process_overridden (h : s.Called) (hover : r.Overrides token) :
    (token ∉ s.built → token ∉ (final (process r config) s).built) ∧
      (s.Silent token → (final (process r config) s).Silent token) := by
  cases hdispatch : s.dispatch with
  | some d =>
      rw [process_eq, final_get_bind, isProcessed, hdispatch]
      exact ⟨id, id⟩
  | none =>
      obtain ⟨L, hL⟩ := h.kept.assembled hdispatch
      obtain ⟨done, t, hattempt, hcases⟩ := process_cases r config hdispatch hL
      have ht := hattempt.assembled L hL
      have hbuilt : token ∉ s.built → token ∉ t.built := by
        intro hs hmem
        rcases hattempt.built_of_mem token hmem with hmem | ⟨ignoreCase, hmem⟩
        · exact hs hmem
        · exact not_mem_plan hover hmem
      have hwords : s.Silent token →
          ∀ w, ¬ (L token w ∨ Matching r (tokensOf done) token w) := by
        rintro hsilent w (hw | ⟨ignoreCase, d, hmem, -⟩)
        · exact (silent_iff_of_dispatch_none hdispatch).mp hsilent w
            ((hL.accepts_iff token w).mpr hw)
        · exact not_mem_plan hover ((hattempt.done_prefix.sublist.filterMap _).subset hmem)
      rcases hcases with ⟨⟨e, herror⟩, -⟩ | ⟨-, s', hgen, hok⟩
      · rw [final, herror]
        have hnone : t.dispatch = none := by
          obtain ⟨_, _, _, rfl⟩ := hattempt.rest
          exact hdispatch
        refine ⟨hbuilt, fun hsilent => (silent_iff_of_dispatch_none hnone).mpr fun w hw => ?_⟩
        exact hwords hsilent w ((ht.accepts_iff token w).mp hw)
      · rw [final_eq_of_eq_ok hok]
        have hlongest := (generates_of_generate hgen).of_reported.longestOf_longestMatch ht
        obtain ⟨automaton, composites, d, rfl⟩ := exists_eq_of_generate hgen
        refine ⟨hbuilt, fun hsilent => (silent_iff_of_dispatch_ne_none ?_).mpr ?_⟩
        · exact Option.some_ne_none d
        · rintro text m hm rfl
          have hmatch := hlongest text
          rw [hm] at hmatch
          obtain ⟨_, -, -, -, ⟨hword, -⟩, -⟩ := hmatch
          exact hwords hsilent _ hword

theorem Step.overridden (h : Step r config s s') (hs : s.Called) (hover : r.Overrides token) :
    (token ∉ s.built → token ∉ s'.built) ∧ (s.Silent token → s'.Silent token) := by
  rcases h.cases with ⟨_, _, _, _, rfl⟩ | rfl
  · exact ⟨id, id⟩
  · exact process_overridden hs hover

end LexicalState

namespace Lexer

variable {lx : Lexer} {token : Nat}

/-! ### Commands after a token was overridden -/

theorem Command.overrides (c : Command) (h : lx.registry.Overrides token) :
    (c.run lx).registry.Overrides token := by
  obtain ⟨d, hd, hover⟩ := h
  rcases c.registers lx with ⟨d', heq, -⟩ | ⟨-, hrevises⟩
  · rw [heq]
    exact ⟨d, (TokenRegistry.extends_register d').get?_eq token d hd, hover⟩
  · obtain ⟨d', hd', -, hover', -⟩ := hrevises.definition token d hd
    exact ⟨d', hd', hover' hover⟩

/-- What new lexical states have and steps keep while a token is overridden, lexical states that are
new since then have, and others if they had it. -/
theorem forall_state_of_overrides {P : LexicalState → Prop} (hnew : ∀ name, P (.new name false))
    (hstep : ∀ (r : TokenRegistry) (config : Config) (s s' : LexicalState), r.Overrides token →
      s.Called → LexicalState.Step r config s s' → P s → P s')
    (h : lx.Reachable) (hover : lx.registry.Overrides token) (commands : List Command) {i : Nat}
    {s' : LexicalState} (hs' : (commands.foldl Command.run lx).states[i]? = some s')
    (hP : ∀ s, lx.states[i]? = some s → P s) : P s' := by
  induction commands generalizing lx with
  | nil => exact hP s' hs'
  | cons c commands ih =>
      refine ih (h.run c) (c.overrides hover) hs' fun s₁ hs₁ => ?_
      rcases c.state_cases hs₁ with ⟨-, name, rfl⟩ | ⟨s, hs, hevolves⟩
      · exact hnew name
      · exact (hevolves.keeps (h.called hs)
          (fun s s' hcalled hstep' => hstep _ _ s s' hover hcalled hstep') (hP s hs)).2

theorem overrides_setOverridden (h : (lx.registry.get? token).isSome) :
    (lx.setOverridden token).registry.Overrides token := by
  obtain ⟨d, hd⟩ := Option.isSome_iff_exists.mp h
  refine ⟨{ d with overridden := true }, ?_, rfl⟩
  rw [TokenRegistry.get?] at hd
  rw [TokenRegistry.get?, setOverridden, TokenRegistry.modify, Array.getElem?_modify, if_pos rfl,
    hd, Option.map_some]

/-- A token that is overridden while it is registered is not built from then on, whatever commands
follow and whether they fail. It does not come to count as built in a lexical state, old or new,
where it did not before; no match answers with it in a lexical state where nothing was built before
that matches it; and if there is nothing of the kind in any lexical state, no text has it among its
tokens. -/
theorem setOverridden_lasting (lx : Lexer) (token : Nat) (commands : List Command)
    (h : lx.Reachable) (hregistered : (lx.registry.get? token).isSome) :
    let lx' := commands.foldl Command.run (lx.setOverridden token)
    (∀ (i : Nat) (s' : LexicalState), lx'.states[i]? = some s' →
      ((∀ s, lx.states[i]? = some s → token ∉ s.built) → token ∉ s'.built) ∧
      ((∀ s, lx.states[i]? = some s → s.Silent token) →
        ∀ text m, s'.scanner.longestMatch text = some m → m.token ≠ token)) ∧
    ((∀ (i : Nat) (s : LexicalState), lx.states[i]? = some s → s.Silent token) →
      ∀ text, ∀ t ∈ (lx'.tokenize text).tokens, t.token ≠ token) ∧
    ∀ (i : Nat) (s : LexicalState), lx.states[i]? = some s → token ∉ s.built → s.Silent token := by
  have hset : (lx.setOverridden token).Reachable := h.run (.setOverridden token)
  have hover := overrides_setOverridden hregistered
  have hbuilt := @forall_state_of_overrides (lx.setOverridden token) token (token ∉ ·.built)
    (fun _ => IntervalSet.not_mem_empty)
    (fun _ _ _ _ hover hcalled hstep => (hstep.overridden hcalled hover).1) hset hover commands
  have hsilent := @forall_state_of_overrides (lx.setOverridden token) token (·.Silent token)
    (fun name => (LexicalState.Accounted.new name false).silent IntervalSet.not_mem_empty)
    (fun _ _ _ _ hover hcalled hstep => (hstep.overridden hcalled hover).2) hset hover commands
  refine ⟨fun i s' hs' => ⟨hbuilt hs', fun hs _ _ hm => (hsilent hs' hs).token_ne hm⟩, ?_, ?_⟩
  · intro hall text t ht
    have hreachable := hset.foldl commands
    obtain ⟨q, stop, rest, hsplits, -⟩ := splits_tokenizeFrom hreachable.coherent
      hreachable.coherent.states_pos 0 text.toList
    obtain ⟨i, s', _, m, hs', hm, heq⟩ := hsplits.exists_match ht
    exact heq ▸ (hsilent hs' (hall i)).token_ne hm
  · exact fun i s hs => (h.accounted hs).silent

/-- `x` is listed behind a token whose building fails, so it is not built yet when it is overridden,
and never is. -/
theorem setOverridden_lasting_retried : ∃ (lx : Lexer) (commands : List Command)
    (s' : LexicalState), lx.Reachable ∧ (lx.registry.get? 2).isSome ∧
      (commands.foldl Command.run (lx.setOverridden 2)).states[0]? = some s' ∧
        s'.isProcessed = true ∧ 2 ∉ s'.built ∧
          (∀ text m, s'.scanner.longestMatch text = some m → m.token ≠ 2) ∧
          ∀ text, ∀ t ∈ ((commands.foldl Command.run (lx.setOverridden 2)).tokenize text).tokens,
            t.token ≠ 2 := by
  let declared : List Command := [
    .addDefinition { pattern := .reference "A" }, .addDefinition (.ofLiteral "x"),
    .addTokenProduction { specs := [{ token := 1 }, { token := 2 }] }, .build]
  let lx := declared.foldl Command.run (new {})
  let commands : List Command :=
    [.addDefinition { label := some "A", pattern := .literal "a" }, .build]
  have hreachable : lx.Reachable := (Reachable.new {}).foldl declared
  obtain ⟨hregistered, hbuilt, hprocessed⟩ : (lx.registry.get? 2).isSome = true ∧
      lx.states.all (2 ∉ ·.built) = true ∧
      ((commands.foldl Command.run (lx.setOverridden 2)).states[0]?.any
        (·.isProcessed)) = true := by
    dsimp only [commands, lx, declared]
    cbv
  have hunbuilt : ∀ (i : Nat) (s : LexicalState), lx.states[i]? = some s → 2 ∉ s.built := by
    intro i s hs
    obtain ⟨hi, rfl⟩ := Array.getElem?_eq_some_iff.mp hs
    simpa using Array.all_eq_true.mp hbuilt i hi
  obtain ⟨s', hs', hprocessed⟩ := (Option.any_eq_true _ _).mp hprocessed
  obtain ⟨hstates, htokens, hsilent⟩ :=
    setOverridden_lasting lx 2 commands hreachable hregistered
  obtain ⟨hbuilt', hmatch⟩ := hstates 0 s' hs'
  exact ⟨lx, commands, s', hreachable, hregistered, hs', hprocessed, hbuilt' (hunbuilt 0),
    hmatch fun s hs => hsilent 0 s hs (hunbuilt 0 s hs),
    htokens fun i s hs => hsilent i s hs (hunbuilt i s hs)⟩

/-- Overriding comes too late for a lexical state that a failed build has processed, and too early
for a token that is not registered yet: either is built by the first build that succeeds. -/
theorem built_despite_setOverridden :
    let declared := [Command.addLexicalState "IN", .addDefinition (.ofLiteral "x"),
      .addDefinition { pattern := .reference "A" },
      .addTokenProduction { specs := [{ token := 1 }] },
      .addTokenProduction { lexicalStates := ["IN"], specs := [{ token := 2 }] }].foldl
        Command.run (new {})
    let late := (Command.addDefinition { label := some "A", pattern := .literal "a" }).run
      ((Command.build.run declared).setOverridden 1)
    let early := [Command.addDefinition (.ofLiteral "x"),
      .addTokenProduction { specs := [{ token := 1 }] }].foldl Command.run
        ((new {}).setOverridden 1)
    (succeeds build declared = false ∧ succeeds build late = true) ∧ succeeds build early = true ∧
      ∀ lx ∈ [Command.build.run late, Command.build.run early],
        (lx.states[0]?.any fun s => decide (1 ∈ s.built)) = true ∧
          (lx.states[0]?.bind (·.scanner.longestMatch ['x'])) = some { token := 1, length := 1 } ∧
            (lx.tokenize "x").tokens.map (·.token) = [1] := by
  intro declared late early
  rw [List.forall_mem_cons, List.forall_mem_singleton]
  dsimp only [late, early, declared]
  cbv

end Lexer

end ScannerTables
