import ScannerTables.Proofs.Declarations
import ScannerTables.Proofs.Resumption
import ScannerTables.Proofs.Tokenization
/-!
# Builds that are retried

A build that fails may be repeated once the missing definitions and lexical states are declared.
`Retried` are the lexers with such a history. Each of them is what its declarations alone make, but
for what the failures left in its lexical states, and a build that succeeds has the same outcome as
if it had been the first: lexical states that agree in tokens, switches, warnings and matches, and
so the same tokens for every text.
-/

namespace ScannerTables.Lexer

open Checked

variable {clean lx lx' : Lexer} {commands : List Command} {name : String} {q token : Nat}

/-! ### Declarations alone -/

theorem succeeds_addLexicalState :
    succeeds (addLexicalState name) lx = (lx.stateIndex? name).isNone := by
  rw [addLexicalState, succeeds_get_bind]
  cases lx.stateIndex? name <;> rfl

/-- Declarations make one lexer, given the configuration. -/
theorem Declared.eq_foldl (h : Declared commands lx) :
    commands.foldl Command.run (Lexer.new lx.config) = lx := by
  induction h with
  | new config => rfl
  | run _ c hc ih => rw [List.foldl_append, config_run hc, ih, List.foldl_cons, List.foldl_nil]

/-! ### Histories with builds that fail -/

/-- The lexers that successful declarations and builds that fail make, with the declarations in
their order. After the first failure there are only definitions and lexical states to declare. -/
inductive Retried : List Command → Lexer → Prop
  | declared {commands : List Command} {lx : Lexer} (h : Declared commands lx) : Retried commands lx
  | build {commands : List Command} {lx : Lexer} (h : Retried commands lx)
      (hfails : succeeds Lexer.build lx = false) : Retried commands (Command.build.run lx)
  | addDefinition {commands : List Command} {lx : Lexer} (h : Retried commands lx)
      (d : TokenDefinition) :
      Retried (commands ++ [.addDefinition d]) ((Command.addDefinition d).run lx)
  | addLexicalState {commands : List Command} {lx : Lexer} (h : Retried commands lx) (name : String)
      (hok : (Command.addLexicalState name).declares lx = true) :
      Retried (commands ++ [.addLexicalState name]) ((Command.addLexicalState name).run lx)

/-- A lexer as its declarations alone make it, and one with what failed builds left. -/
structure Settled (clean lx : Lexer) : Prop where
  rest : ∃ states, lx = { clean with states := states }
  states : List.Forall₂ (fun s₀ s => s₀.Settled s clean.registry clean.config)
    clean.states.toList lx.states.toList

namespace Settled

theorem refl (h : lx.Registered) : lx.Settled lx where
  rest := ⟨_, rfl⟩
  states := by
    refine List.forall₂_same.mpr fun s hs => ?_
    obtain ⟨i, hi⟩ := Array.mem_iff_getElem?.mp (Array.mem_toList_iff.mp hs)
    obtain ⟨hunbuilt, hregistered⟩ := h i s hi
    exact .refl hunbuilt hregistered

theorem stateIndex?_eq (h : clean.Settled lx) : clean.stateIndex? = lx.stateIndex? := by
  obtain ⟨states, rfl⟩ := h.rest
  rfl

/-- Targets of switches are declared in both lexers or in neither. -/
theorem checkTargets_eq (h : clean.Settled lx) : clean.checkTargets = lx.checkTargets := by
  have hindex : clean.stateIndex = lx.stateIndex := by
    funext name
    rw [stateIndex, stateIndex, h.stateIndex?_eq]
  obtain ⟨states, heq⟩ := h.rest
  rw [checkTargets, checkTargets, hindex, switchTargets, switchTargets, heq]

theorem addDefinition (h : clean.Settled lx) (d : TokenDefinition) :
    (clean.addDefinition d).2.Settled (lx.addDefinition d).2 where
  rest := by
    obtain ⟨states, rfl⟩ := h.rest
    exact ⟨states, rfl⟩
  states := h.states.imp fun _ _ hs => hs.mono (TokenRegistry.extends_register d)

/-- A lexical state that is declared late is not different from the others. -/
theorem addLexicalState (h : clean.Settled lx) (name : String) :
    (final (Lexer.addLexicalState name) clean).Settled
      (final (Lexer.addLexicalState name) lx) := by
  rw [final_addLexicalState, final_addLexicalState, h.stateIndex?_eq]
  split
  · exact h
  · have hsize : clean.states.size = lx.states.size := by simpa using h.states.length_eq
    obtain ⟨states, rfl⟩ := h.rest
    refine ⟨⟨_, by rw [hsize]⟩, ?_⟩
    rw [Array.toList_push, Array.toList_push]
    exact List.rel_append h.states (.cons (.refl ⟨rfl, rfl⟩ (.new name false)) .nil)

theorem processAll {r : TokenRegistry} {config : Config} {l₀ l : List LexicalState}
    (h : List.Forall₂ (fun s₀ s => s₀.Settled s r config) l₀ l) :
    List.Forall₂ (fun s₀ s => s₀.Settled s r config) l₀ (Lexer.processAll r config l).1 := by
  induction h with
  | nil => exact .nil
  | @cons s₀ s l₀ l hs hl ih =>
      have hprocessed := hs.final_process
      rw [Lexer.processAll]
      rw [final] at hprocessed
      cases hprocess : LexicalState.process r config s with
      | error e t =>
          rw [hprocess] at hprocessed
          exact .cons hprocessed hl
      | ok _ t =>
          rw [hprocess] at hprocessed
          exact .cons hprocessed ih

/-- A build that fails changes at most the lexical states. -/
theorem build (h : clean.Settled lx) (hfails : succeeds Lexer.build lx = false) :
    clean.Settled (final Lexer.build lx) := by
  obtain ⟨states, heq⟩ := h.rest
  have hprocessed : clean.Settled { lx with
      states := (Lexer.processAll lx.registry lx.config lx.states.toList).1.toArray } := by
    refine ⟨⟨_, by rw [heq]⟩, ?_⟩
    have hstates := processAll h.states
    rw [heq] at hstates ⊢
    exact hstates
  rw [Lexer.build, final_get_bind]
  rw [Lexer.build, succeeds_get_bind] at hfails
  cases hchecked : lx.checkTargets with
  | error e => exact h
  | ok _ =>
      rw [hchecked] at hfails
      dsimp only at hfails ⊢
      rw [succeeds_set_bind] at hfails
      rw [final_set_bind]
      cases hfailure : (Lexer.processAll lx.registry lx.config lx.states.toList).2 with
      | some e => exact hprocessed
      | none =>
          rw [hfailure] at hfails
          exact absurd hfails Bool.true_eq_false.mp

end Settled

theorem Retried.exists_settled (h : Retried commands lx) : ∃ clean, Declared commands clean ∧
    clean.config = lx.config ∧ clean.Settled lx := by
  induction h with
  | declared h => exact ⟨_, h, rfl, .refl h.registered⟩
  | build _ hfails ih =>
      obtain ⟨clean, hdeclared, hconfig, hsettled⟩ := ih
      have hbuilt := hsettled.build hfails
      obtain ⟨states, heq⟩ := hbuilt.rest
      exact ⟨clean, hdeclared, by rw [Command.run, heq], hbuilt⟩
  | addDefinition _ d ih =>
      obtain ⟨clean, hdeclared, hconfig, hsettled⟩ := ih
      exact ⟨_, hdeclared.run (.addDefinition d) rfl, hconfig, hsettled.addDefinition d⟩
  | addLexicalState _ name hok ih =>
      obtain ⟨clean, hdeclared, hconfig, hsettled⟩ := ih
      have hok' : (Command.addLexicalState name).declares clean = true := by
        rwa [Command.declares, succeeds_addLexicalState, hsettled.stateIndex?_eq,
          ← succeeds_addLexicalState]
      exact ⟨_, hdeclared.run _ hok', by rw [config_run hok', config_run hok, hconfig],
        hsettled.addLexicalState name⟩

/-! ### The same tokens -/

/-- Tokens depend on the matches, switches and names of lexical states and on the productions. -/
theorem tokenizeFrom_congr {scanners scanners' : Array Scanner}
    (hmatch : ∀ q text, nextMatch? scanners q text = nextMatch? scanners' q text)
    (hafter : ∀ q token, lx.stateAfter q token = lx'.stateAfter q token)
    (hname : ∀ q, lx.stateName? q = lx'.stateName? q) (hkind : lx.tokenKind? = lx'.tokenKind?)
    (q offset : Nat) (text : List Char) :
    lx.tokenizeFrom scanners q offset text = lx'.tokenizeFrom scanners' q offset text := by
  induction q, offset, text using tokenizeFrom_induction lx scanners with
  | nil q offset => rw [tokenizeFrom_nil, tokenizeFrom_nil]
  | fault q offset text hne hnone =>
      have hnone' := (hmatch q text).symm.trans hnone
      rw [tokenizeFrom_of_eq_none hne hnone, tokenizeFrom_of_eq_none hne hnone', hname]
  | token q offset word text m hm hword hlength ih =>
      have hm' := (hmatch q (word ++ text)).symm.trans hm
      rw [tokenizeFrom_append hm hword hlength, tokenizeFrom_append hm' hword hlength]
      dsimp only
      rw [ih, hkind, hafter]

section

variable {α : Type}

theorem map_getElem?_eq {f : LexicalState → α}
    (h : List.Forall₂ LexicalState.Agrees lx.states.toList lx'.states.toList)
    (hf : ∀ s s', s.Agrees s' → f s = f s') (q : Nat) :
    lx.states[q]?.map f = lx'.states[q]?.map f := by
  have hmap : lx.states.toList.map f = lx'.states.toList.map f :=
    List.forall₂_eq_eq_eq ▸ List.rel_map (P := Eq) hf h
  rw [← Array.getElem?_toList, ← Array.getElem?_toList, ← List.getElem?_map, hmap,
    List.getElem?_map]

theorem bind_getElem?_eq {f : LexicalState → Option α}
    (h : List.Forall₂ LexicalState.Agrees lx.states.toList lx'.states.toList)
    (hf : ∀ s s', s.Agrees s' → f s = f s') (q : Nat) :
    lx.states[q]?.bind f = lx'.states[q]?.bind f :=
  calc lx.states[q]?.bind f
    _ = (lx.states[q]?.map f).bind id := (Option.bind_map (g := id)).symm
    _ = (lx'.states[q]?.map f).bind id := by rw [map_getElem?_eq h hf]
    _ = lx'.states[q]?.bind f := Option.bind_map (g := id)

end

/-- Lexers whose lexical states agree split every text alike. -/
theorem tokenize_congr (hpositions : lx.positions = lx'.positions)
    (hproductions : lx.productions = lx'.productions)
    (h : List.Forall₂ LexicalState.Agrees lx.states.toList lx'.states.toList) (text : String) :
    lx.tokenize text = lx'.tokenize text := by
  refine tokenizeFrom_congr ?_ ?_ ?_ ?_ 0 0 text.toList
  · intro q text
    rw [nextMatch?, nextMatch?, Array.getElem?_map, Array.getElem?_map, Option.bind_map,
      Option.bind_map]
    exact congrArg _ (bind_getElem?_eq h (fun _ _ hs => hs.longestMatch_eq text) q)
  · intro q token
    rw [stateAfter, stateAfter, stateIndex?_eq_of_positions hpositions,
      bind_getElem?_eq h (fun _ _ hs => hs.newLexicalState?_eq token)]
  · exact map_getElem?_eq h fun _ _ hs => hs.name_eq
  · funext token
    rw [tokenKind?, tokenKind?, hproductions]

/-! ### The same outcome -/

/-- Where lexical states can be processed after failures, they can be so at the first attempt. -/
theorem exists_forall₂_process {r : TokenRegistry} {config : Config} {l₀ l l' : List LexicalState}
    (h : List.Forall₂ (fun s₀ s => s₀.Settled s r config) l₀ l)
    (hok : List.Forall₂ (fun s s' => LexicalState.process r config s = .ok () s') l l') :
    ∃ l₁, List.Forall₂ (fun s s' => LexicalState.process r config s = .ok () s') l₀ l₁ ∧
      List.Forall₂ LexicalState.Agrees l₁ l' := by
  induction h generalizing l' with
  | nil =>
      obtain rfl := List.forall₂_nil_left_iff.mp hok
      exact ⟨[], .nil, .nil⟩
  | cons hs _ ih =>
      obtain ⟨s', rest, hs', hrest, rfl⟩ := List.forall₂_cons_left_iff.mp hok
      obtain ⟨s₁, hs₁, hagrees⟩ := hs.exists_process hs'
      obtain ⟨l₁, hl₁, hall⟩ := ih hrest
      exact ⟨s₁ :: l₁, .cons hs₁ hl₁, .cons hagrees hall⟩

/-- A build that succeeds after failures succeeds as well on the lexer that its declarations alone
make. -/
theorem Settled.exists_build (h : clean.Settled lx) (hok : Lexer.build lx = .ok () lx') :
    ∃ clean', Lexer.build clean = .ok () clean' ∧ clean'.positions = lx'.positions ∧
      clean'.productions = lx'.productions ∧
      List.Forall₂ LexicalState.Agrees clean'.states.toList lx'.states.toList := by
  obtain ⟨hchecked, states, hprocess, rfl⟩ := build_eq_ok.mp hok
  have hchecked' := h.checkTargets_eq.trans hchecked
  obtain ⟨_, rfl⟩ := h.rest
  obtain ⟨states₁, hprocess₁, hagrees⟩ := exists_forall₂_process h.states hprocess
  exact ⟨_, build_eq_ok.mpr ⟨hchecked', states₁, hprocess₁, rfl⟩, rfl, rfl, hagrees⟩

/-- A failed build can be retried without changing the result. If a build succeeds after any number
of builds that failed, so does the only build of the lexer with the same declarations; then both
split every text into the same tokens, give the same warnings, and have the same lexical states in
the same order, as far as names, built tokens, switches, warnings and matches go. -/
theorem build_retried (commands : List Command) (lx lx' : Lexer) (h : Retried commands lx)
    (hok : build lx = .ok () lx') :
    Declared commands (commands.foldl Command.run (new lx.config)) ∧
      ∃ clean', build (commands.foldl Command.run (new lx.config)) = .ok () clean' ∧
        (∀ text, clean'.tokenize text = lx'.tokenize text) ∧ clean'.warnings = lx'.warnings ∧
          List.Forall₂ LexicalState.Agrees clean'.states.toList lx'.states.toList := by
  obtain ⟨clean, hdeclared, hconfig, hsettled⟩ := h.exists_settled
  have hclean : commands.foldl Command.run (new lx.config) = clean := by
    rw [← hconfig, hdeclared.eq_foldl]
  rw [hclean]
  obtain ⟨clean', hok', hpositions, hproductions, hagrees⟩ := hsettled.exists_build hok
  refine ⟨hdeclared, clean', hok', tokenize_congr hpositions hproductions hagrees, ?_, hagrees⟩
  obtain ⟨-, states, -, rfl⟩ := build_eq_ok.mp hok
  obtain ⟨-, states', -, rfl⟩ := build_eq_ok.mp hok'
  have hwarnings : states'.map LexicalState.warnings = states.map LexicalState.warnings :=
    List.forall₂_eq_eq_eq ▸ List.rel_map (P := Eq) (fun _ _ hs => hs.warnings_eq) hagrees
  dsimp only
  rw [List.flatMap_def, hwarnings, List.flatMap_def]

/-- A target and then a label are missing. What the failures left makes the automaton larger, and
`abx` is split as it would have been without them. -/
theorem build_retried_undeclared : ∃ (commands : List Command) (lx lx' clean' : Lexer),
    Retried commands lx ∧ build lx = .ok () lx' ∧
      build (commands.foldl Command.run (new lx.config)) = .ok () clean' ∧
        clean'.tokenize "abx" = lx'.tokenize "abx" ∧
          (lx'.tokenize "abx").tokens.map (·.token) = [2, 1] ∧
            clean'.states.toList.map (·.automaton.size) = [9, 1] ∧
              lx'.states.toList.map (·.automaton.size) = [13, 1] := by
  let commands : List Command := [
    .addDefinition (.ofLiteral "x"),
    .addDefinition { pattern := .sequence [.reference "A", .literal "b"] },
    .addTokenProduction { specs := [{ token := 1, next := some "IN" }, { token := 2 }] }]
  let declared := commands.foldl Command.run (new {})
  let failed := Command.build.run declared
  let added := (Command.addLexicalState "IN").run failed
  let failed' := Command.build.run added
  let missing : TokenDefinition := { label := some "A", pattern := .literal "a" }
  let defined := (Command.addDefinition missing).run failed'
  let all : List Command := commands ++ [.addLexicalState "IN"] ++ [.addDefinition missing]
  have hdeclared : Declared commands declared :=
    (((Declared.new {}).run (.addDefinition _) rfl).run (.addDefinition _) rfl).run
      (.addTokenProduction _) (by cbv)
  obtain ⟨hfails, hadds, hfails', hsucceeds, hmatched, hclean_sizes, hsizes⟩ :
      succeeds build declared = false ∧ succeeds (addLexicalState "IN") failed = true ∧
      succeeds build added = false ∧ succeeds build defined = true ∧
      ((final build defined).tokenize "abx").tokens.map (·.token) = [2, 1] ∧
      (final build (all.foldl Command.run (new defined.config))).states.toList.map
        (·.automaton.size) = [9, 1] ∧
      (final build defined).states.toList.map (·.automaton.size) = [13, 1] := by
    dsimp only [all, defined, missing, failed', added, failed, declared, commands]
    cbv
  have hretried : Retried all defined :=
    ((((Retried.declared hdeclared).build hfails).addLexicalState "IN" hadds).build
      hfails').addDefinition _
  obtain ⟨⟨⟩, hok⟩ := eq_ok_of_succeeds hsucceeds
  obtain ⟨-, clean', hclean, htokens, -⟩ := build_retried _ _ _ hretried hok
  rw [final_eq_of_eq_ok hclean] at hclean_sizes
  exact ⟨_, _, _, clean', hretried, hok, hclean, htokens "abx", hmatched, hclean_sizes, hsizes⟩

end ScannerTables.Lexer
