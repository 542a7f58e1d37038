import ScannerTables.Proofs.Calls
import ScannerTables.Proofs.DistinctLabels
import ScannerTables.Proofs.Overriding
/-!
# Kinds of tokens

There are two accounts of the kind of a token. The sets of tokens by kind go through all productions
of a kind, with the tokens that no production lists among those for the parser; the kind that is
reported with a token of a text is that of the first production that lists it. `mem_tokensFor` puts
the sets in terms of productions, from which it follows that they cover what may be built and that
the two accounts agree on it.

That a token of a text may be built is a matter of the history: it counts as built, and unless
tokens are overridden, what counts as built and what waits to be built may be built (`Standing`).
-/

namespace ScannerTables

open Checked

/-! ### What commands keep of definitions -/

/-- The same definitions but for labels and targets. -/
def TokenRegistry.KeepsMarks (r r' : TokenRegistry) : Prop := ∀ token d, r.get? token = some d →
  ∃ label newLexicalState, r'.get? token = some { d with label, newLexicalState }

namespace TokenRegistry.KeepsMarks

variable {r : TokenRegistry}

theorem refl : r.KeepsMarks r := fun _ d hd => ⟨d.label, d.newLexicalState, hd⟩

theorem register (d : TokenDefinition) : r.KeepsMarks (r.register d) := fun token d' hd' =>
  ⟨d'.label, d'.newLexicalState, (extends_register d).get?_eq token d' hd'⟩

theorem ensureLabels {u : IdentifierClasses}
    (h : ∀ token d, r.get? token = some d → d.ordinal = token) :
    r.KeepsMarks (r.ensureLabels u) := by
  intro token d hd
  refine ⟨r.finalLabel u token d, d.newLexicalState, ?_⟩
  rw [get?_ensureLabels h, hd, Option.map_some]

end TokenRegistry.KeepsMarks

namespace Lexer

open LexicalState (Call)

variable {lx : Lexer} {i token : Nat} {kind : TokenKind} {s : LexicalState}

theorem keepsMarks_recordTargets : lx.registry.KeepsMarks lx.recordTargets := by
  intro token d hd
  rw [get?_recordTargets, hd, Option.map_some]
  cases lx.targetsOf token with
  | nil => exact ⟨d.label, d.newLexicalState, rfl⟩
  | cons target others => exact ⟨d.label, _, rfl⟩

/-- Only a command that overrides a token changes more of a definition than label and target. -/
theorem Reachable.keepsMarks_run (h : lx.Reachable) {c : Command}
    (hc : ∀ token, c ≠ .setOverridden token) : lx.registry.KeepsMarks (c.run lx).registry := by
  cases c with
  | addLexicalState name =>
      rw [Command.run, final_addLexicalState]
      split <;> exact .refl
  | addDefinition d => exact .register d
  | addTokenProduction p =>
      rw [Command.run, registry_addTokenProduction]
      exact .refl
  | addImplicitLiteral state image =>
      obtain heq | heq := @registry_addImplicitLiteral lx state image <;> rw [Command.run, heq]
      · exact .refl
      · exact .register _
  | setOverridden token => exact absurd rfl (hc token)
  | ensureLabels u => exact .ensureLabels fun _ _ => h.ordinal_eq
  | build =>
      obtain heq | ⟨lx', hregistry, -, heq⟩ := @registry_build lx <;> rw [Command.run, heq]
      · exact .refl
      · exact hregistry ▸ keepsMarks_recordTargets

theorem isBuildable_iff : lx.isBuildable token = true ↔
    ∃ d, lx.registry.get? token = some d ∧ d.isPrivate = false ∧ d.overridden = false := by
  simp only [isBuildable, Option.any_eq_true, TokenDefinition.isBuildable_iff]

/-- A token that may be built may be built as long as no token is overridden. -/
theorem Reachable.isBuildable_run (h : lx.Reachable) {c : Command}
    (hc : ∀ token, c ≠ .setOverridden token) (ht : lx.isBuildable token = true) :
    (c.run lx).isBuildable token = true := by
  obtain ⟨d, hd, hmarks⟩ := isBuildable_iff.mp ht
  obtain ⟨label, newLexicalState, hd'⟩ := h.keepsMarks_run hc token d hd
  exact isBuildable_iff.mpr ⟨_, hd', hmarks⟩

/-! ### What is built may be built -/

/-- What counts as built in a lexical state, and the literals that wait there to be built, are
tokens that a lexer may build. -/
def Standing (lx : Lexer) (s : LexicalState) : Prop :=
  ∀ token, token ∈ s.built ∨ token ∈ s.implicitLiterals → lx.isBuildable token = true

theorem Standing.new (name : String) (isDefault : Bool) : lx.Standing (.new name isDefault) := by
  rintro token (h | h)
  · exact absurd h IntervalSet.not_mem_empty
  · exact absurd h List.not_mem_nil

theorem Standing.addImplicitLiteral (h : lx.Standing s) (ht : lx.isBuildable token = true) :
    lx.Standing (s.addImplicitLiteral token) := by
  obtain ⟨tokens, heq⟩ := s.addImplicitLiteral_eq token
  rintro token' (hbuilt | himplicit)
  · rw [heq] at hbuilt
    exact h token' (.inl hbuilt)
  · obtain himplicit | rfl := LexicalState.mem_implicitLiterals_addImplicitLiteral.mp himplicit
    · exact h token' (.inr himplicit)
    · exact ht

/-- Processing builds what may be built with the definitions that it is given. -/
theorem Standing.process (h : lx.Standing s) {r : TokenRegistry} (config : Config)
    (hr : ∀ token d, r.get? token = some d → d.isPrivate = false → d.overridden = false →
      lx.isBuildable token = true) : lx.Standing (final (LexicalState.process r config) s) := by
  obtain ⟨_, _, built, _, _, _, heq, hbuilt⟩ := LexicalState.exists_final_process_eq r config s
  rw [heq]
  rintro token (htoken | himplicit)
  · obtain hold | ⟨ignoreCase, d, hd, hover, himplicit | hlisted⟩ := hbuilt token htoken
    · exact h token (.inl hold)
    · exact h token (.inr himplicit.1)
    · exact hr token d hd hlisted.1 hover
  · exact h token (.inr himplicit)

/-- A call of a command that overrides no token lists and builds what may be built after it. -/
theorem Reachable.standing_call (h : lx.Reachable) {c : Command}
    (hc : ∀ token, c ≠ .setOverridden token) {call : Call} (hcall : call ∈ c.callsOn i lx)
    (hs : (c.run lx).Standing s) : (c.run lx).Standing (call.run s) := by
  obtain ⟨image, token, ignoreCase, rfl⟩ | ⟨p, rfl⟩ | ⟨image, rfl, hregistry⟩ | rfl :=
    Command.mem_callsOn h.coherent hcall
  · obtain ⟨exact, folded, heq⟩ := s.claimLiteral_eq image token ignoreCase
    rw [Call.run, heq]
    exact hs
  · exact hs
  · have hnew := TokenRegistry.get?_register_size (r := lx.registry) (d := .ofLiteral image)
    rw [← hregistry] at hnew
    exact hs.addImplicitLiteral (isBuildable_iff.mpr ⟨_, hnew, rfl, rfl⟩)
  · -- the definitions are those before the command, which has changed their targets since
    refine hs.process lx.config fun token d hd hprivate hover => ?_
    exact h.isBuildable_run hc (isBuildable_iff.mpr ⟨d, hd, hprivate, hover⟩)

/-- After a command that overrides no token, what is built may be built as before. -/
theorem Reachable.standing_run (h : lx.Reachable) {c : Command}
    (hc : ∀ token, c ≠ .setOverridden token)
    (hstanding : ∀ (i : Nat) (s : LexicalState), lx.states[i]? = some s → lx.Standing s)
    (hs : (c.run lx).states[i]? = some s) : (c.run lx).Standing s := by
  obtain ⟨-, name, rfl⟩ | ⟨s₀, hs₀, -⟩ := c.state_cases hs
  · exact .new name false
  · obtain rfl := Option.some.inj (hs.symm.trans (c.getElem?_run hs₀))
    have hbefore : (c.run lx).Standing s₀ := fun token htoken =>
      h.isBuildable_run hc (hstanding i s₀ hs₀ token htoken)
    exact Call.foldl_keeps _ (fun _ hcall _ => h.standing_call hc hcall) hbefore

/-- Unless some token was overridden, what counts as built may be built. -/
theorem standing_foldl (config : Config) {commands : List Command}
    (hcommands : ∀ token, .setOverridden token ∉ commands)
    (hs : (commands.foldl Command.run (new config)).states[i]? = some s) :
    (commands.foldl Command.run (new config)).Standing s := by
  induction commands using List.reverseRecOn generalizing i s with
  | nil =>
      obtain rfl := eq_new_of_getElem? hs
      exact .new _ true
  | append_singleton commands c ih =>
      simp only [List.mem_append, List.mem_singleton, not_or] at hcommands
      rw [List.foldl_append] at hs ⊢
      refine ((Reachable.new config).foldl commands).standing_run ?_ ?_ hs
      · exact fun token heq => (hcommands token).2 heq.symm
      · exact fun i s hs => ih (fun token => (hcommands token).1) hs

/-! ### Sets by kind -/

/-- The set of the tokens of a kind: those for the parser are joined by what no production lists. -/
def tokensFor (lx : Lexer) : TokenKind → TokenSet
  | .token => lx.regularTokens
  | kind => lx.tokensOfKind kind

/-- A token is listed in a production of a kind. -/
def ListedAs (lx : Lexer) (kind : TokenKind) (token : Nat) : Prop :=
  ∃ p ∈ lx.productions, p.kind = kind ∧ token ∈ p.tokens

theorem mem_tokensOfKind : token ∈ lx.tokensOfKind kind ↔
    lx.isBuildable token = true ∧ lx.ListedAs kind token := by
  rw [tokensOfKind, IntervalSet.mem_ofList, List.mem_filter, and_comm]
  simp only [List.mem_flatMap, List.mem_filter, decide_eq_true_eq, ListedAs, and_assoc]

theorem mem_unlistedTokens : token ∈ lx.unlistedTokens ↔
    lx.isBuildable token = true ∧ ∀ kind, ¬ lx.ListedAs kind token := by
  have hlisted : (∃ p ∈ lx.productions, token ∈ p.tokens) ↔ ∃ kind, lx.ListedAs kind token :=
    ⟨fun ⟨p, hp, htoken⟩ => ⟨p.kind, p, hp, rfl, htoken⟩,
      fun ⟨_, p, hp, _, htoken⟩ => ⟨p, hp, htoken⟩⟩
  have hlt : lx.isBuildable token = true → token < lx.registry.size := by
    intro hbuildable
    obtain ⟨d, hd, -⟩ := isBuildable_iff.mp hbuildable
    exact TokenRegistry.get?_isSome.mp (Option.isSome_of_eq_some hd)
  rw [unlistedTokens]
  simp only [IntervalSet.mem_ofList, List.mem_filter, List.mem_range, Bool.and_eq_true,
    decide_eq_true_eq, List.mem_flatMap, hlisted, not_exists]
  exact ⟨fun h => ⟨h.2.2, h.2.1⟩, fun h => ⟨hlt h.1, h.2, h.1⟩⟩

/-- The tokens of a kind are those that may be built and are listed as such, or are not listed if
the kind is that for the parser. -/
theorem mem_tokensFor : token ∈ lx.tokensFor kind ↔ lx.isBuildable token = true ∧
    (lx.ListedAs kind token ∨ kind = .token ∧ ∀ kind, ¬ lx.ListedAs kind token) := by
  have hother : kind ≠ .token → (token ∈ lx.tokensOfKind kind ↔ lx.isBuildable token = true ∧
      (lx.ListedAs kind token ∨ kind = .token ∧ ∀ kind, ¬ lx.ListedAs kind token)) := by
    intro hne
    rw [mem_tokensOfKind, or_iff_left fun hboth => hne hboth.1]
  cases kind with
  | token =>
      rw [tokensFor, regularTokens, IntervalSet.mem_union, mem_tokensOfKind, mem_unlistedTokens,
        ← and_or_left, and_iff_right rfl]
  | skip => exact hother nofun
  | more => exact hother nofun
  | unparsed => exact hother nofun

theorem listedAs_of_tokenKind? (h : lx.tokenKind? token = some kind) : lx.ListedAs kind token := by
  obtain ⟨p, hp, rfl⟩ := Option.map_eq_some_iff.mp h
  have htoken := List.find?_some hp
  exact ⟨p, List.mem_of_find?_eq_some hp, rfl, of_decide_eq_true htoken⟩

theorem not_listedAs_of_tokenKind? (h : lx.tokenKind? token = none) (kind : TokenKind) :
    ¬ lx.ListedAs kind token := by
  rintro ⟨p, hp, -, htoken⟩
  have hnone := List.find?_eq_none.mp (Option.map_eq_none_iff.mp h) p hp
  exact hnone (decide_eq_true htoken)

/-- A token that may be built is in the set of the kind that is reported with it. -/
theorem mem_tokensFor_tokenKind? (h : lx.isBuildable token = true) :
    token ∈ lx.tokensFor ((lx.tokenKind? token).getD .token) := by
  apply mem_tokensFor.mpr
  cases hkind : lx.tokenKind? token with
  | none => exact ⟨h, .inr ⟨rfl, not_listedAs_of_tokenKind? hkind⟩⟩
  | some kind => exact ⟨h, .inl (listedAs_of_tokenKind? hkind)⟩

/-- The sets by kind together hold what may be built: each such token is in one of them at least. -/
theorem mem_allTokens : token ∈ lx.regularTokens ∪ lx.tokensOfKind .skip ∪
    lx.tokensOfKind .more ∪ lx.tokensOfKind .unparsed ↔ lx.isBuildable token = true := by
  have hunion : token ∈ lx.regularTokens ∪ lx.tokensOfKind .skip ∪ lx.tokensOfKind .more ∪
      lx.tokensOfKind .unparsed ↔ ∃ kind, token ∈ lx.tokensFor kind := by
    simp only [IntervalSet.mem_union]
    constructor
    · rintro (((h | h) | h) | h)
      · exact ⟨.token, h⟩
      · exact ⟨.skip, h⟩
      · exact ⟨.more, h⟩
      · exact ⟨.unparsed, h⟩
    · rintro ⟨kind, h⟩
      cases kind with
      | token => exact .inl (.inl (.inl h))
      | skip => exact .inl (.inl (.inr h))
      | more => exact .inl (.inr h)
      | unparsed => exact .inr h
  apply hunion.trans
  constructor
  · rintro ⟨kind, h⟩
    exact (mem_tokensFor.mp h).1
  · exact fun h => ⟨_, mem_tokensFor_tokenKind? h⟩

/-- A token of a text comes with the kind that is reported for it. -/
theorem Splits.kind_eq {q q' offset stop : Nat} {text rest : List Char} {tokens : List ScanToken}
    (h : lx.Splits q offset text tokens q' stop rest) {t : ScanToken} (ht : t ∈ tokens) :
    t.kind = (lx.tokenKind? t.token).getD .token := by
  induction h with
  | done => exact absurd ht List.not_mem_nil
  | token _ _ _ _ _ ih =>
      obtain rfl | ht := List.mem_cons.mp ht
      · rfl
      · exact ih ht

/-- A token of a text was built in some lexical state, and comes with the kind that is reported for
it. -/
theorem Reachable.of_mem_tokenize (h : lx.Reachable) {text : String} {t : ScanToken}
    (ht : t ∈ (lx.tokenize text).tokens) : t.kind = (lx.tokenKind? t.token).getD .token ∧
      ∃ (i : Nat) (s : LexicalState), lx.states[i]? = some s ∧ t.token ∈ s.built := by
  obtain ⟨q, stop, rest, hsplits, -⟩ :=
    splits_tokenizeFrom h.coherent h.coherent.states_pos 0 text.toList
  refine ⟨hsplits.kind_eq ht, ?_⟩
  obtain ⟨i, s, _, m, hs, hm, heq⟩ := hsplits.exists_match ht
  obtain ⟨j, u, hu, htoken⟩ := LexicalState.exists_state_of_longestMatch hm
  exact ⟨i, s, hs, heq ▸ (h.accounted hs).mem_of_token j u hu m.token htoken⟩

/-- Sets of two kinds are disjoint exactly if no token that may be built is listed as both. -/
theorem disjoint_tokensFor_iff : (∀ kind kind', kind ≠ kind' → ∀ t ∈ lx.tokensFor kind,
      t ∉ lx.tokensFor kind') ↔
    ∀ p ∈ lx.productions, ∀ q ∈ lx.productions, ∀ t ∈ p.tokens, t ∈ q.tokens →
      lx.isBuildable t = true → p.kind = q.kind := by
  constructor
  · intro h p hp q hq t htp htq hbuildable
    by_contra hne
    apply h p.kind q.kind hne t
    · exact mem_tokensFor.mpr ⟨hbuildable, .inl ⟨p, hp, rfl, htp⟩⟩
    · exact mem_tokensFor.mpr ⟨hbuildable, .inl ⟨q, hq, rfl, htq⟩⟩
  · intro h kind kind' hne t ht ht'
    obtain ⟨hbuildable, hkind⟩ := mem_tokensFor.mp ht
    obtain ⟨-, hkind'⟩ := mem_tokensFor.mp ht'
    obtain ⟨p, hp, rfl, htp⟩ | ⟨rfl, hnone⟩ := hkind
    · obtain ⟨q, hq, rfl, htq⟩ | ⟨-, hnone⟩ := hkind'
      · exact hne (h p hp q hq t htp htq hbuildable)
      · exact hnone p.kind ⟨p, hp, rfl, htp⟩
    · obtain hlisted | ⟨rfl, -⟩ := hkind'
      · exact hnone kind' hlisted
      · exact hne rfl

/-- Whatever commands were given: the sets by kind hold together the tokens that are registered, not
private and not overridden; each of these is in the set of the kind that is reported for it; and no
two sets share a token exactly if none of these is listed in productions of two kinds. Unless a
token was overridden, every token of a text, whatever is built, is in the set of the kind that it
comes with. -/
theorem tokensFor_cover (config : Config) (commands : List Command) :
    let lx := commands.foldl Command.run (new config)
    (∀ t, t ∈ lx.regularTokens ∪ lx.tokensOfKind .skip ∪ lx.tokensOfKind .more ∪
        lx.tokensOfKind .unparsed ↔
      ∃ d, lx.registry.get? t = some d ∧ d.isPrivate = false ∧ d.overridden = false) ∧
    (∀ t, lx.isBuildable t = true → t ∈ lx.tokensFor ((lx.tokenKind? t).getD .token)) ∧
    ((∀ token, .setOverridden token ∉ commands) → ∀ text, ∀ t ∈ (lx.tokenize text).tokens,
      t.token ∈ lx.tokensFor t.kind) ∧
    ((∀ kind kind', kind ≠ kind' → ∀ t ∈ lx.tokensFor kind, t ∉ lx.tokensFor kind') ↔
      ∀ p ∈ lx.productions, ∀ q ∈ lx.productions, ∀ t ∈ p.tokens, t ∈ q.tokens →
        lx.isBuildable t = true → p.kind = q.kind) := by
  intro lx
  have hreachable : lx.Reachable := (Reachable.new config).foldl commands
  refine ⟨fun t => mem_allTokens.trans isBuildable_iff, fun t => mem_tokensFor_tokenKind?, ?_,
    disjoint_tokensFor_iff⟩
  intro hcommands text t ht
  obtain ⟨hkind, i, s, hs, hbuilt⟩ := hreachable.of_mem_tokenize ht
  have hbuildable := standing_foldl config hcommands hs t.token (.inl hbuilt)
  exact hkind ▸ mem_tokensFor_tokenKind? hbuildable

/-- Of `a b`, the blank is skipped and `b` is listed in no production: both are in the sets of the
kinds that they come with. The private token is in no set. -/
theorem tokensFor_cover_unlisted : ∃ commands : List Command,
    let lx := commands.foldl Command.run (new {})
    (∀ token, .setOverridden token ∉ commands) ∧
      (lx.tokenize "a b").tokens.map (fun t => (t.token, t.kind)) =
        [(1, .token), (2, .skip), (4, .token)] ∧
      lx.tokenKind? 4 = none ∧
      (∀ t ∈ (lx.tokenize "a b").tokens, t.token ∈ lx.tokensFor t.kind) ∧
      3 ∉ lx.regularTokens ∪ lx.tokensOfKind .skip ∪ lx.tokensOfKind .more ∪
        lx.tokensOfKind .unparsed := by
  let commands : List Command := [.addDefinition (.ofLiteral "a"), .addDefinition (.ofLiteral " "),
    .addDefinition { pattern := .literal "c", isPrivate := true },
    .addTokenProduction { specs := [{ token := 1 }] },
    .addTokenProduction { kind := .skip, specs := [{ token := 2 }] },
    .addImplicitLiteral "DEFAULT" "b", .build]
  have hcommands : ∀ token, .setOverridden token ∉ commands := by
    intro token h
    simp [commands] at h
  obtain ⟨hcover, -, htokens, -⟩ := tokensFor_cover {} commands
  refine ⟨commands, hcommands, ?_, ?_, htokens hcommands "a b", fun h => ?_⟩
  · dsimp only [commands]
    cbv
  · dsimp only [commands]
    cbv
  · obtain ⟨d, hd, hprivate, -⟩ := (hcover 3).mp h
    have hisPrivate : ((commands.foldl Command.run (new {})).registry.get? 3).any
        (·.isPrivate) = true := by
      dsimp only [commands]
      cbv
    rw [hd] at hisPrivate
    exact absurd (hprivate.symm.trans hisPrivate) Bool.false_ne_true

end Lexer

end ScannerTables
