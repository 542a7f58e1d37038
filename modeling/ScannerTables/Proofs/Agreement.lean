import ScannerTables.Proofs.Evolution
/-!
# Agreement on switches

After a build, the definition of a token names the lexical state to go to after it, if there is one
answer for all lexical states. What a build counts are the switches that lexical states have
recorded. A lexical state that builds the token and stays after it records nothing, so it does not
object, and one that has recorded two targets objects to itself; where neither is the case, the
target is the one that all lexical states which build the token agree on.
-/

namespace ScannerTables

open Checked

namespace LexicalState

variable {s s' : LexicalState} {r : TokenRegistry} {config : Config}

/-- Switches that are recorded stay recorded. -/
theorem Step.transitions_subset (h : Step r config s s') : s.transitions ⊆ s'.transitions := by
  rcases h.cases with ⟨_, _, _, _, rfl⟩ | rfl
  · exact List.Subset.refl _
  · apply keeps_process (P := fun t => s.transitions ⊆ t.transitions) (List.Subset.refl _)
    · intro step _ t ht
      cases step with
      | unknown ordinal => exact ht
      | token ordinal ignoreCase switch =>
          rw [final, runStep]
          dsimp only
          cases Build.token r ordinal ignoreCase initialState t.automaton with
          | error e automaton => exact ht
          | ok f automaton => exact List.Subset.trans ht (List.subset_append_left _ _)
    · exact fun _ ht => ht
    · intro t t' hgen ht
      obtain ⟨_, _, _, rfl⟩ := exists_eq_of_generate hgen
      exact ht

/-- The lexical state switches on a token, to one lexical state. -/
def SwitchesTo (s : LexicalState) (token : Nat) (name : String) : Prop :=
  (token, name) ∈ s.transitions ∧ ∀ name', (token, name') ∈ s.transitions → name' = name

theorem SwitchesTo.newLexicalState?_eq {token : Nat} {name : String} (h : s.SwitchesTo token name) :
    s.newLexicalState? token = some name := by
  cases hname : s.newLexicalState? token with
  | none =>
      have hnone := List.lookup_eq_none_iff.mp hname _ h.1
      simp at hnone
  | some name' => rw [h.2 name' (mem_of_newLexicalState? hname)]

end LexicalState

namespace Lexer

variable {lx lx' : Lexer} {config : Config} {commands : List Command} {token : Nat} {name : String}

/-! ### Recorded switches -/

/-- Some lexical state has recorded a switch. -/
def Leads (lx : Lexer) (token : Nat) (name : String) : Prop :=
  ∃ (i : Nat) (s : LexicalState), lx.states[i]? = some s ∧ (token, name) ∈ s.transitions

theorem mem_targetsOf : name ∈ lx.targetsOf token ↔ lx.Leads token name := by
  simp only [targetsOf, transitions, List.mem_map, List.mem_filter, List.mem_flatMap,
    decide_eq_true_eq]
  constructor
  · rintro ⟨⟨_, _⟩, ⟨⟨s, hs, hmem⟩, rfl⟩, rfl⟩
    obtain ⟨i, hi⟩ := Array.mem_iff_getElem?.mp (Array.mem_toList_iff.mp hs)
    exact ⟨i, s, hi, hmem⟩
  · rintro ⟨i, s, hs, hmem⟩
    exact ⟨_, ⟨⟨s, Array.mem_toList_iff.mpr (Array.mem_of_getElem? hs), hmem⟩, rfl⟩, rfl⟩

theorem targetsOf_eq_nil_iff : lx.targetsOf token = [] ↔ ∀ name, ¬ lx.Leads token name := by
  simp only [List.eq_nil_iff_forall_not_mem, mem_targetsOf]

/-- Recording leaves a target where all recorded switches lead to it, and where there is none the
target that was there. -/
theorem newLexicalState_recordTargets {d d' : TokenDefinition}
    (hd : lx.registry.get? token = some d) (hd' : lx.recordTargets.get? token = some d') :
    d'.newLexicalState = some name ↔
      lx.Leads token name ∧ (∀ name', lx.Leads token name' → name' = name) ∨
        (∀ name', ¬ lx.Leads token name') ∧ d.newLexicalState = some name := by
  rw [get?_recordTargets, hd, Option.map_some] at hd'
  obtain rfl := Option.some.inj hd'
  rw [← targetsOf_eq_nil_iff]
  simp only [← mem_targetsOf]
  cases lx.targetsOf token with
  | nil => simp
  | cons target others =>
      simp only [List.mem_cons, forall_eq_or_imp, reduceCtorEq, false_and, or_false]
      by_cases hall : others.all (· == target) = true
      · rw [if_pos hall, Option.some.injEq]
        simp only [List.all_eq_true, beq_iff_eq] at hall
        constructor
        · rintro rfl
          exact ⟨.inl rfl, rfl, hall⟩
        · exact fun h => h.2.1
      · rw [if_neg hall]
        refine iff_of_false (by simp) ?_
        rintro ⟨-, rfl, hothers⟩
        exact hall (by simpa using hothers)

/-! ### Targets that definitions come with -/

/-- The definition that was registered under an ordinal came with a target. -/
def Brought (config : Config) (commands : List Command) (token : Nat) (name : String) : Prop :=
  ∃ before c after, commands = before ++ c :: after ∧
    (before.foldl Command.run (new config)).registry.size = token ∧ c.target? = some name

theorem not_brought_nil : ¬ Brought config [] token name := by
  rintro ⟨before, c, after, heq, -⟩
  exact absurd heq.symm (by simp)

theorem brought_concat {c : Command} : Brought config (commands ++ [c]) token name ↔
    Brought config commands token name ∨
      (commands.foldl Command.run (new config)).registry.size = token ∧ c.target? = some name := by
  constructor
  · rintro ⟨before, c', after, heq, hsize, hname⟩
    rcases List.eq_nil_or_concat after with rfl | ⟨after, c'', rfl⟩
    · obtain ⟨rfl, hc⟩ := List.append_inj' heq rfl
      obtain rfl := List.singleton_inj.mp hc
      exact .inr ⟨hsize, hname⟩
    · rw [List.concat_eq_append, ← List.cons_append, ← List.append_assoc] at heq
      exact .inl ⟨before, c', after, (List.append_inj' heq rfl).1, hsize, hname⟩
  · rintro (⟨before, c', after, rfl, hsize, hname⟩ | ⟨hsize, hname⟩)
    · exact ⟨before, c', after ++ [c], by simp, hsize, hname⟩
    · exact ⟨commands, c, [], rfl, hsize, hname⟩

theorem Brought.lt_size (h : Brought config commands token name) :
    token < (commands.foldl Command.run (new config)).registry.size := by
  induction commands using List.reverseRecOn with
  | nil => exact absurd h not_brought_nil
  | append_singleton commands c ih =>
      rw [List.foldl_append, List.foldl_cons, List.foldl_nil]
      rcases c.registers (commands.foldl Command.run (new config)) with
        ⟨d, heq, -⟩ | ⟨hnone, hrevises⟩ <;> rcases brought_concat.mp h with h | ⟨hsize, hname⟩
      · rw [heq, TokenRegistry.size_register]
        exact Nat.lt_succ_of_lt (ih h)
      · rw [heq, TokenRegistry.size_register, hsize]
        exact Nat.lt_succ_self token
      · rw [hrevises.size_eq]
        exact ih h
      · exact absurd (hname.symm.trans hnone) (Option.some_ne_none name)

/-- Lexical states that are there stay, and so do the switches that they have recorded. -/
theorem Leads.run (h : lx.Leads token name) (c : Command) : (c.run lx).Leads token name := by
  obtain ⟨i, s, hs, hmem⟩ := h
  obtain ⟨s', hs', hevolves⟩ := c.exists_state hs
  refine ⟨i, s', hs', ?_⟩
  clear hs'
  induction hevolves with
  | refl => exact hmem
  | tail _ hlast ih => exact hlast.transitions_subset ih

/-- As long as no lexical state switches on a token, its target is what its definition came with. -/
theorem newLexicalState_iff_brought {d : TokenDefinition}
    (hd : (commands.foldl Command.run (new config)).registry.get? token = some d)
    (hleads : ∀ name, ¬ (commands.foldl Command.run (new config)).Leads token name) :
    d.newLexicalState = some name ↔ Brought config commands token name := by
  induction commands using List.reverseRecOn generalizing d with
  | nil =>
      have hlt := TokenRegistry.get?_isSome.mp (Option.isSome_of_eq_some hd)
      obtain rfl : token = 0 := Nat.lt_one_iff.mp hlt
      obtain rfl := Option.some.inj hd
      exact iff_of_false (Option.some_ne_none name).symm not_brought_nil
  | append_singleton commands c ih =>
      rw [List.foldl_append, List.foldl_cons, List.foldl_nil] at hd hleads
      have hold : ∀ name, ¬ (commands.foldl Command.run (new config)).Leads token name :=
        fun name h => hleads name (h.run c)
      rw [brought_concat]
      rcases c.registers (commands.foldl Command.run (new config)) with
        ⟨d₀, heq, htarget⟩ | ⟨hnone, hrevises⟩
      · rw [heq, TokenRegistry.get?, TokenRegistry.register, Array.getElem?_push] at hd
        split at hd
        · next hsize =>
          obtain rfl := Option.some.inj hd
          rw [← htarget, or_iff_right fun h => absurd h.lt_size (hsize ▸ Nat.lt_irrefl _)]
          exact (and_iff_right hsize.symm).symm
        · next hsize =>
          rw [ih hd hold, or_iff_left fun h => hsize h.1.symm]
      · obtain ⟨d₀, hd₀, -, htarget⟩ := hrevises.exists_definition hd
        rw [hnone, or_iff_left fun h => absurd h.2.symm (Option.some_ne_none name), ← ih hd₀ hold]
        rcases htarget with heq | hsettled
        · rw [heq]
        · exact absurd (targetsOf_eq_nil_iff.mpr hleads) hsettled

/-! ### What a build settles -/

/-- Some lexical state builds a token, and each one that does goes on after it to one and the same
lexical state. -/
def Agreed (lx : Lexer) (token : Nat) (name : String) : Prop :=
  (∃ (i : Nat) (s : LexicalState), lx.states[i]? = some s ∧ token ∈ s.built) ∧
    ∀ (i : Nat) (s : LexicalState), lx.states[i]? = some s → token ∈ s.built →
      s.newLexicalState? token = some name

/-- Where each lexical state that builds a token switches on it, to one lexical state, they agree
exactly if all recorded switches lead to the same. -/
theorem agreed_iff (h : lx.Reachable)
    (hbuilt : ∃ (i : Nat) (s : LexicalState), lx.states[i]? = some s ∧ token ∈ s.built)
    (hswitch : ∀ (i : Nat) (s : LexicalState), lx.states[i]? = some s → token ∈ s.built →
      ∃ name, s.SwitchesTo token name) :
    lx.Agreed token name ↔
      lx.Leads token name ∧ ∀ name', lx.Leads token name' → name' = name := by
  constructor
  · rintro ⟨⟨i, s, hs, hmem⟩, hall⟩
    refine ⟨⟨i, s, hs, LexicalState.mem_of_newLexicalState? (hall i s hs hmem)⟩, ?_⟩
    rintro name' ⟨j, t, ht, hname'⟩
    have hmem' := (h.accounted ht).mem_of_switch _ hname'
    obtain ⟨name'', hswitch⟩ := hswitch j t ht hmem'
    rw [hswitch.2 name' hname']
    exact Option.some.inj (hswitch.newLexicalState?_eq.symm.trans (hall j t ht hmem'))
  · rintro ⟨-, hall⟩
    refine ⟨hbuilt, fun i s hs hmem => ?_⟩
    obtain ⟨name', hswitch⟩ := hswitch i s hs hmem
    rw [hswitch.newLexicalState?_eq, hall name' ⟨i, s, hs, hswitch.1⟩]

/-- The target of a token after a build is the one that all recorded switches lead to, or if no
lexical state has recorded one, what the definition came with. Where each lexical state that builds
the token switches on it, to one lexical state, this is the target that they agree on. -/
theorem newLexicalState_build (config : Config) (commands : List Command) (lx' : Lexer)
    (token : Nat) (d : TokenDefinition) (name : String)
    (hok : build (commands.foldl Command.run (new config)) = .ok () lx')
    (hd : lx'.registry.get? token = some d) :
    (d.newLexicalState = some name ↔
      lx'.Leads token name ∧ (∀ name', lx'.Leads token name' → name' = name) ∨
        (∀ name', ¬ lx'.Leads token name') ∧ Brought config commands token name) ∧
    ((∃ (i : Nat) (s : LexicalState), lx'.states[i]? = some s ∧ token ∈ s.built) →
      (∀ (i : Nat) (s : LexicalState), lx'.states[i]? = some s → token ∈ s.built →
        ∃ name', s.SwitchesTo token name') →
          (d.newLexicalState = some name ↔ lx'.Agreed token name)) := by
  have hreachable := (Reachable.new config).foldl commands
  have hrun : Command.build.run (commands.foldl Command.run (new config)) = lx' :=
    final_eq_of_eq_ok hok
  obtain ⟨-, states, -, heq⟩ := build_eq_ok.mp hok
  let settled : Lexer := { commands.foldl Command.run (new config) with states := states.toArray }
  have hregistry : lx'.registry = settled.recordTargets := by rw [heq]
  have hstates : lx'.states = settled.states := by rw [heq]
  have hleads : ∀ name, lx'.Leads token name ↔ settled.Leads token name := fun name => by
    rw [Leads, Leads, hstates]
  rw [hregistry] at hd
  obtain ⟨d₀, hd₀, -⟩ := revises_recordTargets.exists_definition hd
  have hiff : d.newLexicalState = some name ↔
      lx'.Leads token name ∧ (∀ name', lx'.Leads token name' → name' = name) ∨
        (∀ name', ¬ lx'.Leads token name') ∧ Brought config commands token name := by
    rw [newLexicalState_recordTargets hd₀ hd]
    simp only [hleads]
    refine or_congr_right (and_congr_right fun hnone => newLexicalState_iff_brought hd₀ ?_)
    -- what had been recorded before the build would still be
    exact fun name' h => hnone name' ((hleads name').mp (hrun ▸ h.run .build))
  refine ⟨hiff, fun hbuilt hswitch => ?_⟩
  rw [hiff, agreed_iff (hrun ▸ hreachable.run .build) hbuilt hswitch]
  obtain ⟨i, s, hs, hmem⟩ := hbuilt
  obtain ⟨name', hname', -⟩ := hswitch i s hs hmem
  exact or_iff_left fun h => h.1 name' ⟨i, s, hs, hname'⟩

/-- `<` leads from the default lexical state to `IN`, where `<` and `>` are built too. Nothing is
recorded for `<` in `IN`, which stays as it is, so the target is `IN` without agreement; and `>`,
which is built in `IN` alone and leads to `DEFAULT`, but has a second target recorded, has none. -/
theorem newLexicalState_build_stay : ∃ (commands : List Command) (lx' : Lexer)
    (d d' : TokenDefinition), build (commands.foldl Command.run (new {})) = .ok () lx' ∧
      lx'.registry.get? 1 = some d ∧ d.newLexicalState = some "IN" ∧
        (∀ name, lx'.Leads 1 name → name = "IN") ∧ ¬ lx'.Agreed 1 "IN" ∧
          lx'.registry.get? 2 = some d' ∧ d'.newLexicalState = none ∧ lx'.Agreed 2 "DEFAULT" := by
  let commands : List Command := [
    .addLexicalState "IN", .addLexicalState "OUT", .addDefinition (.ofLiteral "<"),
    .addDefinition (.ofLiteral ">"),
    .addTokenProduction { specs := [{ token := 1, next := some "IN" }] },
    .addTokenProduction { lexicalStates := ["IN"], specs := [{ token := 1 },
      { token := 2, next := some "DEFAULT" }, { token := 2, next := some "OUT" }] }]
  let lx' := Command.build.run (commands.foldl Command.run (new {}))
  obtain ⟨hsucceeds, hfirst, hsecond, hstays, hbuilt, hleads⟩ :
      succeeds build (commands.foldl Command.run (new {})) = true ∧
      (lx'.registry.get? 1).any (·.newLexicalState == some "IN") = true ∧
      (lx'.registry.get? 2).any (·.newLexicalState == none) = true ∧
      (lx'.states[1]?.any fun (s : LexicalState) =>
        decide (1 ∈ s.built) && s.newLexicalState? 1 == none) = true ∧
      (lx'.states[1]?.any fun (s : LexicalState) => decide (2 ∈ s.built)) = true ∧
      (lx'.states.all fun s =>
        decide (2 ∉ s.built) || s.newLexicalState? 2 == some "DEFAULT") = true := by
    dsimp only [lx', commands]
    cbv
  obtain ⟨⟨⟩, hok⟩ := eq_ok_of_succeeds hsucceeds
  obtain ⟨d, hd, hfirst⟩ := (Option.any_eq_true _ _).mp hfirst
  obtain ⟨d', hd', hsecond⟩ := (Option.any_eq_true _ _).mp hsecond
  obtain ⟨s, hs, hstays⟩ := (Option.any_eq_true _ _).mp hstays
  obtain ⟨t, ht, hbuilt⟩ := (Option.any_eq_true _ _).mp hbuilt
  simp only [Bool.and_eq_true, decide_eq_true_eq, beq_iff_eq] at hfirst hsecond hstays hbuilt
  refine ⟨commands, lx', d, d', hok, hd, hfirst, ?_, ?_, hd', hsecond, ⟨1, t, ht, hbuilt⟩, ?_⟩
  · rcases (newLexicalState_build {} commands lx' 1 d "IN" hok hd).1.mp hfirst with h | h
    · exact h.2
    · exact fun name hname => absurd hname (h.1 name)
  · rintro ⟨-, hall⟩
    exact absurd (hstays.2.symm.trans (hall 1 s hs hstays.1)) (by simp)
  · intro i u hu hmem
    obtain ⟨hi, rfl⟩ := Array.getElem?_eq_some_iff.mp hu
    have h := Array.all_eq_true.mp hleads i hi
    simpa [hmem] using h

end Lexer

end ScannerTables
