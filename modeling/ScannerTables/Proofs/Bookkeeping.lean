import ScannerTables.Proofs.Independence
/-!
# What a lexer keeps account of

A lexer lists its productions, and every lexical state lists those that it was handed. The two
lists agree after any commands, whether these were carried out or failed on the way, and `Ledger`
says how. What a command can do to the lists is in `Command.account_cases`: it declares a lexical
state, or it adds a production, or it leaves the account as it is. The last is true of a production
that is rejected, which may have claimed literals, and of a build, however far it comes.

A lexical state that is declared late has nothing to catch up on, for a production is accepted only
if all the lexical states that it names are declared. The index of positions is a table of its own,
which only the declaration of a lexical state changes; that it is in step with the lexical states is
`Located`.
-/

namespace ScannerTables

open Checked

/-! ### Accounts -/

namespace LexicalState

variable {s : LexicalState} {r : TokenRegistry} {config : Config}

/-- What a lexer keeps account of in a lexical state, apart from literals and from what is built. -/
def account (s : LexicalState) : String × Bool × List TokenProduction :=
  (s.name, s.isDefault, s.productions)

theorem account_claimLiteral (image : String) (token : Nat) (ignoreCase : Bool) :
    (s.claimLiteral image token ignoreCase).2.account = s.account := by
  obtain ⟨exact, folded, heq⟩ := s.claimLiteral_eq image token ignoreCase
  rw [heq]
  rfl

theorem account_addImplicitLiteral (token : Nat) :
    (s.addImplicitLiteral token).account = s.account := by
  obtain ⟨tokens, heq⟩ := s.addImplicitLiteral_eq token
  rw [heq]
  rfl

theorem account_process : (final (process r config) s).account = s.account := by
  have hrecords := @records_process s r config
  simp only [account, hrecords.name_eq, hrecords.isDefault_eq, hrecords.productions_eq]

/-- How often a lexical state is handed a production: as often as the production names it, or once
if the production names none and the lexical state is the default one. -/
def share (s : LexicalState) (p : TokenProduction) : Nat :=
  if p.lexicalStates = [] then if s.isDefault then 1 else 0 else p.lexicalStates.count s.name

end LexicalState

namespace Lexer

variable {lx lx' lx'' : Lexer} {p : TokenProduction} {name : String} {i : Nat} {s : LexicalState}

/-- Two lexers with the same account of their lexical states and productions, and no fewer tokens in
the second. -/
structure SameAccount (lx lx' : Lexer) : Prop where
  accounts_eq : lx'.states.map (·.account) = lx.states.map (·.account)
  positions_eq : lx'.positions = lx.positions
  productions_eq : lx'.productions = lx.productions
  size_le : lx.registry.size ≤ lx'.registry.size

/-- Where accounts are the same, each lexical state has one with its account in its place. -/
theorem exists_account_eq {states states' : Array LexicalState}
    (h : states'.map (·.account) = states.map (·.account)) (hs : states'[i]? = some s) :
    ∃ t, states[i]? = some t ∧ t.account = s.account := by
  have haccount : (states.map (·.account))[i]? = some s.account := by
    rw [← h, Array.getElem?_map, hs, Option.map_some]
  rw [Array.getElem?_map] at haccount
  exact Option.map_eq_some_iff.mp haccount

namespace SameAccount

theorem refl : lx.SameAccount lx := ⟨rfl, rfl, rfl, Nat.le_refl _⟩

theorem trans (h : lx.SameAccount lx') (h' : lx'.SameAccount lx'') : lx.SameAccount lx'' where
  accounts_eq := h'.accounts_eq.trans h.accounts_eq
  positions_eq := h'.positions_eq.trans h.positions_eq
  productions_eq := h'.productions_eq.trans h.productions_eq
  size_le := Nat.le_trans h.size_le h'.size_le

/-- A lexical state stands where one with the same account stood. -/
theorem exists_state (h : lx.SameAccount lx') (hs : lx'.states[i]? = some s) :
    ∃ s₀, lx.states[i]? = some s₀ ∧ s₀.account = s.account :=
  exists_account_eq h.accounts_eq hs

theorem isSome_get? (h : lx.SameAccount lx') {token : Nat}
    (htoken : (lx.registry.get? token).isSome) : (lx'.registry.get? token).isSome :=
  TokenRegistry.get?_isSome.mpr
    (Nat.lt_of_lt_of_le (TokenRegistry.get?_isSome.mp htoken) h.size_le)

theorem of_modifyStates {targets : List Nat} {f : LexicalState → LexicalState}
    (hf : ∀ s, (f s).account = s.account)
    (hstates : lx'.states = (lx.modifyStates targets f).states)
    (hpositions : lx'.positions = lx.positions)
    (hproductions : lx'.productions = lx.productions)
    (hsize : lx.registry.size ≤ lx'.registry.size) : lx.SameAccount lx' where
  accounts_eq := by
    have hiterate (n : Nat) (s : LexicalState) : (f^[n] s).account = s.account := by
      have hsemiconj : Function.Semiconj LexicalState.account f id := hf
      rw [(hsemiconj.iterate_right n).eq, Function.iterate_id, id]
    apply Array.ext_getElem?
    intro i
    rw [hstates, Array.getElem?_map, Array.getElem?_map, getElem?_modifyStates, Option.map_map]
    exact congrArg (Option.map · _) (funext fun s => hiterate _ s)
  positions_eq := hpositions
  productions_eq := hproductions
  size_le := hsize

end SameAccount

/-! ### What a command does to the account -/

theorem sameAccount_claimSpecs {inherited : Bool} {targets : List Nat} (specs : List TokenSpec) :
    lx.SameAccount (final (specs.forM (claimSpec inherited targets)) lx) := by
  refine keeps_claimSpecs (P := lx.SameAccount) specs .refl fun lx' image token ignoreCase h => ?_
  exact h.trans (.of_modifyStates (fun s => s.account_claimLiteral image token ignoreCase) rfl rfl
    rfl (Nat.le_refl _))

/-- A production that is rejected leaves the account as it is. -/
theorem sameAccount_of_rejected {e : DefinitionError}
    (h : addTokenProduction p lx = .error e lx') : lx.SameAccount lx' := by
  rw [addTokenProduction, run_get_bind] at h
  cases htargets : lx.targets p with
  | error e' =>
      rw [htargets] at h
      obtain ⟨rfl, rfl⟩ := EStateM.Result.error.inj h
      exact .refl
  | ok targets =>
      rw [htargets] at h
      obtain hpure | ⟨_, _, hpure, h⟩ := run_bind_eq_error.mp h
      · exact absurd hpure.symm error_ne_ok
      obtain ⟨rfl, rfl⟩ := EStateM.Result.ok.inj hpure
      obtain hspecs | ⟨_, _, -, hmodify⟩ := run_bind_eq_error.mp h
      · have hsame := @sameAccount_claimSpecs lx (p.ignoreCase || lx.config.ignoreCase)
          targets p.specs
        rwa [final, hspecs] at hsame
      · exact absurd hmodify.symm error_ne_ok

/-- A production that is accepted is put behind the others, once in the lexer and at every target as
often as it is among them. -/
theorem exists_of_accepted (hlx : lx.Coherent) (h : addTokenProduction p lx = .ok () lx') :
    ∃ targets lx₁, lx.targets p = .ok targets ∧
      (∀ spec ∈ p.specs, (lx.registry.get? spec.token).isSome) ∧ lx.SameAccount lx₁ ∧
        lx' = { lx₁.modifyStates targets (·.addProduction p) with
          productions := lx₁.productions ++ [p] } := by
  obtain ⟨targets, lx₁, htargets, hspecs, rfl⟩ := claims_of_addTokenProduction h
  have hfirst := Array.getElem?_eq_getElem hlx.states_pos
  obtain ⟨hregistered, -⟩ := getElem?_forM_claimSpec hspecs hfirst
  refine ⟨targets, lx₁, htargets, fun spec hspec => ?_, ?_, rfl⟩
  · obtain ⟨d, hd⟩ := hregistered spec hspec
    exact Option.isSome_of_eq_some hd
  · rw [← final_eq_of_eq_ok hspecs]
    exact sameAccount_claimSpecs p.specs

theorem sameAccount_addImplicitLiteral (state image : String) :
    lx.SameAccount (final (addImplicitLiteral state image) lx) := by
  obtain heq | heq := @final_addImplicitLiteral lx state image <;> rw [heq]
  · exact .refl
  · refine .of_modifyStates (fun s => ?_) rfl rfl rfl (TokenRegistry.size_register ▸ Nat.le_succ _)
    rw [LexicalState.account_addImplicitLiteral, LexicalState.account_claimLiteral]

theorem sameAccount_build : lx.SameAccount (final build lx) := by
  have hsize : (final build lx).registry.size = lx.registry.size := by
    obtain heq | ⟨lx', hregistry, -, heq⟩ := @registry_build lx
    · rw [heq]
    · rw [heq, ← hregistry]
      exact revises_recordTargets.size_eq
  obtain heq | ⟨-, hstates, hpositions, hproductions⟩ := final_build lx
  · rw [heq]
    exact .refl
  · refine ⟨?_, hpositions, hproductions, Nat.le_of_eq hsize.symm⟩
    have hall := (forall₂_processAll lx.registry lx.config lx.states.toList).imp
      (S := fun s s' => s.account = s'.account) fun s s' hs => by
        obtain rfl | rfl := hs
        · rfl
        · exact LexicalState.account_process.symm
    have heq : lx.states.toList.map (·.account) =
        (processAll lx.registry lx.config lx.states.toList).1.map (·.account) := by
      rw [← List.forall₂_eq_eq_eq, List.forall₂_map_left_iff, List.forall₂_map_right_iff]
      exact hall
    rw [hstates, List.map_toArray, ← heq, ← Array.toList_map, Array.toArray_toList]

/-- A command declares a lexical state, or it adds a production, or it leaves the account as it
is. -/
theorem Command.account_cases (c : Command) (hlx : lx.Coherent) :
    (∃ name, lx.stateIndex? name = none ∧
      c.run lx = { lx with
        states := lx.states.push (.new name false)
        positions := (name, lx.states.size) :: lx.positions }) ∨
    (∃ p targets lx₁, lx.targets p = .ok targets ∧
      (∀ spec ∈ p.specs, (lx.registry.get? spec.token).isSome) ∧ lx.SameAccount lx₁ ∧
        c.run lx = { lx₁.modifyStates targets (·.addProduction p) with
          productions := lx₁.productions ++ [p] }) ∨
    lx.SameAccount (c.run lx) := by
  cases c with
  | addLexicalState name =>
      rw [run, final_addLexicalState]
      split
      · exact .inr (.inr .refl)
      · next hname => exact .inl ⟨name, Option.not_isSome_iff_eq_none.mp hname, rfl⟩
  | addDefinition d =>
      refine .inr (.inr ⟨rfl, rfl, rfl, ?_⟩)
      exact TokenRegistry.size_register ▸ Nat.le_succ _
  | addTokenProduction p =>
      rw [run, final]
      cases h : Lexer.addTokenProduction p lx with
      | ok _ lx' => exact .inr (.inl ⟨p, exists_of_accepted hlx h⟩)
      | error e lx' => exact .inr (.inr (sameAccount_of_rejected h))
  | addImplicitLiteral state image =>
      exact .inr (.inr (sameAccount_addImplicitLiteral state image))
  | setOverridden token => exact .inr (.inr ⟨rfl, rfl, rfl, Nat.le_of_eq Array.size_modify.symm⟩)
  | ensureLabels u =>
      have hrevises : lx.registry.Revises (lx.registry.ensureLabels u) fun _ => True :=
        .ensureLabels
      exact .inr (.inr ⟨rfl, rfl, rfl, Nat.le_of_eq hrevises.size_eq.symm⟩)
  | build => exact .inr (.inr sameAccount_build)

/-! ### Ledgers -/

/-- The account of a lexer is in order: the first lexical state is the default one and no other is,
each lists the productions that it was handed, in the order of the lexer, and productions name only
lexical states and tokens that are there. -/
structure Ledger (lx : Lexer) : Prop where
  isDefault_iff : ∀ (i : Nat) (s : LexicalState), lx.states[i]? = some s →
    (s.isDefault = true ↔ i = 0)
  productions_eq : ∀ (i : Nat) (s : LexicalState), lx.states[i]? = some s →
    s.productions = lx.productions.flatMap fun p => List.replicate (s.share p) p
  declared : ∀ p ∈ lx.productions, ∀ name ∈ p.lexicalStates, (lx.stateIndex? name).isSome
  registered : ∀ p ∈ lx.productions, ∀ spec ∈ p.specs, (lx.registry.get? spec.token).isSome

namespace Ledger

theorem new (config : Config) : (Lexer.new config).Ledger where
  isDefault_iff i s hs := by
    have hi : i < 1 := (Array.getElem?_eq_some_iff.mp hs).1
    obtain rfl := eq_new_of_getElem? hs
    exact iff_of_true rfl (Nat.lt_one_iff.mp hi)
  productions_eq i s hs := by
    obtain rfl := eq_new_of_getElem? hs
    rfl
  declared p hp := absurd hp List.not_mem_nil
  registered p hp := absurd hp List.not_mem_nil

theorem sameAccount (h : lx.Ledger) (hsame : lx.SameAccount lx') : lx'.Ledger where
  isDefault_iff i s' hs' := by
    obtain ⟨s, hs, heq⟩ := hsame.exists_state hs'
    simp only [LexicalState.account, Prod.mk.injEq] at heq
    rw [← heq.2.1]
    exact h.isDefault_iff i s hs
  productions_eq i s' hs' := by
    obtain ⟨s, hs, heq⟩ := hsame.exists_state hs'
    simp only [LexicalState.account, Prod.mk.injEq] at heq
    obtain ⟨hname, hdefault, hproductions⟩ := heq
    have hshare : s'.share = s.share := by
      funext p
      rw [LexicalState.share, LexicalState.share, hname, hdefault]
    rw [← hproductions, hsame.productions_eq, hshare]
    exact h.productions_eq i s hs
  declared p hp name hname := by
    rw [stateIndex?_eq_of_positions hsame.positions_eq]
    exact h.declared p (hsame.productions_eq ▸ hp) name hname
  registered p hp spec hspec :=
    hsame.isSome_get? (h.registered p (hsame.productions_eq ▸ hp) spec hspec)

/-- No production that is there names a lexical state that is declared only now. -/
theorem push (h : lx.Ledger) (hlx : lx.Coherent) (hname : lx.stateIndex? name = none) :
    Ledger { lx with
      states := lx.states.push (.new name false)
      positions := (name, lx.states.size) :: lx.positions } where
  isDefault_iff i s hs := by
    rw [Array.getElem?_push] at hs
    split at hs
    · next hi =>
      obtain rfl := Option.some.inj hs
      exact iff_of_false Bool.false_ne_true (hi ▸ hlx.states_pos.ne')
    · exact h.isDefault_iff i s hs
  productions_eq i s hs := by
    rw [Array.getElem?_push] at hs
    split at hs
    · obtain rfl := Option.some.inj hs
      refine (List.flatMap_eq_nil_iff.mpr fun p hp => ?_).symm
      have hcount : p.lexicalStates.count name = 0 := by
        refine List.count_eq_zero_of_not_mem fun hmem => ?_
        have hsome := h.declared p hp name hmem
        rw [hname] at hsome
        exact Bool.false_ne_true hsome
      simp [LexicalState.share, LexicalState.new, hcount]
    · exact h.productions_eq i s hs
  declared p hp n hn := by
    obtain ⟨i, s, hs, heq⟩ := hlx.located.isSome_iff.mp (h.declared p hp n hn)
    obtain ⟨hi, rfl⟩ := Array.getElem?_eq_some_iff.mp hs
    exact (hlx.located.push hname).isSome_iff.mpr ⟨i, _, Array.getElem?_push_lt hi, heq⟩
  registered := h.registered

/-- A position is as often among the targets of a production as is the share of the lexical state
there. -/
theorem count_targets (h : lx.Ledger) (hlx : lx.Coherent) {targets : List Nat}
    (htargets : lx.targets p = .ok targets) (hs : lx.states[i]? = some s) :
    targets.count i = s.share p := by
  rw [LexicalState.share]
  obtain ⟨hempty, rfl⟩ | ⟨hne, hall⟩ := targets_eq_ok htargets
  · rw [if_pos hempty, List.count_singleton]
    by_cases hi : i = 0
    · rw [if_pos ((h.isDefault_iff i s hs).mpr hi), hi]
      rfl
    · rw [if_neg fun hdefault => hi ((h.isDefault_iff i s hs).mp hdefault)]
      exact if_neg fun heq => hi (beq_iff_eq.mp heq).symm
  · rw [if_neg hne]
    exact hlx.count_eq hall hs

theorem addProduction (h : lx.Ledger) (hlx : lx.Coherent) {targets : List Nat}
    (htargets : lx.targets p = .ok targets)
    (hregistered : ∀ spec ∈ p.specs, (lx.registry.get? spec.token).isSome)
    (hsame : lx.SameAccount lx') :
    Ledger { lx'.modifyStates targets (·.addProduction p) with
      productions := lx'.productions ++ [p] } := by
  have h' := h.sameAccount hsame
  -- a lexical state is one that was there, with its share of the production behind the others
  have hstate : ∀ (i : Nat) (s : LexicalState),
      (lx'.modifyStates targets (·.addProduction p)).states[i]? = some s →
        ∃ s', lx'.states[i]? = some s' ∧
          s = { s' with productions := s'.productions ++ List.replicate (s'.share p) p } := by
    intro i s hs
    rw [getElem?_modifyStates] at hs
    obtain ⟨s', hs', rfl⟩ := Option.map_eq_some_iff.mp hs
    obtain ⟨s₀, hs₀, heq⟩ := hsame.exists_state hs'
    simp only [LexicalState.account, Prod.mk.injEq] at heq
    have hcount : targets.count i = s'.share p := by
      rw [h.count_targets hlx htargets hs₀, LexicalState.share, LexicalState.share, heq.1,
        heq.2.1]
    exact ⟨s', hs', by rw [iterate_addProduction, hcount]⟩
  refine ⟨?_, ?_, ?_, ?_⟩
  · intro i s hs
    obtain ⟨s', hs', rfl⟩ := hstate i s hs
    exact h'.isDefault_iff i s' hs'
  · intro i s hs
    obtain ⟨s', hs', rfl⟩ := hstate i s hs
    dsimp only
    rw [List.flatMap_append, h'.productions_eq i s' hs', List.flatMap_singleton]
    rfl
  · intro q hq name hname
    change (lx'.stateIndex? name).isSome
    obtain hq | hq := List.mem_append.mp hq
    · exact h'.declared q hq name hname
    · obtain rfl := List.mem_singleton.mp hq
      obtain ⟨j, -, hj⟩ := exists_target htargets hname
      rw [stateIndex?_eq_of_positions hsame.positions_eq]
      exact Option.isSome_of_eq_some hj
  · intro q hq spec hspec
    obtain hq | hq := List.mem_append.mp hq
    · exact h'.registered q hq spec hspec
    · obtain rfl := List.mem_singleton.mp hq
      exact hsame.isSome_get? (hregistered spec hspec)

end Ledger

theorem Reachable.ledger (h : lx.Reachable) : lx.Ledger := by
  induction h with
  | new config => exact .new config
  | run hlx c ih =>
      obtain ⟨name, hname, heq⟩ | ⟨p, targets, lx₁, htargets, hregistered, hsame, heq⟩ | hsame :=
        c.account_cases hlx.coherent
      · rw [heq]
        exact ih.push hlx.coherent hname
      · rw [heq]
        exact ih.addProduction hlx.coherent htargets hregistered hsame
      · exact ih.sameAccount hsame

/-! ### Switches lead elsewhere -/

/-- No switch of a lexical state leads to the lexical state itself. -/
theorem Reachable.ne_name_of_mem_transitions (h : lx.Reachable) (hs : lx.states[i]? = some s) :
    ∀ u ∈ s.transitions, u.2 ≠ s.name := by
  refine (h.forall_state (P := fun s => ∀ u ∈ s.transitions, u.2 ≠ s.name) ?_ ?_ hs).2
  · exact fun _ _ _ hu => absurd hu List.not_mem_nil
  · intro r config s s' _ hstep hP
    obtain ⟨_, _, _, _, rfl⟩ | rfl := hstep.cases
    · exact hP
    · have hrecords := @LexicalState.records_process s r config
      intro u hu
      rw [hrecords.name_eq]
      obtain hu | ⟨hne, -⟩ := hrecords.transitions u hu
      · exact hP u hu
      · exact hne

/-! ### Consistency -/

/-- What a lexer says in several places agrees. Besides its ledger these are the names of lexical
states, which are distinct and found where they stand, and the switches, each of which leads to
another lexical state. -/
structure Consistent (lx : Lexer) : Prop extends Ledger lx where
  states_pos : 0 < lx.states.size
  nodup_names : (lx.states.toList.map (·.name)).Nodup
  stateIndex?_iff : ∀ (name : String) (i : Nat),
    lx.stateIndex? name = some i ↔ lx.stateName? i = some name
  switches : ∀ (i : Nat) (s : LexicalState), lx.states[i]? = some s →
    ∀ u ∈ s.transitions, ∃ j, j ≠ i ∧ lx.stateIndex? u.2 = some j

theorem Coherent.nodup_names (h : lx.Coherent) : (lx.states.toList.map (·.name)).Nodup := by
  apply List.nodup_iff_getElem?_ne_getElem?.mpr
  intro i j hij hj heq
  have hj' : j < lx.states.size := by simpa using hj
  have hs := Array.getElem?_eq_getElem (hij.trans hj')
  have ht := Array.getElem?_eq_getElem hj'
  simp only [List.getElem?_map, Array.getElem?_toList, hs, ht, Option.map_some] at heq
  exact hij.ne (h.name_inj hs ht (Option.some.inj heq))

theorem Coherent.stateIndex?_iff (h : lx.Coherent) :
    lx.stateIndex? name = some i ↔ lx.stateName? i = some name := by
  rw [stateName?, Option.map_eq_some_iff]
  exact h.located name i

/-- Whatever commands are given to a lexer, and whether they are carried out or fail on the way, it
stays consistent; and processing puts the productions back that it takes out, whether it succeeds or
fails. -/
theorem consistent_foldl (config : Config) (commands : List Command) :
    (commands.foldl Command.run (new config)).Consistent ∧
      ∀ (s : LexicalState) (r : TokenRegistry) (config : Config),
        (final (LexicalState.process r config) s).productions = s.productions := by
  have h := (Reachable.new config).foldl commands
  generalize commands.foldl Command.run (new config) = lx at h ⊢
  refine ⟨⟨h.ledger, h.coherent.states_pos, h.coherent.nodup_names,
    fun _ _ => h.coherent.stateIndex?_iff, ?_⟩,
    fun _ _ _ => LexicalState.records_process.productions_eq⟩
  intro i s hs u hu
  obtain ⟨j, hj⟩ := Option.isSome_iff_exists.mp (h.coherent.transitions i s hs u hu)
  refine ⟨j, ?_, hj⟩
  rintro rfl
  exact h.ne_name_of_mem_transitions hs u hu ((h.coherent.name_eq_iff hj hs).mpr rfl)

end Lexer

end ScannerTables
