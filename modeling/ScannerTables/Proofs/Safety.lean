import ScannerTables.Proofs.Evolution
import ScannerTables.Proofs.NormalForm
import ScannerTables.Proofs.Slices
/-!
# Definitions never lead to a misuse

Whatever definitions, productions and literals a lexer was given, and whichever of its commands
failed, no call finds a precondition broken. Each lexical state stays `Linked`, so every reader
finds what it looks up; building breaks off for a fault of the definitions or for nothing, also if
each of its look-ups is checked; and no text is cut within a character.
-/

namespace ScannerTables

open Checked

/-! ### Character classes -/

/-- The code points that a class stands for, where a complement is taken in whole blocks. -/
def CharacterClass.checkedMembers (k : CharacterClass) (ignoreCase : Bool) :
    Except Misuse IntervalSet :=
  if k.negated then (k.base ignoreCase).complementWithin codePointLimit
  else .ok (k.base ignoreCase)

theorem CharacterClass.checkedMembers_eq (k : CharacterClass) (ignoreCase : Bool) :
    k.checkedMembers ignoreCase = .ok (k.members ignoreCase) := by
  rw [checkedMembers, members]
  split
  · exact if_pos (by decide)
  · rfl

namespace LexicalState

variable {s s' : LexicalState} {r : TokenRegistry} {config : Config} {L : Nat → List Nat → Prop}

/-! ### Generating the dispatch -/

/-- The composites that a scan can reach, with the members of each looked up. -/
def checkedReachedFrom (s : LexicalState) (start : Nat) : Except Misuse (List Nat) := do
  let found ← s.reachedFrom start
  discard (found.mapM fun id => do s.checkedSuccessors (← s.composite id).members)
  return found

/-- The order of indices. -/
def checkedIndexOrder (s : LexicalState) (start : Nat) (found : List Nat) :
    Except Misuse (List Nat) := do
  if found.head? = some start then
    let keyed ← (found.drop 1).mapM fun id => do
      return (id, ← s.checkedHasFinalMember (← s.composite id).members)
    return start :: (keyed.mergeSort fun p p' => p.2 || !p'.2).map Prod.fst
  else return [start]

/-- The lexical state with the composites that a scan can reach put in order. -/
def checkedArrange (s : LexicalState) (start : Nat) : Except Misuse LexicalState := do
  let order ← s.checkedIndexOrder start (← s.checkedReachedFrom start)
  discard (order.mapM s.composite)
  let indices := enumerate s.composites.size id order
  return { s with dispatch := s.dispatch.map fun d => { d with order, indices } }

/-- The lexical state with a closed automaton and its dispatch. -/
def checkedGenerate (s : LexicalState) : Except Misuse LexicalState := do
  let automaton ← s.automaton.close
  let movers ← checkedFilter automaton.checkedNeedsMoveCode (List.range automaton.size)
  discard (movers.mapM automaton.state)
  let moveNames := enumerate automaton.size s.movesArrayName movers
  let (ids, composites) := internAll s.composites (automaton.states.toList.map (·.epsilon))
  let s := { s with
    automaton, composites, dispatch := some { compositeOf := ids.toArray, movers, moveNames } }
  s.checkedArrange (← checkedEntry ids.toArray initialState)

/-- Builds what is declared and the dispatch, unless that was done before. -/
def checkedProcess (r : TokenRegistry) (config : Config) : Process Unit := do
  let s ← get
  unless s.isProcessed do
    buildDeclarations r config
    modify reported
    match (← get).checkedGenerate with
    | .ok s => set s
    | .error m => throw (.misuse m)

end LexicalState

namespace Lexer

/-- Processes lexical states in order up to the first fault. -/
def checkedProcessAll (r : TokenRegistry) (config : Config) :
    List LexicalState → List LexicalState × Option Failure
  | [] => ([], none)
  | s :: rest =>
    match LexicalState.checkedProcess r config s with
    | .error e s => (s :: rest, some e)
    | .ok _ s =>
      let (rest, failure) := checkedProcessAll r config rest
      (s :: rest, failure)

/-- Builds every lexical state. -/
def checkedBuild : Building Unit := do
  let lx ← get
  match lx.checkTargets with
  | .error e => throw (.faulty e)
  | .ok _ =>
    let (states, failure) := checkedProcessAll lx.registry lx.config lx.states.toList
    let lx := { lx with states := states.toArray }
    set lx
    match failure with
    | some e => throw e
    | none =>
      set { lx with
        registry := lx.recordTargets
        warnings := lx.states.toList.flatMap LexicalState.warnings }

/-- The table of a lexer. -/
def checkedTable (lx : Lexer) : Except Misuse LexerTable :=
  return {
    lexicalStates := ← lx.states.toList.mapM (·.checkedTable)
    tokenNames := lx.registry.definitions.toList.map (·.label) ++
      lx.config.extraTokenNames.map some }

end Lexer

namespace LexicalState

variable {s s' : LexicalState} {r : TokenRegistry} {config : Config} {L : Nat → List Nat → Prop}

/-- The numbers that an automaton and a list of states with move code keep are ones of states. -/
structure Bounded (s : LexicalState) : Prop where
  resolves : ∀ m < s.automaton.size, s.automaton.Resolves m
  movers : ∀ m ∈ s.movers, m < s.automaton.size

theorem Bounded.of_eq (h : s.Bounded) (hautomaton : s'.automaton = s.automaton)
    (hdispatch : s'.dispatch = s.dispatch) : s'.Bounded where
  resolves := hautomaton ▸ h.resolves
  movers := by
    rw [LexicalState.movers, hdispatch, hautomaton]
    exact h.movers

theorem bounded_of_dispatch (ha : s.automaton.Assembled L) (h : s.dispatch = none) : s.Bounded where
  resolves m hm := by
    obtain ⟨t, ht⟩ := Automaton.exists_state? hm
    refine ⟨t, ht, fun q hq => ?_⟩
    exact (ha.lt_of_targets ht (.inr hq)).2
  movers m hm := by
    rw [LexicalState.movers, h] at hm
    exact absurd hm List.not_mem_nil

theorem movers_of_generate (h : s.generate = .ok s') :
    s'.automaton.successorsExist = true ∧
      s'.movers = (List.range s'.automaton.size).filter s'.automaton.needsMoveCode := by
  obtain ⟨automaton, hclose, h⟩ := bind_eq_ok.mp h
  dsimp only at h
  split at h
  case isFalse =>
    obtain ⟨_, hthrow, -⟩ := bind_eq_ok.mp h
    exact absurd hthrow throw_ne_ok
  case isTrue hexist =>
    obtain ⟨found, -, heq⟩ := bind_eq_ok.mp h
    obtain rfl := Except.ok.inj heq
    exact ⟨hexist, rfl⟩

theorem bounded_of_generate (h : s.generate = .ok s') : s'.Bounded where
  resolves m hm := Automaton.resolves_of_successorsExist (movers_of_generate h).1 hm
  movers m hm := by
    rw [(movers_of_generate h).2] at hm
    exact List.mem_range.mp (List.mem_filter.mp hm).1

theorem Called.bounded (h : s.Called) : s.Bounded := by
  cases hdispatch : s.dispatch with
  | none =>
      obtain ⟨L, hL⟩ := h.kept.assembled hdispatch
      exact bounded_of_dispatch hL hdispatch
  | some d =>
      have hprocessed : s.isProcessed = true := by rw [isProcessed, hdispatch, Option.isSome_some]
      obtain ⟨u, s', -, hgen, hautomaton, hsame⟩ := h.generated hprocessed
      exact (bounded_of_generate hgen).of_eq hautomaton.symm hsame.symm

theorem linked_of_arranged {start : Nat} {found : List Nat} (h : s.Bounded)
    (ha : s.Arranged start found) : s.Linked where
  resolves := h.resolves
  composite q id hq := by
    obtain ⟨t, -, hmembers⟩ := ha.state q id hq
    exact (Array.getElem?_eq_some_iff.mp hmembers).1
  order id hid := by
    have hreach : Relation.ReflTransGen s.Follows start id := by
      rw [LexicalState.order, ha.order_eq, Option.getD_some] at hid
      rcases ha.mem_order.mp hid with rfl | hfound
      · exact .refl
      · exact ((ha.mem_found id).mp hfound).1
    obtain ⟨p, t, ht, hmembers⟩ := ha.exists_state hreach
    refine ⟨t.epsilon, hmembers, fun m hm => ?_⟩
    obtain ⟨u, -, hu, -⟩ := ha.follower p t ht m hm
    exact Automaton.lt_size hu
  movers := h.movers

/-- Whatever was called, every number that is kept is one of a state or of a composite. -/
theorem Called.linked (h : s.Called) : s.Linked := by
  cases hdispatch : s.dispatch with
  | none =>
      refine ⟨h.bounded.resolves, fun q id hq => ?_, fun id hid => ?_, h.bounded.movers⟩
      · rw [compositeOf?, hdispatch] at hq
        exact absurd hq.symm (Option.some_ne_none id)
      · rw [order, hdispatch] at hid
        exact absurd hid List.not_mem_nil
  | some d =>
      obtain ⟨start, found, ha⟩ :=
        h.kept.arranged (by rw [hdispatch]; exact Option.some_ne_none d)
      exact linked_of_arranged h.bounded ha

/-! ### Building -/

/-- Composites that can be looked up with all their members. -/
def Readable (s : LexicalState) (ids : List Nat) : Prop :=
  ∀ id ∈ ids, ∃ members, s.composites[id]? = some members ∧
    ∀ m ∈ members, s.automaton.Resolves m

section

variable {start : Nat} {ids found : List Nat}

theorem checkedReachedFrom_eq (hfound : s.reachedFrom start = .ok found) (h : s.Readable found) :
    s.checkedReachedFrom start = .ok found := by
  have hread : found.mapM (fun id => do s.checkedSuccessors (← s.composite id).members) =
      .ok (found.map fun id => s.successors (s.composites[id]?.getD [])) := by
    refine mapM_eq_ok_map fun id hid => ?_
    obtain ⟨members, hmembers, hresolves⟩ := h id hid
    rw [composite_eq hmembers, ok_bind, checkedSuccessors_eq hresolves, hmembers, Option.getD_some]
  rw [checkedReachedFrom, hfound, ok_bind, hread]
  rfl

theorem checkedIndexOrder_eq (h : s.Readable found) :
    s.checkedIndexOrder start found = .ok (s.indexOrder start found) := by
  rw [checkedIndexOrder, indexOrder]
  split
  · have hkeyed : ((found.drop 1).mapM fun id => do
        return (id, ← s.checkedHasFinalMember (← s.composite id).members)) =
          (.ok ((found.drop 1).map fun id => (id, s.completes id)) :
            Except Misuse (List (Nat × Bool))) := by
      refine mapM_eq_ok_map fun id hid => ?_
      obtain ⟨members, hmembers, hresolves⟩ := h id (List.mem_of_mem_drop hid)
      rw [composite_eq hmembers, ok_bind, checkedHasFinalMember_eq hresolves, completes, hmembers]
      rfl
    have hsorted := List.map_mergeSort (l := found.drop 1) (f := fun id => (id, s.completes id))
      (r := fun id id' => s.completes id || !s.completes id') (s := fun p p' => p.2 || !p'.2)
      fun _ _ _ _ => rfl
    rw [hkeyed, ok_bind, ← hsorted, List.map_map]
    exact congrArg (fun l => Except.ok (start :: l)) (List.map_id _)
  · rfl

theorem checkedArrange_eq (hfound : s.reachedFrom start = .ok found)
    (h : s.Readable (s.indexOrder start found)) : s.checkedArrange start =
      .ok { s with
        dispatch := s.dispatch.map fun d => { d with
          order := s.indexOrder start found
          indices := enumerate s.composites.size id (s.indexOrder start found) } } := by
  have hreadable : s.Readable found := fun id hid => h id ((mem_indexOrder hfound).mpr (.inr hid))
  have hcomposites : (s.indexOrder start found).mapM s.composite =
      .ok ((s.indexOrder start found).map fun id =>
        ⟨id, s.indexOf? id, s.composites[id]?.getD []⟩) := by
    refine mapM_eq_ok_map fun id hid => ?_
    obtain ⟨members, hmembers, -⟩ := h id hid
    rw [composite_eq hmembers, hmembers, Option.getD_some]
  rw [checkedArrange, checkedReachedFrom_eq hfound hreadable, ok_bind,
    checkedIndexOrder_eq hreadable, ok_bind, hcomposites]
  rfl

end

/-- All that generating looks up exists. -/
theorem checkedGenerate_eq (ha : s.automaton.Assembled L) (hinterned : Interned s.composites) :
    s.checkedGenerate = s.generate := by
  obtain ⟨s', hgen⟩ := exists_generate ha
  obtain ⟨start, _, harranged⟩ := arranged_of_generate ha hinterned hgen
  have hlinked := linked_of_arranged (bounded_of_generate hgen) harranged
  obtain ⟨hexist, hmovers⟩ := movers_of_generate hgen
  obtain ⟨automaton, ids, composites, ⟨compositeOf, movers, moveNames, order, indices⟩, found,
    hclose, hintern, rfl, rfl, hfound, horder, -, hnames, hindices⟩ := exists_of_generate hgen
  have hstart : ids.toArray[initialState]? = some start := harranged.start_eq
  rw [← List.getElem?_toArray, hstart, Option.getD_some] at hfound horder
  have hneeds : checkedFilter automaton.checkedNeedsMoveCode (List.range automaton.size) =
      .ok movers := by
    rw [show movers = _ from hmovers]
    exact checkedFilter_eq fun id hid =>
      (hlinked.resolves id (List.mem_range.mp hid)).checkedNeedsMoveCode_eq
  have hstates : movers.mapM automaton.state = _ := Automaton.mapM_state_eq hlinked.movers
  have hentry : checkedEntry ids.toArray initialState = .ok start := by rw [checkedEntry, hstart]
  have hreadable : ∀ id ∈ order, ∃ members, composites[id]? = some members ∧
      ∀ m ∈ members, automaton.Resolves m := by
    intro id hid
    obtain ⟨members, hmembers, hlt⟩ := hlinked.order id hid
    exact ⟨members, hmembers, fun m hm => hlinked.resolves m (hlt m hm)⟩
  rw [hgen, checkedGenerate, hclose, ok_bind, hneeds, ok_bind, hstates, hintern]
  dsimp only
  rw [hentry, ok_bind]
  rw [show indices = _ from hindices, show moveNames = _ from hnames]
  -- what is read before the order is known does not depend on it
  rw [show order = _ from horder] at hreadable ⊢
  exact checkedArrange_eq hfound hreadable

theorem checkedProcess_eq (h : s.Called) : checkedProcess r config s = process r config s := by
  rw [checkedProcess, process, run_get_bind, run_get_bind]
  cases hdispatch : s.dispatch with
  | some d =>
      rw [isProcessed, hdispatch]
      rfl
  | none =>
      rw [isProcessed, hdispatch]
      obtain ⟨L, hL⟩ := h.kept.assembled hdispatch
      refine run_bind_congr fun _ t hrun => ?_
      rw [buildDeclarations_eq] at hrun
      obtain ⟨done, hattempt, -⟩ := exists_attempt r (s.plan r config) hL
      rw [final_eq_of_eq_ok hrun] at hattempt
      have hinterned : Interned t.reported.composites := by
        obtain ⟨_, _, _, rfl⟩ := hattempt.rest
        exact h.kept.interned
      have ht := assembled_of_run hL hrun
      have hgenerate := checkedGenerate_eq (s := t.reported) ht hinterned
      rw [run_modify_bind, run_modify_bind, run_get_bind, run_get_bind]
      cases hresult : t.reported.generate <;> simp only [hgenerate.trans hresult]

theorem exists_fault_of_runStep {step : BuildStep} {e : Failure} (ha : s.automaton.Assembled L)
    (h : runStep r step s = .error e s') : ∃ d, e = .faulty d := by
  cases step with
  | unknown ordinal =>
      obtain ⟨rfl, -⟩ := EStateM.Result.error.inj h
      exact ⟨_, rfl⟩
  | token ordinal ignoreCase switch =>
      simp only [runStep] at h
      split at h
      · exact absurd h.symm error_ne_ok
      · next e' automaton hb =>
        obtain ⟨rfl, -⟩ := EStateM.Result.error.inj h
        exact ((Build.wp_token ha.size_pos).of_error hb).1

/-- Processing is stopped by faults of definitions alone. -/
theorem exists_fault_of_process {e : Failure} (h : s.Called)
    (herror : process r config s = .error e s') : ∃ d, e = .faulty d := by
  cases hdispatch : s.dispatch with
  | some d =>
      rw [process_eq, run_get_bind, isProcessed, hdispatch] at herror
      exact absurd herror.symm error_ne_ok
  | none =>
      rw [process_eq, run_get_bind, isProcessed, hdispatch] at herror
      obtain ⟨L, hL⟩ := h.kept.assembled hdispatch
      rcases run_bind_eq_error.mp herror with hrun | ⟨⟨⟩, t, hrun, hgen⟩
      · obtain ⟨before, step, after, t, -, hbefore, hstep⟩ := forM_eq_error hrun
        exact exists_fault_of_runStep (assembled_of_run hL hbefore) hstep
      · have ht := assembled_of_run hL hrun
        obtain ⟨t', ht'⟩ := exists_generate (s := t.reported) ht
        rw [run_modify_bind, run_get_bind, ht'] at hgen
        exact absurd hgen.symm error_ne_ok

end LexicalState

namespace Lexer

variable {lx lx' : Lexer} {r : TokenRegistry} {config : Config} {states : List LexicalState}

theorem checkedProcessAll_eq (h : ∀ s ∈ states, s.Called) :
    checkedProcessAll r config states = processAll r config states := by
  induction states with
  | nil => rfl
  | cons s states ih =>
      rw [List.forall_mem_cons] at h
      rw [checkedProcessAll, LexicalState.checkedProcess_eq h.1, ih h.2]
      rfl

theorem exists_fault_of_processAll {e : Failure} (h : ∀ s ∈ states, s.Called)
    (herror : (processAll r config states).2 = some e) : ∃ d, e = .faulty d := by
  induction states with
  | nil => exact absurd herror.symm (Option.some_ne_none e)
  | cons s states ih =>
      rw [List.forall_mem_cons] at h
      rw [processAll] at herror
      cases hs : LexicalState.process r config s with
      | error e' t =>
          rw [hs] at herror
          obtain rfl := Option.some.inj herror
          exact LexicalState.exists_fault_of_process h.1 hs
      | ok _ t =>
          rw [hs] at herror
          exact ih h.2 herror

theorem Reachable.forall_called (h : lx.Reachable) : ∀ s ∈ lx.states.toList, s.Called := by
  intro s hs
  obtain ⟨i, hi⟩ := Array.mem_iff_getElem?.mp (Array.mem_toList_iff.mp hs)
  exact h.called hi

theorem checkedBuild_eq (h : lx.Reachable) : checkedBuild lx = build lx := by
  rw [checkedBuild, run_get_bind, checkedProcessAll_eq h.forall_called]
  rfl

/-- A build breaks off for faults of definitions alone. -/
theorem exists_fault_of_build {e : Failure} (h : lx.Reachable)
    (herror : build lx = .error e lx') : ∃ d, e = .faulty d := by
  rw [build, run_get_bind] at herror
  cases hchecked : lx.checkTargets with
  | error d =>
      rw [hchecked] at herror
      obtain ⟨rfl, -⟩ := EStateM.Result.error.inj herror
      exact ⟨d, rfl⟩
  | ok u =>
      rw [hchecked] at herror
      have hfault := fun e => @exists_fault_of_processAll lx.registry lx.config _ e h.forall_called
      dsimp only at herror
      generalize processAll lx.registry lx.config lx.states.toList = processed at herror hfault
      obtain ⟨states, failure⟩ := processed
      cases failure with
      | some e' =>
          obtain ⟨rfl, -⟩ := EStateM.Result.error.inj herror
          exact hfault _ rfl
      | none => exact absurd herror.symm error_ne_ok

theorem Reachable.linked (h : lx.Reachable) {i : Nat} {s : LexicalState}
    (hs : lx.states[i]? = some s) : s.Linked :=
  (h.called hs).linked

theorem checkedTable_eq (h : lx.Reachable) : lx.checkedTable = .ok lx.table := by
  have htables : lx.states.toList.mapM (·.checkedTable) = .ok (lx.states.toList.map (·.table)) := by
    refine mapM_eq_ok_map fun s hs => ?_
    obtain ⟨i, hi⟩ := Array.mem_iff_getElem?.mp (Array.mem_toList_iff.mp hs)
    exact (h.linked hi).checkedTable_eq
  rw [checkedTable, htables]
  rfl

/-- No definition leads to a misuse. Of a lexer that any commands made, whether they succeeded or
failed, nothing can be asked that finds a precondition broken. Complements of character classes are
taken in whole blocks, and on words the ranges of every class are listed without a sum or a shift
that does not fit and without a word that is not there. A build stops for faults of definitions
alone, and does the same if every look-up is checked; the table, the drawings and the tokens of
every text are what they are if every look-up and every byte offset is checked. -/
theorem never_misused (lx : Lexer) (h : lx.Reachable) :
    (∀ (k : CharacterClass) (ignoreCase : Bool),
      k.checkedMembers ignoreCase = .ok (k.members ignoreCase)) ∧
    (∀ (k : CharacterClass) (ranges : List Interval32) (ignoreCase : Bool),
      k.ranges = ranges.map Interval32.toInterval →
        ∃ l, PackedSet.orderedIntervals ranges k.negated ignoreCase = .ok l ∧
          l.map Interval32.toInterval = k.orderedRanges ignoreCase) ∧
    checkedBuild lx = build lx ∧ (∀ m lx', build lx ≠ .error (.misuse m) lx') ∧
    lx.checkedTable = .ok lx.table ∧
    (∀ (i : Nat) (s : LexicalState), lx.states[i]? = some s → s.checkedDot = .ok s.dot) ∧
    ∀ text, lx.checkedTokenize text = .ok (lx.tokenize text) := by
  refine ⟨fun k => k.checkedMembers_eq,
    fun k ranges ignoreCase hranges => CharacterClass.exists_orderedIntervals hranges ignoreCase,
    checkedBuild_eq h, fun m lx' herror => ?_,
    checkedTable_eq h, fun i s hs => (h.linked hs).checkedDot_eq,
    checkedTokenize_eq h.coherent fun i s hs => ⟨h.linked hs, (h.called hs).kept.numbered⟩⟩
  obtain ⟨d, heq⟩ := exists_fault_of_build h herror
  cases heq

/-- A class with a range that is inverted and one that lies past the last code point, a complement,
a build that fails for a label that is missing, and a lexical state that is declared after the
build: characters of two bytes are kept whole. -/
theorem never_misused_irregular : ∃ lx : Lexer, lx.Reachable ∧ checkedBuild lx = build lx ∧
    lx.checkedTable = .ok lx.table ∧
      lx.checkedTokenize "αAéβ" = .ok (lx.tokenize "αAéβ") ∧
        (lx.tokenize "αAéβ").tokens.map (fun t => (t.token, t.start, t.stop)) =
          [(1, 0, 2), (2, 2, 5), (1, 5, 7)] ∧
        lx.states.toList.map (fun s => (s.name, s.isProcessed)) =
          [("DEFAULT", true), ("LATE", false)] := by
  let commands : List Command := [
    .addDefinition
      { pattern := .charClass { ranges := [⟨57, 48⟩, ⟨945, 969⟩, ⟨0x110000, 0x110005⟩] } },
    .addDefinition { pattern := .sequence [.reference "A", .literal "é"] },
    .addTokenProduction { specs := [{ token := 1 }, { token := 2 }] },
    .build,
    .addDefinition
      { label := some "A", pattern := .charClass { ranges := [⟨97, 122⟩], negated := true } },
    .build, .addLexicalState "LATE"]
  have h : (commands.foldl Command.run (new {})).Reachable := (Reachable.new {}).foldl commands
  obtain ⟨-, -, hbuild, -, htable, -, htokens⟩ := never_misused _ h
  exact ⟨_, h, hbuild, htable, htokens "αAéβ", by cbv, by cbv⟩

end Lexer

end ScannerTables
