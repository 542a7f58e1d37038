import Mathlib
import ScannerTables.Proofs.Addition
import ScannerTables.Proofs.Draining
import ScannerTables.Proofs.Memoization
/-!
# Members of composites are live

Two tests decide what of a state gets into the tables. It is a member of composites if it moves on
characters, and it gets a move array if its successor is final or has moves. A member that has no
array is a dead end: it is tried, and nothing comes of it. An array without characters belongs to no
member.

Neither occurs in a `Live` automaton, in which a state with a successor has characters and every
state that can be reached leads to a final one. Building token after token makes such an automaton,
failed attempts included, if the classes that are met have members and the choices alternatives.
-/

namespace ScannerTables

open Relation

/-! ### Automata without dead ends -/

namespace Automaton

/-- A state leads to a final state. -/
def Completes (a : Automaton) (p : Nat) : Prop :=
  ∃ q s, Path.Reaches a.moves p q ∧ a.state? q = some s ∧ s.isFinal = true

/-- An automaton that tokens were built into, none of them with a dead end. -/
structure Live (a : Automaton) : Prop where
  assembled : ∃ L, a.Assembled L
  solid : a.Solid
  completes : ∀ p, p ≠ 0 → Path.Reaches a.moves 0 p → a.Completes p

theorem Live.new : (({} : Automaton).addState none).Live where
  assembled := ⟨_, .new⟩
  solid := Solid.addState (fun _ _ hs => absurd (lt_size hs) (Nat.not_lt_zero _)) none
  completes p hp hreach := by
    obtain ⟨w, path⟩ := hreach
    have hlt := Assembled.new.lt_size_of_path (p := 0) (by simp) path
    exact absurd (Nat.lt_one_iff.mp hlt) hp

end Automaton

/-! ### Building on -/

namespace Build.Added

open Automaton

variable {a a' : Automaton} {f : Fragment} {token initial p : Nat}

/-- What led to a final state still does. -/
theorem completes (h : Added token initial a f a') (hp : a.Completes p) : a'.Completes p := by
  obtain ⟨q, s, hreach, hs, hfinal⟩ := hp
  have hreach' := hreach.mono fun p o q => h.moves_of
  by_cases hq : q = initial
  · obtain ⟨s₀, epsilon, hs₀, hs', -, -⟩ := h.state_initial
    rw [hq] at hs hreach'
    obtain rfl := Option.some.inj (hs.symm.trans hs₀)
    exact ⟨initial, _, hreach', hs', hfinal⟩
  · exact ⟨q, s, hreach', (h.state_ne q (lt_size hs) hq).trans hs, hfinal⟩

end Build.Added

namespace Automaton.Live

variable {a a' : Automaton} {f : Fragment} {token p : Nat} {K : Language Nat}

/-- A token of whose states all lead to the final one keeps an automaton live. -/
theorem of_installed (h : a.Live) (hf : Build.Installed token 0 K a f a') (hsolid : a'.Solid)
    (hreaches : ∀ p, a.size ≤ p → p < a'.size → Path.Reaches a'.moves p f.exit) : a'.Live := by
  obtain ⟨L, hL⟩ := h.assembled
  have hL' := hf.assembled hL
  refine ⟨⟨_, hL'⟩, hsolid, fun p hp hreach => ?_⟩
  obtain ⟨w, path⟩ := hreach
  by_cases hlt : p < a.size
  · have hold : Path a.moves 0 w p :=
      (path.mono_of_entered (R := (· < a.size))
        (fun _ _ _ hq hm => hf.added.moves_of_lt hq hm) hlt).1
    exact hf.added.completes (h.completes p hp ⟨w, hold⟩)
  · have hp' := hL'.lt_size_of_path hL'.size_pos path
    obtain ⟨s, hs⟩ := exists_state? hf.exit_mem.2
    exact ⟨f.exit, s, hreaches p (Nat.le_of_not_lt hlt) hp', hs,
      (hf.final_iff _ s hf.exit_mem.1 hs).mpr rfl⟩

/-- States that nothing leads to keep an automaton live if they have characters where they have
successors. -/
theorem of_extends (h : a.Live) (he : Extends token a.size a a') (hsolid : a'.Solid) : a'.Live := by
  obtain ⟨L, hL⟩ := h.assembled
  refine ⟨⟨_, hL.extends he⟩, hsolid, fun p hp hreach => ?_⟩
  obtain ⟨w, path⟩ := hreach
  have hold : Path a.moves 0 w p := by
    refine (path.mono_of_closed (R := (· < a.size)) (fun p o q hp hm => ?_) hL.size_pos).1
    obtain ⟨v, hv, hmv⟩ := (moves_congr (he.state_below p hp)).mp hm
    exact ⟨⟨v, hv, hmv⟩, (hL.lt_of_targets hv hmv.targets).2⟩
  obtain ⟨q, s, hreach, hs, hfinal⟩ := h.completes p hp ⟨w, hold⟩
  exact ⟨q, s, hreach.mono (moves_of_state_below he.state_below),
    (he.state_below q (lt_size hs)).trans hs, hfinal⟩

/-- Building a token whose pattern is inhabited keeps an automaton live, even if it fails. -/
theorem final_token {r : TokenRegistry} {ignoreCase : Bool} (h : a.Live)
    (hd : ∀ d, r.get? token = some d → r.Inhabits ignoreCase d.pattern) :
    (Checked.final (Build.token r token ignoreCase 0) a).Live := by
  obtain ⟨L, hL⟩ := h.assembled
  have hpos := hL.size_pos
  have hsolid : Build.WP (Build.token r token ignoreCase 0) (fun _ a' => a'.Solid)
      (fun _ a' => a'.Solid) a := Build.keepsSolid_token hd a h.solid
  cases hb : Build.token r token ignoreCase 0 a with
  | ok f a' =>
      rw [Checked.final, hb]
      obtain ⟨d, -, hf⟩ := (Build.wp_token hpos).of_ok hb
      exact h.of_installed hf (hsolid.of_ok hb) ((Build.wp_token_reaches hd hpos).of_ok hb)
  | error e a' =>
      rw [Checked.final, hb]
      exact h.of_extends ((Build.wp_token hpos).of_error hb).2 (hsolid.of_error hb)

end Automaton.Live

/-! ### Closing -/

namespace Automaton

variable {a a' : Automaton} {p q m : Nat} {w : List Nat} {u s : State} {L : Nat → List Nat → Prop}

/-- A state with characters and a successor moves to it. -/
theorem Assembled.exists_move (h : a.Assembled L) (hu : a.state? m = some u)
    (hranges : u.ranges ≠ []) (hq : u.next = some q) : ∃ c, a.moves m (some c) q := by
  have hasc := h.ascending hu
  obtain ⟨i, l, hl⟩ := List.exists_cons_of_ne_nil hranges
  have hmem : i ∈ u.ranges := hl ▸ List.mem_cons_self
  have hcovers : Covers u.ranges i.lo := ⟨i, hmem, Nat.le_refl _, hasc.nonempty i hmem⟩
  exact ⟨i.lo, (moves_iff hu).mpr ⟨(State.accepts_iff hasc).mpr hcovers, hq⟩⟩

/-- On the way to a final state, that state or one with characters is reached without a
character. -/
theorem Assembled.exists_of_completes (h : a.Assembled L) (hp : a.Completes p) :
    ∃ q s, Path a.moves p [] q ∧ a.state? q = some s ∧ (s.isFinal = true ∨ s.ranges ≠ []) := by
  obtain ⟨t, s, ⟨w, path⟩, hs, hfinal⟩ := hp
  induction path with
  | refl p => exact ⟨p, s, .refl p, hs, .inl hfinal⟩
  | epsilon hm _ ih =>
      obtain ⟨q, s', hq, hs', hlive⟩ := ih hs
      exact ⟨q, s', .epsilon hm hq, hs', hlive⟩
  | @char p _ _ c _ hm _ _ =>
      obtain ⟨v, hv, haccepts, -⟩ := hm
      refine ⟨p, v, .refl p, hv, .inr fun hnil => ?_⟩
      have hcovers := (State.accepts_iff (h.ascending hv)).mp haccepts
      rw [hnil] at hcovers
      exact Covers.nil hcovers

/-- In a closed automaton, something lies behind a state exactly if a final state or one with
characters is reached behind it without a character. -/
theorem Closes.needsMoveCode_iff (h : a.Closes a') (hu : a.state? m = some u)
    (hq : u.next = some q) (hlt : q < a.size) : a'.needsMoveCode m = true ↔
      ∃ p s, Path a.moves q [] p ∧ a.state? p = some s ∧ (s.isFinal = true ∨ s.ranges ≠ []) := by
  obtain ⟨u', hu', hclosed⟩ := h.exists_state hu
  obtain ⟨t, ht⟩ := exists_state? hlt
  obtain ⟨t', ht', hclosed'⟩ := h.exists_state ht
  have hsucc : a'.successor? m = some t' := by
    rw [successor?, hu', Option.bind_some, hclosed.next_eq, hq, Option.bind_some, ht']
  have hempty : (!t'.epsilon.isEmpty) = true ↔ ∃ p, p ∈ t'.epsilon := by
    rw [Bool.not_eq_true']
    exact List.isEmpty_eq_false_iff_exists_mem
  rw [Automaton.needsMoveCode, hsucc, Option.any_some, Bool.or_eq_true, hempty, hclosed'.final_iff]
  constructor
  · rintro (⟨p, s, path, hs, hfinal⟩ | ⟨p, hp⟩)
    · exact ⟨p, s, path, hs, .inl hfinal⟩
    · obtain ⟨path, s, hs, hranges⟩ := (hclosed'.mem_epsilon p).mp hp
      exact ⟨p, s, path, hs, .inr hranges⟩
  · rintro ⟨p, s, path, hs, hfinal | hranges⟩
    · exact .inl ⟨p, s, path, hs, hfinal⟩
    · exact .inr ⟨p, (hclosed'.mem_epsilon p).mpr ⟨path, s, hs, hranges⟩⟩

/-- What has something behind it has a successor. -/
theorem exists_of_needsMoveCode (hm : a.needsMoveCode m = true) :
    ∃ u q, a.state? m = some u ∧ u.next = some q := by
  obtain ⟨t, ht, -⟩ := (Option.any_eq_true _ _).mp hm
  obtain ⟨q, hq, -⟩ := Option.bind_eq_some_iff.mp ht
  obtain ⟨u, hu, hnext⟩ := Option.bind_eq_some_iff.mp hq
  exact ⟨u, q, hu, hnext⟩

/-- What is reached in a live automaton and moves on characters has something behind it. -/
theorem Live.needsMoveCode (h : a.Live) (hclose : a.Closes a') (hreach : Path.Reaches a.moves 0 m)
    (hu : a.state? m = some u) (hranges : u.ranges ≠ []) (hq : u.next = some q) :
    a'.needsMoveCode m = true := by
  obtain ⟨L, hL⟩ := h.assembled
  obtain ⟨hpos, hlt⟩ := hL.lt_of_targets hu (.inr hq)
  obtain ⟨c, hm⟩ := hL.exists_move hu hranges hq
  have hcompletes := h.completes q (Nat.ne_of_gt hpos) (hreach.trans (.of_move hm))
  exact (hclose.needsMoveCode_iff hu hq hlt).mpr (hL.exists_of_completes hcompletes)

/-- A state of a live automaton that has something behind it moves there on some character. -/
theorem Live.ranges_ne_nil (h : a.Live) (hclose : a.Closes a') (hm : a'.needsMoveCode m = true) :
    ∃ u, a'.state? m = some u ∧ u.ranges ≠ [] := by
  obtain ⟨u', q, hu', hnext⟩ := exists_of_needsMoveCode hm
  obtain ⟨u, hu⟩ := exists_state? (hclose.size_eq ▸ lt_size hu')
  have hclosed := hclose.state m u u' hu hu'
  refine ⟨u', hu', hclosed.ranges_eq ▸ h.solid m u hu ?_⟩
  rw [← hclosed.next_eq, hnext]
  exact Option.some_ne_none q

end Automaton

/-! ### Members -/

namespace LexicalState

variable {s : LexicalState} {start id m : Nat} {found : List Nat} {c : Composite}

namespace Arranged

variable {a : Automaton} {L : Nat → List Nat → Prop}

/-- The members of the composite of a state are what the state reaches without a character, as far
as it moves on characters. -/
theorem mem_of_compositeOf? (h : s.Arranged start found) (hclose : a.Closes s.automaton) {p : Nat}
    (hp : s.compositeOf? p = some id) {members : List Nat}
    (hmembers : s.composites[id]? = some members) (hm : m ∈ members) :
    Path a.moves p [] m ∧ ∃ u, a.state? m = some u ∧ u.ranges ≠ [] := by
  obtain ⟨t', ht', hepsilon⟩ := h.state p id hp
  obtain rfl : members = t'.epsilon := Option.some.inj (hmembers.symm.trans hepsilon)
  obtain ⟨t, ht⟩ := Automaton.exists_state? (hclose.size_eq ▸ Automaton.lt_size ht')
  exact ((hclose.state p t t' ht ht').mem_epsilon m).mp hm

/-- A composite that a scan reaches is that of a state which state 0 leads to. -/
theorem exists_reached (h : s.Arranged start found) (ha : a.Assembled L)
    (hclose : a.Closes s.automaton) (hid : ReflTransGen s.Follows start id) :
    ∃ p, s.compositeOf? p = some id ∧ Path.Reaches a.moves initialState p := by
  induction hid with
  | refl => exact ⟨initialState, h.start_eq, .refl _⟩
  | tail _ hlast ih =>
      obtain ⟨p, hp, hreach⟩ := ih
      obtain ⟨members, hmembers, hmem⟩ := hlast
      obtain ⟨m, hm, hnext⟩ := List.mem_filterMap.mp hmem
      obtain ⟨q, hq, hid⟩ := Option.bind_eq_some_iff.mp hnext
      obtain ⟨v', hv', hvq⟩ := Option.bind_eq_some_iff.mp hq
      obtain ⟨path, v, hv, hranges⟩ := h.mem_of_compositeOf? hclose hp hmembers hm
      rw [(hclose.state m v v' hv hv').next_eq] at hvq
      obtain ⟨c, hmove⟩ := ha.exists_move hv hranges hvq
      exact ⟨q, hid, (hreach.trans ⟨[], path⟩).trans (.of_move hmove)⟩

/-- A member of a composite that a scan reaches is reached from state 0, moves on characters and has
a successor. -/
theorem reaches_member (h : s.Arranged start found) (ha : a.Assembled L)
    (hclose : a.Closes s.automaton) (hc : c ∈ s.reachable) (hm : m ∈ c.members) :
    Path.Reaches a.moves initialState m ∧
      ∃ u q, a.state? m = some u ∧ u.ranges ≠ [] ∧ u.next = some q := by
  obtain ⟨p, hp, hreach⟩ := h.exists_reached ha hclose (h.reaches hc)
  obtain ⟨hmembers, -, -⟩ := composite?_eq_some.mp (h.mem_reachable.mp hc).2
  obtain ⟨path, u, hu, hranges⟩ := h.mem_of_compositeOf? hclose hp hmembers hm
  obtain ⟨q, -, -, hq, -⟩ := h.exists_follower hc hm
  obtain ⟨u', hu', hnext⟩ := Option.bind_eq_some_iff.mp hq
  rw [(hclose.state m u u' hu hu').next_eq] at hnext
  exact ⟨hreach.trans ⟨[], path⟩, u, q, hu, hranges, hnext⟩

/-- Something lies behind a member exactly if another composite does or the end of a token. -/
theorem needsMoveCode_iff (h : s.Arranged start found) (hc : c ∈ s.reachable)
    (hm : m ∈ c.members) : s.automaton.needsMoveCode m = true ↔
      (s.nextIndex? m).isSome ∨ s.automaton.isNextFinal m = true := by
  obtain ⟨q, c', hq, hc', hnone, -⟩ := h.next hc hm
  obtain ⟨id, hid, hcomposite⟩ := Option.bind_eq_some_iff.mp hc'
  obtain ⟨t, ht, hmembers⟩ := h.state q id hid
  obtain heq : t.epsilon = c'.members :=
    Option.some.inj (hmembers.symm.trans (composite?_eq_some.mp hcomposite).1)
  have hsucc : s.automaton.successor? m = some t := by
    rw [Automaton.successor?, hq, Option.bind_some, ht]
  have hindex : (s.nextIndex? m).isSome ↔ t.epsilon ≠ [] := by
    rw [Option.isSome_iff_ne_none, ne_eq, hnone, heq]
  rw [hindex, Automaton.needsMoveCode, Automaton.isNextFinal, hsucc]
  simp [or_comm]

end Arranged

/-! ### Move arrays -/

theorem Called.mem_movers (h : s.Called) (hs : s.isProcessed = true) :
    m ∈ s.movers ↔ s.automaton.needsMoveCode m = true := by
  rw [h.movers_eq hs, List.mem_filter, List.mem_range]
  refine and_iff_right_of_imp fun hm => ?_
  obtain ⟨u, q, hu, -⟩ := Automaton.exists_of_needsMoveCode hm
  exact Automaton.lt_size hu

/-- The states that have something behind them are those with a move array, and the table lists
it. -/
theorem Called.needsMoveCode_iff (h : s.Called) (hs : s.isProcessed = true) :
    s.automaton.needsMoveCode m = true ↔
      ∃ array, s.movesArrayName? m = some array ∧ array ∈ s.table.movesArrays := by
  rw [← h.mem_movers hs]
  constructor
  · intro hm
    have hname : (s.movesArrayName? m).isSome := by
      rw [h.kept.numbered.movesArrayName?_eq, Option.isSome_map]
      exact List.isSome_idxOf?.mpr hm
    obtain ⟨array, harray⟩ := Option.isSome_iff_exists.mp hname
    exact ⟨array, harray, List.mem_filterMap.mpr ⟨m, hm, harray⟩⟩
  · rintro ⟨array, hname, -⟩
    rw [h.kept.numbered.movesArrayName?_eq] at hname
    obtain ⟨i, hi, -⟩ := Option.map_eq_some_iff.mp hname
    exact List.isSome_idxOf?.mp (Option.isSome_of_eq_some hi)

/-! ### Calls -/

/-- Tokens are still being built into an automaton that is live. -/
structure Building (s : LexicalState) : Prop where
  dispatch_eq : s.dispatch = none
  live : s.automaton.Live

/-- The automaton is live, or is what closing made of one that is. -/
inductive Live (s : LexicalState) : Prop
  | building (h : s.Building)
  | processed {a : Automaton} (hs : s.isProcessed = true) (h : a.Live)
      (hclose : a.Closes s.automaton)

/-- All that is met in the patterns of the tokens that a plan builds is inhabited. -/
def InhabitedPlan (r : TokenRegistry) (steps : List BuildStep) : Prop :=
  ∀ token ignoreCase d, (token, ignoreCase) ∈ tokensOf steps → r.get? token = some d →
    r.Inhabits ignoreCase d.pattern

variable {s' : LexicalState} {r : TokenRegistry} {config : Config}

/-- A step whose token has an inhabited pattern keeps the automaton live, even if it fails. -/
theorem Building.runStep {step : BuildStep} (h : s.Building) (hstep : InhabitedPlan r [step]) :
    (Checked.final (LexicalState.runStep r step) s).Building := by
  cases step with
  | unknown ordinal => exact h
  | token token ignoreCase switch =>
      have hlive := h.live.final_token fun d => hstep token ignoreCase d (List.mem_singleton_self _)
      rw [Checked.final] at hlive ⊢
      simp only [LexicalState.runStep, initialState]
      cases hb : Build.token r token ignoreCase 0 s.automaton with
      | ok f a' =>
          rw [hb] at hlive
          exact ⟨h.dispatch_eq, hlive⟩
      | error e a' =>
          rw [hb] at hlive
          exact ⟨h.dispatch_eq, hlive⟩

theorem Building.run {steps : List BuildStep} (h : s.Building) (hsteps : InhabitedPlan r steps) :
    (Checked.final (steps.forM (LexicalState.runStep r)) s).Building := by
  refine Checked.final_forM (fun step hstep t ht => ht.runStep fun token ignoreCase d hmem => ?_) h
  obtain ⟨_, hone, htoken⟩ := List.mem_filterMap.mp hmem
  obtain rfl := List.mem_singleton.mp hone
  exact hsteps token ignoreCase d (List.mem_filterMap.mpr ⟨_, hstep, htoken⟩)

theorem Live.congr (h : s.Live) (hautomaton : s'.automaton = s.automaton)
    (hdispatch : s'.dispatch = s.dispatch) : s'.Live := by
  cases h with
  | building h => exact .building ⟨hdispatch.trans h.dispatch_eq, hautomaton ▸ h.live⟩
  | processed hs h hclose =>
      refine .processed ?_ h (hautomaton ▸ hclose)
      rwa [isProcessed, hdispatch]

/-- Processing keeps a lexical state live, however far it comes. -/
theorem Live.process (h : s.Live) (hplan : InhabitedPlan r (s.plan r config)) :
    (Checked.final (LexicalState.process r config) s).Live := by
  cases h with
  | processed hs ha hclose =>
      rw [Checked.final_eq_of_eq_ok (process_eq_self hs)]
      exact .processed hs ha hclose
  | building h =>
      have hfinal := h.run hplan
      cases hrun : (s.plan r config).forM (LexicalState.runStep r) s with
      | error e t =>
          rw [Checked.final, hrun] at hfinal
          rw [Checked.final, process_eq_error h.dispatch_eq hrun]
          exact .building hfinal
      | ok _ t =>
          rw [Checked.final, hrun] at hfinal
          obtain ⟨L, hL⟩ := hfinal.live.assembled
          obtain ⟨t', hgen⟩ := exists_generate (s := t.reported) hL
          rw [Checked.final_eq_of_eq_ok (process_eq_ok_of_generate h.dispatch_eq hrun hgen)]
          obtain ⟨automaton, _, _, d, _, hclose, -, rfl, -⟩ := exists_of_generate hgen
          exact .processed rfl hfinal.live (Automaton.closes_of_close hclose)

namespace Call

/-- If the call processes, all that is met in the patterns of the tokens to be built is
inhabited. -/
def IsInhabited (s : LexicalState) : Call → Prop
  | process r config => InhabitedPlan r (s.plan r config)
  | _ => True

/-- Every call is made on a lexical state where what it processes is inhabited. -/
def AllInhabited : LexicalState → List Call → Prop
  | _, [] => True
  | s, c :: calls => c.IsInhabited s ∧ AllInhabited (c.run s) calls

end Call

theorem Live.run (h : s.Live) {c : Call} (hc : c.IsInhabited s) : (c.run s).Live := by
  cases c with
  | addProduction p => exact h.congr rfl rfl
  | addImplicitLiteral token =>
      obtain ⟨tokens, heq⟩ := s.addImplicitLiteral_eq token
      rw [Call.run, heq]
      exact h.congr rfl rfl
  | claimLiteral image token ignoreCase =>
      obtain ⟨exact, folded, heq⟩ := s.claimLiteral_eq image token ignoreCase
      rw [Call.run, heq]
      exact h.congr rfl rfl
  | canonical members => exact h.congr rfl rfl
  | process r config => exact h.process hc

theorem Live.foldl {calls : List Call} (h : s.Live) (hcalls : Call.AllInhabited s calls) :
    (calls.foldl Call.run s).Live := by
  induction calls generalizing s with
  | nil => exact h
  | cons c calls ih => exact ih (h.run hcalls.1) hcalls.2

/-- What a live lexical state dispatches on is live, and its move arrays have ranges. -/
theorem Live.members (h : s.Live) (hs : s.Called) (hprocessed : s.isProcessed = true) :
    (∀ c ∈ s.reachable, ∀ m ∈ c.members, s.automaton.needsMoveCode m = true) ∧
      ∀ m ∈ s.movers, ∃ u, s.automaton.state? m = some u ∧ u.ranges ≠ [] := by
  cases h with
  | building h =>
      rw [isProcessed, h.dispatch_eq] at hprocessed
      exact absurd hprocessed Bool.false_ne_true
  | @processed a _ ha hclose =>
      obtain ⟨L, hL⟩ := ha.assembled
      obtain ⟨start, found, harranged⟩ := hs.kept.arranged (Option.isSome_iff_ne_none.mp hprocessed)
      refine ⟨fun c hc m hm => ?_, fun m hm => ?_⟩
      · obtain ⟨hreach, u, q, hu, hranges, hq⟩ := harranged.reaches_member hL hclose hc hm
        exact ha.needsMoveCode hclose hreach hu hranges hq
      · exact ha.ranges_ne_nil hclose ((hs.mem_movers hprocessed).mp hm)

/-- What is dispatched on after any calls. Every member of a composite that a scan can reach moves
on characters; it has a move array, which the table lists, exactly if something lies behind it, and
that is a composite with an index or the end of its token. If the classes met in what was processed
have members and the choices alternatives, something lies behind every member and every state with a
move array moves on characters. -/
theorem members_live (name : String) (isDefault : Bool) (calls : List Call)
    (hprocessed : (calls.foldl Call.run (new name isDefault)).isProcessed = true) :
    let s := calls.foldl Call.run (new name isDefault)
    (∀ c ∈ s.reachable, ∀ m ∈ c.members,
      (∃ u, s.automaton.state? m = some u ∧ u.ranges ≠ []) ∧
      (s.automaton.needsMoveCode m = true ↔
        ∃ array, s.movesArrayName? m = some array ∧ array ∈ s.table.movesArrays) ∧
      (s.automaton.needsMoveCode m = true ↔
        (s.nextIndex? m).isSome ∨ s.automaton.isNextFinal m = true)) ∧
    (Call.AllInhabited (new name isDefault) calls →
      (∀ c ∈ s.reachable, ∀ m ∈ c.members, s.automaton.needsMoveCode m = true) ∧
        ∀ m ∈ s.movers, ∃ u, s.automaton.state? m = some u ∧ u.ranges ≠ []) := by
  intro s
  have hs : s.Called := (Called.new name isDefault).foldl calls
  obtain ⟨start, found, harranged⟩ := hs.kept.arranged (Option.isSome_iff_ne_none.mp hprocessed)
  refine ⟨fun c hc m hm => ⟨?_, hs.needsMoveCode_iff hprocessed,
    harranged.needsMoveCode_iff hc hm⟩, fun hcalls => ?_⟩
  · obtain ⟨u, s', ⟨L, hL⟩, hgen, hautomaton, -⟩ := hs.generated hprocessed
    have hclose : u.automaton.Closes s.automaton := hautomaton ▸ (generates_of_generate hgen).closes
    obtain ⟨-, v, q, hv, hranges, -⟩ := harranged.reaches_member hL hclose hc hm
    obtain ⟨v', hv', hclosed⟩ := hclose.exists_state hv
    exact ⟨v', hv', hclosed.ranges_eq ▸ hranges⟩
  · exact Live.members ((Live.building ⟨rfl, .new⟩).foldl hcalls) hs hprocessed

/-- `a[bc]*` has two members, with something behind both of them. Of an empty class, `a` with a
choice of nothing behind it, and `b`, the first leaves an array without characters and the second a
member without an array. -/
theorem members_live_choices : ∃ calls calls' : List Call,
    let s := calls.foldl Call.run (new "DEFAULT" true)
    let s' := calls'.foldl Call.run (new "DEFAULT" true)
    s.reachable.map (·.members) = [[3], [7]] ∧
    (∀ c ∈ s.reachable, ∀ m ∈ c.members, s.automaton.needsMoveCode m = true) ∧
    s'.reachable.map (·.members) = [[7, 11]] ∧ s'.movers = [3, 11] ∧
      ¬ ∃ array, s'.movesArrayName? 7 = some array ∧ array ∈ s'.table.movesArrays := by
  let letters : CharacterClass := { ranges := [⟨98, 99⟩] }
  let units : List Pattern := [.literal "a", .zeroOrMore (.charClass letters)]
  let r := TokenRegistry.new.register { pattern := .sequence units }
  let r' := TokenRegistry.new.register { pattern := .choice [.charClass { ranges := [] },
    .sequence [.literal "a", .choice []], .literal "b"] }
  let declare : Call := .addProduction { specs := [{ token := 1 }] }
  let calls := [declare, .process r {}]
  let calls' := [declare, .process r' {}]
  have hliteral : r.Inhabits false (.literal "a") := .of_enters trivial (by rintro q ⟨⟨⟩⟩)
  have hletters : r.Inhabits false (.charClass letters) := by
    refine .of_enters ⟨98, ?_⟩ (by rintro q ⟨⟨⟩⟩)
    exact CharacterClass.covers_orderedRanges.mp (by decide)
  have hinhabits : r.Inhabits false (.sequence units) := by
    refine .of_enters trivial ?_
    rintro q ⟨⟨hq⟩⟩
    obtain rfl | rfl : q = .literal "a" ∨ q = .zeroOrMore (.charClass letters) := by
      simpa [units] using hq
    · exact hliteral
    · refine .of_enters trivial ?_
      rintro q' ⟨⟨⟩⟩
      exact hletters
  have hplan : tokensOf ((declare.run (new "DEFAULT" true)).plan r {}) = [(1, false)] := by
    dsimp only [declare, r, units, letters]
    cbv
  have hinhabited : Call.AllInhabited (new "DEFAULT" true) calls := by
    refine ⟨trivial, fun token ignoreCase d hmem hd => ?_, trivial⟩
    rw [hplan] at hmem
    obtain ⟨rfl, rfl⟩ := Prod.mk.inj (List.mem_singleton.mp hmem)
    obtain rfl := Option.some.inj hd
    exact hinhabits
  let s := calls.foldl Call.run (new "DEFAULT" true)
  let s' := calls'.foldl Call.run (new "DEFAULT" true)
  obtain ⟨hprocessed, hreachable⟩ :
      s.isProcessed = true ∧ s.reachable.map (·.members) = [[3], [7]] := by
    dsimp only [s, calls, declare, r, units, letters]
    cbv
  obtain ⟨hprocessed', hreachable', hmovers', hdead⟩ : s'.isProcessed = true ∧
      s'.reachable.map (·.members) = [[7, 11]] ∧ s'.movers = [3, 11] ∧
        s'.automaton.needsMoveCode 7 = false := by
    dsimp only [s', calls', declare, r']
    cbv
  obtain ⟨-, hlive⟩ := members_live "DEFAULT" true calls hprocessed
  obtain ⟨hmembers, -⟩ := members_live "DEFAULT" true calls' hprocessed'
  refine ⟨calls, calls', hreachable, (hlive hinhabited).1, hreachable', hmovers', fun harray => ?_⟩
  have hmem : [7, 11] ∈ s'.reachable.map (·.members) := hreachable' ▸ List.mem_singleton_self _
  obtain ⟨c, hc, heq⟩ := List.mem_map.mp hmem
  obtain ⟨-, hiff, -⟩ := hmembers c hc 7 (heq ▸ List.mem_cons_self)
  exact absurd (hiff.mpr harray) (Bool.eq_false_iff.mp hdead)

end LexicalState

end ScannerTables
