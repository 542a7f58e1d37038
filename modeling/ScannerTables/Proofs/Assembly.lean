import ScannerTables.Proofs.Exactness
import ScannerTables.Proofs.Processing
/-!
# The automaton of a lexical state

All tokens of a lexical state begin in state 0, which only routes to them. `Automaton.Assembled` is
the invariant of building one token after another: no state leads back to state 0, moves stay among
the states of a token, and the words that lead from state 0 to a final state of a token are those of
given languages, to which each token that is built adds the language of its pattern.
-/

namespace ScannerTables

namespace Automaton

/-- A word leads from a state to a final state of a token. -/
def Accepts (a : Automaton) (p token : Nat) (w : List Nat) : Prop :=
  ∃ q s, Path a.moves p w q ∧ a.state? q = some s ∧ s.isFinal = true ∧ s.token = some token

/-- What building tokens one after the other makes of the automaton of a lexical state. -/
structure Assembled (a : Automaton) (L : Nat → List Nat → Prop) : Prop where
  hub : ∃ s, a.state? 0 = some s ∧ s.token = none ∧ s.isFinal = false ∧ s.IsRouter ∧
    ∀ q ∈ s.epsilon, 0 < q ∧ q < a.size
  placed : ∀ i s, 0 < i → a.state? i = some s → ∃ token,
    { s with isFinal := false }.Placed token 1 a.size i ∧
      ∀ q, s.Targets q → ∃ t, a.state? q = some t ∧ t.token = some token
  accepts_iff : ∀ token w, a.Accepts 0 token w ↔ L token w

variable {a a' : Automaton} {p token initial : Nat} {w : List Nat} {L : Nat → List Nat → Prop}

/-- What is accepted from a state depends only on a region that no move leaves. -/
theorem accepts_congr {R : Nat → Prop} (same : ∀ i, R i → a'.state? i = a.state? i)
    (closed : ∀ p o q, R p → a.moves p o q → R q) (hp : R p) :
    a'.Accepts p token w ↔ a.Accepts p token w := by
  have moves : ∀ p o q, R p → (a.moves p o q ↔ a'.moves p o q) := fun p o q hp =>
    (moves_congr (same p hp)).symm
  constructor
  · rintro ⟨q, s, path, hs, hfinal⟩
    have path' := (Path.congr_of_closed moves closed hp).mpr path
    have hq := (path'.mono_of_closed (fun p o q hp hm => ⟨hm, closed p o q hp hm⟩) hp).2
    exact ⟨q, s, path', (same q hq).symm.trans hs, hfinal⟩
  · rintro ⟨q, s, path, hs, hfinal⟩
    have hq := (path.mono_of_closed (fun p o q hp hm => ⟨hm, closed p o q hp hm⟩) hp).2
    exact ⟨q, s, (Path.congr_of_closed moves closed hp).mp path, (same q hq).trans hs, hfinal⟩

/-- A router that is not final accepts what the states that it moves to accept. -/
theorem accepts_router {s : State} (hs : a.state? p = some s) (hr : s.IsRouter)
    (hfinal : s.isFinal = false) :
    a.Accepts p token w ↔ ∃ q ∈ s.epsilon, a.Accepts q token w := by
  have only : ∀ o q, a.moves p o q ↔ o = none ∧ q ∈ s.epsilon := by
    intro o q
    rw [moves_iff hs]
    cases o with
    | none => simp [State.MovesTo]
    | some c => simp [State.MovesTo, hr.2]
  have hne : ∀ q t, a.state? q = some t → t.isFinal = true → p ≠ q := by
    rintro q t ht hfinal' rfl
    obtain rfl := Option.some.inj (hs.symm.trans ht)
    exact absurd hfinal' (Bool.eq_false_iff.mp hfinal)
  constructor
  · rintro ⟨q, t, path, ht, hfinal', htoken⟩
    obtain ⟨q', hq', rest⟩ := (Path.epsilons_iff only (hne q t ht hfinal')).mp path
    exact ⟨q', hq', q, t, rest, ht, hfinal', htoken⟩
  · rintro ⟨q', hq', q, t, rest, ht, hfinal', htoken⟩
    exact ⟨q, t, .epsilon ((only _ _).mpr ⟨rfl, hq'⟩) rest, ht, hfinal', htoken⟩

namespace Assembled

theorem congr {L' : Nat → List Nat → Prop} (h : a.Assembled L) (hL : ∀ t w, L t w ↔ L' t w) :
    a.Assembled L' where
  hub := h.hub
  placed := h.placed
  accepts_iff t w := (h.accepts_iff t w).trans (hL t w)

/-- Before anything is built there is only state 0. -/
theorem new : (({} : Automaton).addState none).Assembled (fun _ _ => False) where
  hub := ⟨{}, rfl, rfl, rfl, ⟨rfl, rfl⟩, by simp⟩
  placed i s hi hs := by
    have := lt_size hs
    simp only [size_addState] at this
    exact absurd this (by simp [size]; omega)
  accepts_iff token w := by
    rw [accepts_router (s := {}) rfl ⟨rfl, rfl⟩ rfl]
    simp

theorem size_pos (h : a.Assembled L) : 0 < a.size := by
  obtain ⟨s, hs, -⟩ := h.hub
  exact lt_size hs

/-- State 0 does nothing but route to other states. -/
theorem router (h : a.Assembled L) {s : State} (hs : a.state? 0 = some s) :
    s.IsRouter ∧ ∀ q ∈ s.epsilon, 0 < q ∧ q < a.size := by
  obtain ⟨s₀, hs₀, -, -, hrouter, heps⟩ := h.hub
  obtain rfl := Option.some.inj (hs.symm.trans hs₀)
  exact ⟨hrouter, heps⟩

theorem pos_of_next (h : a.Assembled L) {q : Nat} {s : State} (hs : a.state? p = some s)
    (hq : s.next = some q) : 0 < p := by
  apply Nat.pos_of_ne_zero
  rintro rfl
  exact absurd (hq.symm.trans (h.router hs).1.2) (Option.some_ne_none q)

theorem pos_of_ranges (h : a.Assembled L) {s : State} (hs : a.state? p = some s)
    (hranges : s.ranges ≠ []) : 0 < p := by
  apply Nat.pos_of_ne_zero
  rintro rfl
  exact hranges (h.router hs).1.1

/-- States name states, and none names state 0. -/
theorem lt_of_targets (h : a.Assembled L) {q : Nat} {s : State} (hs : a.state? p = some s)
    (hq : s.Targets q) : 0 < q ∧ q < a.size := by
  by_cases hp : 0 < p
  · obtain ⟨token, placed, -⟩ := h.placed p s hp hs
    exact placed.mem_of_targets hq
  · obtain rfl : p = 0 := Nat.eq_zero_of_not_pos hp
    cases hq with
    | inl hepsilon => exact (h.router hs).2 q hepsilon
    | inr hnext => exact absurd (h.pos_of_next hs hnext) hp

theorem ascending (h : a.Assembled L) {s : State} (hs : a.state? p = some s) :
    Ascending s.ranges := by
  by_cases hp : 0 < p
  · obtain ⟨_, placed, -⟩ := h.placed p s hp hs
    exact placed.ascending
  · obtain rfl : p = 0 := Nat.eq_zero_of_not_pos hp
    rw [(h.router hs).1.1]
    exact .nil

/-- Moves lead from states to states. -/
theorem lt_size_of_path (h : a.Assembled L) {q : Nat} (hp : p < a.size)
    (path : Path a.moves p w q) : q < a.size := by
  refine (path.mono_of_closed (R := (· < a.size)) (fun p o q hp hm => ⟨hm, ?_⟩) hp).2
  obtain ⟨s, hs, hm⟩ := hm
  exact (h.lt_of_targets hs hm.targets).2

/-- A state names only states of its token. -/
theorem token_of_targets (h : a.Assembled L) {q : Nat} {s t : State} (hp : 0 < p)
    (hs : a.state? p = some s) (ht : a.state? q = some t) (hq : s.Targets q) :
    0 < q ∧ t.token = s.token := by
  obtain ⟨token, placed, htargets⟩ := h.placed p s hp hs
  obtain ⟨t', ht', htoken⟩ := htargets q hq
  obtain rfl := Option.some.inj (ht.symm.trans ht')
  exact ⟨(h.lt_of_targets hs hq).1, htoken.trans placed.token_eq.symm⟩

theorem token_of_path (h : a.Assembled L) {q : Nat} {s t : State} (hp : 0 < p)
    (hs : a.state? p = some s) (ht : a.state? q = some t) (path : Path a.moves p w q) :
    t.token = s.token := by
  induction path generalizing s with
  | refl => rw [Option.some.inj (hs.symm.trans ht)]
  | epsilon hm _ ih =>
      obtain ⟨s', hs'⟩ := exists_state? (h.lt_size_of_path (lt_size hs) (.epsilon hm (.refl _)))
      obtain ⟨hq, htoken⟩ := h.token_of_targets hp hs hs' ((moves_iff hs).mp hm).targets
      exact (ih hq hs' ht).trans htoken
  | char hm _ ih =>
      obtain ⟨s', hs'⟩ := exists_state? (h.lt_size_of_path (lt_size hs) (.char hm (.refl _)))
      obtain ⟨hq, htoken⟩ := h.token_of_targets hp hs hs' ((moves_iff hs).mp hm).targets
      exact (ih hq hs' ht).trans htoken

end Assembled

end Automaton

namespace Build.Installed

open Automaton

variable {a a' : Automaton} {f : Fragment} {token initial : Nat} {K : Language Nat}

/-- From the entry, the words of the language lead to the one final state, and no others to any. -/
theorem accepts_entry (h : Installed token initial K a f a') {token' : Nat} {w : List Nat} :
    a'.Accepts f.entry token' w ↔ token' = token ∧ w ∈ K := by
  rw [← h.path_iff]
  have closed : ∀ p o q, a.size ≤ p → a'.moves p o q → a.size ≤ q := by
    rintro p o q hp ⟨s, hs, hm⟩
    exact ((h.placed p s hp hs).mem_of_targets hm.targets).1
  constructor
  · rintro ⟨q, s, path, hs, hfinal, htoken⟩
    have hq := (path.mono_of_closed (fun p o q hp hm => ⟨hm, closed p o q hp hm⟩) h.entry_mem.1).2
    obtain rfl := (h.final_iff q s hq hs).mp hfinal
    exact ⟨Option.some.inj (htoken.symm.trans (h.placed _ s hq hs).token_eq), path⟩
  · rintro ⟨rfl, path⟩
    obtain ⟨s, hs⟩ := exists_state? h.exit_mem.2
    have hle := h.exit_mem.1
    exact ⟨f.exit, s, path, hs, (h.final_iff _ s hle hs).mpr rfl, (h.placed _ s hle hs).token_eq⟩

/-- Building one more token adds its language. -/
theorem assembled {L : Nat → List Nat → Prop} (h : Installed token 0 K a f a')
    (ha : a.Assembled L) : a'.Assembled (fun t w => L t w ∨ t = token ∧ w ∈ K) := by
  obtain ⟨s, hs, htoken, hfinal, hrouter, heps⟩ := ha.hub
  have hsize := h.size_le
  have hentry := h.entry_mem
  have hub' : a'.state? 0 = some (s.addEpsilon f.entry) := by
    obtain ⟨s', hs', heq⟩ := h.state_initial
    obtain rfl := Option.some.inj (hs.symm.trans hs')
    exact heq
  have hpos : 0 < a.size := lt_size hs
  refine ⟨⟨_, hub', htoken, hfinal, hrouter, ?_⟩, ?_, ?_⟩
  · intro q hq
    rcases State.mem_addEpsilon.mp hq with rfl | hq
    · omega
    · have := heps q hq
      omega
  · intro i t hi ht
    by_cases hlt : i < a.size
    · obtain ⟨token', placed, htargets⟩ := ha.placed i t hi (h.state_ne i hlt (by omega) ▸ ht)
      refine ⟨token', placed.mono (Nat.le_refl _) hsize, ?_⟩
      intro q hq
      obtain ⟨t', ht', htoken'⟩ := htargets q hq
      have hq := ha.lt_of_targets (h.state_ne i hlt (by omega) ▸ ht) hq
      exact ⟨t', (h.state_ne q hq.2 (by omega)).trans ht', htoken'⟩
    · have placed := h.placed i t (by omega) ht
      refine ⟨token, placed.mono hpos (Nat.le_refl _), ?_⟩
      intro q hq
      have hq := placed.mem_of_targets hq
      obtain ⟨t', ht'⟩ := exists_state? hq.2
      exact ⟨t', ht', (h.placed q t' hq.1 ht').token_eq⟩
  · intro t w
    rw [accepts_router hub' hrouter hfinal, ← ha.accepts_iff, accepts_router hs hrouter hfinal,
      ← h.accepts_entry]
    have old : ∀ q ∈ s.epsilon, (a'.Accepts q t w ↔ a.Accepts q t w) := by
      intro q hq
      refine accepts_congr (R := fun i => 0 < i ∧ i < a.size)
        (fun i hi => h.state_ne i hi.2 (by omega)) ?_ (heps q hq)
      intro p o q hp hm
      obtain ⟨s', hs', hm'⟩ := hm
      exact ha.lt_of_targets hs' hm'.targets
    constructor
    · rintro ⟨q, hq, hacc⟩
      rcases State.mem_addEpsilon.mp hq with rfl | hq
      · exact .inr hacc
      · exact .inl ⟨q, hq, (old q hq).mp hacc⟩
    · rintro (⟨q, hq, hacc⟩ | hacc)
      · exact ⟨q, State.mem_addEpsilon.mpr (.inr hq), (old q hq).mpr hacc⟩
      · exact ⟨f.entry, State.mem_addEpsilon.mpr (.inl rfl), hacc⟩

end Build.Installed

/-! ### Carrying out a plan -/

/-- The token that a step of a plan builds, with whether case is ignored. -/
def BuildStep.token? : BuildStep → Option (Nat × Bool)
  | .unknown _ => none
  | .token ordinal ignoreCase _ => some (ordinal, ignoreCase)

namespace LexicalState

variable {r : TokenRegistry} {s s' : LexicalState}

/-- The words that the tokens of some pairs match, each with its own treatment of case. -/
def Matching (r : TokenRegistry) (tokens : List (Nat × Bool)) (token : Nat) (w : List Nat) : Prop :=
  ∃ ignoreCase d, (token, ignoreCase) ∈ tokens ∧ r.get? token = some d ∧
    r.Matches ignoreCase d.pattern w

theorem matching_cons {tokens : List (Nat × Bool)} {token t : Nat} {ignoreCase : Bool}
    {d : TokenDefinition} {w : List Nat} (hd : r.get? token = some d) :
    Matching r ((token, ignoreCase) :: tokens) t w ↔
      t = token ∧ r.Matches ignoreCase d.pattern w ∨ Matching r tokens t w := by
  constructor
  · rintro ⟨ic, d', hmem, hd', hw⟩
    rcases List.mem_cons.mp hmem with heq | hmem
    · obtain ⟨rfl, rfl⟩ := Prod.mk.inj heq
      obtain rfl := Option.some.inj (hd.symm.trans hd')
      exact .inl ⟨rfl, hw⟩
    · exact .inr ⟨ic, d', hmem, hd', hw⟩
  · rintro (⟨rfl, hw⟩ | ⟨ic, d', hmem, hd', hw⟩)
    · exact ⟨ignoreCase, d, List.mem_cons_self, hd, hw⟩
    · exact ⟨ic, d', List.mem_cons_of_mem _ hmem, hd', hw⟩

/-- Carrying out steps adds the languages of the tokens that they build. -/
theorem assembled_of_run {steps : List BuildStep} {L : Nat → List Nat → Prop}
    (hs : s.automaton.Assembled L) (h : steps.forM (runStep r) s = .ok () s') :
    s'.automaton.Assembled fun t w =>
      L t w ∨ Matching r (steps.filterMap BuildStep.token?) t w := by
  induction steps generalizing s L with
  | nil =>
      obtain ⟨-, rfl⟩ := EStateM.Result.ok.inj h
      simpa [Matching] using hs
  | cons step steps ih =>
      obtain ⟨⟨⟩, s₁, hstep, hrest⟩ := Checked.run_bind_eq_ok.mp h
      obtain ⟨token, ignoreCase, switch, f, automaton, rfl, hb, rfl⟩ := runStep_eq_ok hstep
      obtain ⟨d, hd, hf⟩ := (Build.wp_token hs.size_pos).of_ok hb
      apply (ih (hf.assembled hs) hrest).congr
      intro t w
      rw [or_assoc]
      exact or_congr_right (matching_cons hd).symm

end LexicalState

end ScannerTables
