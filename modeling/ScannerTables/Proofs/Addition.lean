import Mathlib
import ScannerTables.Proofs.Exactness
/-!
# Building only adds

Building a token touches none of the states that are there, but for an epsilon move from the initial
state once the token is complete. The states that it adds carry the token and lead to one another
alone. So a build that breaks off, wherever that is, leaves states that nothing leads to: the
automaton behaves as before, and the next build can start on top of it.
-/

namespace ScannerTables

open Relation

/-! ### Edges -/

namespace Automaton

/-- A state names another, by an epsilon move or as its successor. -/
def Edge (a : Automaton) (p q : Nat) : Prop := ∃ s, a.state? p = some s ∧ s.Targets q

/-- Every edge leads to a state that exists. -/
def EdgesExist (a : Automaton) : Prop := ∀ p q, a.Edge p q → q < a.size

/-- New states for a token: they come behind the old ones and lead to one another alone. -/
structure Adds (token : Nat) (a a' : Automaton) : Prop where
  size_le : a.size ≤ a'.size
  token_eq : ∀ i s, a.size ≤ i → a'.state? i = some s → s.token = some token
  mem_of_edge : ∀ p q, a.size ≤ p → a'.Edge p q → a.size ≤ q ∧ q < a'.size

variable {token base p q : Nat} {a a' : Automaton}

theorem Edge.congr (h : a'.state? p = a.state? p) (hpq : a'.Edge p q) : a.Edge p q := by
  obtain ⟨s, hs, hq⟩ := hpq
  exact ⟨s, h.symm.trans hs, hq⟩

/-- Placing is what building adds, whichever of the states are final. -/
theorem adds_of_placed (hsize : a.size ≤ a'.size) (placed : ∀ i s, a.size ≤ i →
    a'.state? i = some s → { s with isFinal := false }.Placed token a.size a'.size i) :
    Adds token a a' where
  size_le := hsize
  token_eq i s hi hs := (placed i s hi hs).token_eq
  mem_of_edge p q hp := by
    rintro ⟨s, hs, hq⟩
    exact (placed p s hp hs).mem_of_targets hq

theorem Extends.adds (h : Extends token a.size a a') : Adds token a a' := by
  refine adds_of_placed h.size_le fun i s hi hs => ?_
  have placed := h.placed i s hi hs
  rwa [← placed.not_final]

/-- From states whose edges stay below a bound, only such states are reached. -/
theorem lt_of_reflTransGen (h : ∀ p q, p < base → a.Edge p q → q < base) (hp : p < base)
    (hreach : ReflTransGen a.Edge p q) : q < base := by
  induction hreach with
  | refl => exact hp
  | tail _ hedge ih => exact h _ _ ih hedge

/-- Where the old states have their old edges and edges to the new states, all edges exist. -/
theorem Adds.edgesExist (h : Adds token a a') (hexist : a.EdgesExist)
    (hold : ∀ p q, p < a.size → a'.Edge p q → a.Edge p q ∨ q < a'.size) : a'.EdgesExist := by
  intro p q hpq
  by_cases hp : p < a.size
  · obtain hedge | hlt := hold p q hp hpq
    · exact Nat.lt_of_lt_of_le (hexist p q hedge) h.size_le
    · exact hlt
  · exact (h.mem_of_edge p q (Nat.le_of_not_lt hp) hpq).2

end Automaton

/-! ### Tokens -/

namespace Build

open Automaton

/-- What a build that answers does: of the old states only the initial one is changed, which gets an
epsilon move to the entry, and of the new states only the exit is final. -/
structure Added (token initial : Nat) (a : Automaton) (f : Fragment) (a' : Automaton) : Prop
    extends Adds token a a' where
  state_ne : ∀ i, i < a.size → i ≠ initial → a'.state? i = a.state? i
  state_initial : ∃ s epsilon, a.state? initial = some s ∧
    a'.state? initial = some { s with epsilon } ∧
      (∀ q, q ∈ epsilon ↔ q = f.entry ∨ q ∈ s.epsilon) ∧
        (s.epsilon.Pairwise (· < ·) → epsilon.Pairwise (· < ·))
  entry_mem : a.size ≤ f.entry ∧ f.entry < a'.size
  exit_mem : a.size ≤ f.exit ∧ f.exit < a'.size
  final_iff : ∀ i s, a.size ≤ i → a'.state? i = some s → (s.isFinal = true ↔ i = f.exit)

/-- What a build that fails leaves: the old states as they were and new ones, none of them final,
that cannot be reached from the old ones. -/
structure Abandoned (token : Nat) (a : Automaton) (e : Failure) (a' : Automaton) : Prop
    extends Adds token a a' where
  faulty : ∃ d, e = .faulty d
  state_eq : ∀ i, i < a.size → a'.state? i = a.state? i
  not_final : ∀ i s, a.size ≤ i → a'.state? i = some s → s.isFinal = false
  unreached : ∀ p q, p < a.size → ReflTransGen a'.Edge p q → q < a.size

variable {token initial : Nat} {a a' : Automaton} {f : Fragment} {e : Failure}

theorem Installed.added {L : Language Nat} (h : Installed token initial L a f a') :
    Added token initial a f a' where
  toAdds := adds_of_placed h.size_le h.placed
  state_ne := h.state_ne
  state_initial := by
    obtain ⟨s, hs, hs'⟩ := h.state_initial
    exact ⟨s, _, hs, hs', fun q => State.mem_insertSorted, State.pairwise_insertSorted⟩
  entry_mem := h.entry_mem
  exit_mem := h.exit_mem
  final_iff := h.final_iff

theorem Failed.abandoned (h : Failed token a.size a e a') (hexist : a.EdgesExist) :
    Abandoned token a e a' where
  toAdds := h.2.adds
  faulty := h.1
  state_eq := h.2.state_below
  not_final i s hi hs := (h.2.placed i s hi hs).not_final
  unreached p q hp := by
    apply lt_of_reflTransGen _ hp
    intro p q hp hpq
    exact hexist p q (hpq.congr (h.2.state_below p hp))

/-- After a build, too, every edge leads to a state that exists. -/
theorem Added.edgesExist (h : Added token initial a f a') (hexist : a.EdgesExist) :
    a'.EdgesExist := by
  refine h.toAdds.edgesExist hexist fun p q hp hpq => ?_
  by_cases hne : p = initial
  · obtain ⟨s, epsilon, hs, hs', hmem, -⟩ := h.state_initial
    obtain ⟨t, ht, hq⟩ := hpq
    rw [hne] at ht ⊢
    obtain rfl := Option.some.inj (hs'.symm.trans ht)
    cases hq with
    | inl hepsilon =>
        cases (hmem q).mp hepsilon with
        | inl heq => exact .inr (heq ▸ h.entry_mem.2)
        | inr hold => exact .inl ⟨s, hs, .inl hold⟩
    | inr hnext => exact .inl ⟨s, hs, .inr hnext⟩
  · exact .inl (hpq.congr (h.state_ne p hp hne))

theorem Abandoned.edgesExist (h : Abandoned token a e a') (hexist : a.EdgesExist) :
    a'.EdgesExist :=
  h.toAdds.edgesExist hexist fun p _ hp hpq => .inl (hpq.congr (h.state_eq p hp))

section

variable {p q : Nat} {o : Option Nat}

/-- Building takes no move away. -/
theorem Added.moves_of (h : Added token initial a f a') (hm : a.moves p o q) : a'.moves p o q := by
  obtain ⟨s, hs, hm⟩ := hm
  by_cases hp : p = initial
  · obtain ⟨s₀, epsilon, hs₀, hs', hmem, -⟩ := h.state_initial
    rw [hp] at hs ⊢
    obtain rfl := Option.some.inj (hs.symm.trans hs₀)
    refine ⟨_, hs', ?_⟩
    cases o with
    | none => exact (hmem q).mpr (.inr hm)
    | some c => exact hm
  · exact ⟨s, (h.state_ne p (lt_size hs) hp).trans hs, hm⟩

/-- A move to an old state is an old one. -/
theorem Added.moves_of_lt (h : Added token initial a f a') (hq : q < a.size) (hm : a'.moves p o q) :
    a.moves p o q ∧ p < a.size := by
  obtain ⟨s, hs, hm⟩ := hm
  have hp : p < a.size := by
    by_contra hp
    exact absurd hq (Nat.not_lt.mpr (h.mem_of_edge p q (Nat.not_lt.mp hp) ⟨s, hs, hm.targets⟩).1)
  refine ⟨?_, hp⟩
  by_cases hne : p = initial
  · obtain ⟨s₀, epsilon, hs₀, hs', hmem, -⟩ := h.state_initial
    rw [hne] at hs ⊢
    obtain rfl := Option.some.inj (hs'.symm.trans hs)
    refine ⟨s₀, hs₀, ?_⟩
    cases o with
    | none =>
        refine ((hmem q).mp hm).resolve_left fun heq => ?_
        exact absurd hq (Nat.not_lt.mpr (heq ▸ h.entry_mem.1))
    | some c => exact hm
  · exact ⟨s, (h.state_ne p hp hne).symm.trans hs, hm⟩

end

/-- Building only adds, to every automaton whose edges lead to states that exist: a build that
answers changes nothing of the old states but the epsilon moves of the initial one, and a build that
fails changes nothing of them at all and leaves nothing that they lead to. -/
theorem token_adds (r : TokenRegistry) (token : Nat) (ignoreCase : Bool) (initial : Nat)
    (a : Automaton) (hexist : a.EdgesExist) (hinitial : initial < a.size) :
    WP (Build.token r token ignoreCase initial) (fun f a' => Added token initial a f a')
      (fun e a' => Abandoned token a e a') a := by
  apply (wp_token hinitial).mono
  · intro f a' hf
    obtain ⟨d, -, hinstalled⟩ := hf
    exact hinstalled.added
  · intro e a' hfailed
    exact hfailed.abandoned hexist

/-- A part of `abC` is left behind for want of a label, and `c` is built on top of it. -/
theorem token_adds_after_failure : ∃ (r : TokenRegistry) (a a₁ a₂ : Automaton) (e : Failure)
    (f : Fragment), Build.token r 1 false 0 a = .error e a₁ ∧ Abandoned 1 a e a₁ ∧
      Build.token r 2 false 0 a₁ = .ok f a₂ ∧ Added 2 0 a₁ f a₂ ∧
        [a.size, a₁.size, a₂.size] = [1, 6, 8] := by
  let r := (TokenRegistry.new.register
    { pattern := .sequence [.literal "ab", .reference "C"] }).register { pattern := .literal "c" }
  let a := ({} : Automaton).addState none
  have hexist : a.EdgesExist := by
    rintro p q ⟨s, hs, hq⟩
    obtain rfl : p = 0 := Nat.lt_one_iff.mp (lt_size hs)
    obtain rfl : ({} : State) = s := Option.some.inj hs
    exact absurd hq (by simp [State.Targets])
  have hfirst := token_adds r 1 false 0 a hexist (by decide)
  cases hb : Build.token r 1 false 0 a with
  | ok f a' =>
      have hfails : Checked.succeeds (Build.token r 1 false 0) a = false := by cbv
      exact absurd (Checked.succeeds_eq_true hb) (Bool.eq_false_iff.mp hfails)
  | error e a₁ =>
      have habandoned := hfirst.of_error hb
      have heq : Checked.final (Build.token r 1 false 0) a = a₁ := by rw [Checked.final, hb]
      subst heq
      obtain ⟨f, a₂, hb'⟩ : ∃ f a₂, Build.token r 2 false 0
          (Checked.final (Build.token r 1 false 0) a) = .ok f a₂ :=
        Checked.exists_of_succeeds (by cbv)
      have hadded := (token_adds r 2 false 0 _ (habandoned.edgesExist hexist) (by cbv)).of_ok hb'
      have hsize : (Checked.final (Build.token r 2 false 0)
          (Checked.final (Build.token r 1 false 0) a)).size = 8 := by cbv
      rw [Checked.final_eq_of_eq_ok hb'] at hsize
      refine ⟨r, a, _, a₂, e, f, hb, habandoned, hb', hadded, ?_⟩
      rw [hsize]
      cbv

end Build

end ScannerTables
