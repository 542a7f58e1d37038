import ScannerTables.Proofs.Exactness
/-!
# Matchers and routers

A state plays one role: it matches characters and goes on to its successor, or it routes to other
states without a character. What could mix the two is an epsilon move that is added to a state which
is complete already. Builders add them to brackets, to exits of fragments and to the initial state,
and all of these are routers (`Fragment.Spans`), whichever operator encloses the fragment. So roles
stay divided however many tokens are built, also where a build breaks off.
-/

namespace ScannerTables

/-! ### States -/

namespace State

/-- A state with its number among the states of an automaton: it names states that exist and never
the initial one, and either it matches characters or it routes to other states. -/
structure OneRole (s : State) (size id : Nat) : Prop where
  target_mem : ∀ q, s.Targets q → 0 < q ∧ q < size
  next_ne : s.next ≠ some id
  epsilon_sorted : s.epsilon.Pairwise (· < ·)
  matcher : s.ranges ≠ [] → s.next.isSome ∧ s.epsilon = []
  router : s.epsilon ≠ [] → s.ranges = [] ∧ s.next = none

variable {s : State} {token base size size' id q : Nat}

theorem OneRole.fresh {token : Option Nat} : OneRole { token } size id where
  target_mem q hq := by simp [Targets] at hq
  next_ne := nofun
  epsilon_sorted := .nil
  matcher h := absurd rfl h
  router h := absurd rfl h

theorem OneRole.mono (h : s.OneRole size id) (hsize : size ≤ size') : s.OneRole size' id where
  target_mem q hq := by
    obtain ⟨hpos, hlt⟩ := h.target_mem q hq
    exact ⟨hpos, Nat.lt_of_lt_of_le hlt hsize⟩
  next_ne := h.next_ne
  epsilon_sorted := h.epsilon_sorted
  matcher := h.matcher
  router := h.router

/-- A router stays one when it gets another epsilon move. -/
theorem OneRole.addEpsilon (h : s.OneRole size id) (hs : s.IsRouter) (hpos : 0 < q)
    (hlt : q < size) : (s.addEpsilon q).OneRole size id where
  target_mem t ht := by
    cases ht with
    | inl hepsilon =>
        cases mem_addEpsilon.mp hepsilon with
        | inl heq => exact heq ▸ ⟨hpos, hlt⟩
        | inr hold => exact h.target_mem t (.inl hold)
    | inr hnext => exact h.target_mem t (.inr hnext)
  next_ne := h.next_ne
  epsilon_sorted := pairwise_insertSorted h.epsilon_sorted
  matcher hne := absurd hs.1 hne
  router _ := hs

/-- What builders leave plays one role, be it final or not. -/
theorem Placed.oneRole (h : { s with isFinal := false }.Placed token base size id)
    (hbase : 0 < base) : s.OneRole size id where
  target_mem q hq := by
    obtain ⟨hle, hlt⟩ := h.mem_of_targets hq
    exact ⟨Nat.lt_of_lt_of_le hbase hle, hlt⟩
  next_ne hnext := (h.next_mem id hnext).2.2 rfl
  epsilon_sorted := h.epsilon_sorted
  matcher hranges := by
    refine ⟨h.matcher hranges, ?_⟩
    by_contra hne
    exact hranges (h.router hne).1
  router := h.router

end State

/-! ### Automata -/

namespace Automaton

/-- All states play one role each, and the initial one is a router. -/
structure Divided (a : Automaton) : Prop where
  oneRole : ∀ id s, a.state? id = some s → s.OneRole a.size id
  initial : a.IsRouter 0

variable {a a' : Automaton} {token : Nat}

theorem Divided.new (token : Option Nat) : (({} : Automaton).addState token).Divided where
  oneRole id s hs := by
    rw [state?_addState] at hs
    split at hs
    · exact Option.some.inj hs ▸ .fresh
    · exact absurd (lt_size hs) (Nat.not_lt_zero id)
  initial := ⟨_, state?_addState_self, rfl, rfl⟩

/-- States that are added without a link to them do not touch those that are there. -/
theorem Divided.extends (h : a.Divided) (hext : Extends token a.size a a') : a'.Divided where
  oneRole id s hs := by
    by_cases hlt : id < a.size
    · exact (h.oneRole id s (hext.state_below id hlt ▸ hs)).mono hext.size_le
    · have placed := hext.placed id s (Nat.le_of_not_lt hlt) hs
      exact State.Placed.oneRole (by rwa [← placed.not_final]) h.initial.lt_size
  initial := h.initial.congr (hext.state_below 0 h.initial.lt_size)

end Automaton

/-! ### Tokens -/

namespace Build

open Automaton

variable {a a' : Automaton} {f : Fragment} {L : Language Nat} {r : TokenRegistry} {token : Nat}
variable {ignoreCase : Bool}

/-- A token that is complete is linked to by the initial state, which stays a router. -/
theorem Installed.divided (h : Installed token 0 L a f a') (ha : a.Divided) : a'.Divided := by
  have hpos := ha.initial.lt_size
  obtain ⟨s, hs, hs'⟩ := h.state_initial
  obtain ⟨t, ht, hrouter⟩ := ha.initial
  obtain rfl := Option.some.inj (hs.symm.trans ht)
  refine ⟨fun id u hu => ?_, s.addEpsilon f.entry, hs', hrouter⟩
  by_cases hzero : id = 0
  · subst hzero
    obtain rfl := Option.some.inj (hs'.symm.trans hu)
    exact ((ha.oneRole 0 s hs).mono h.size_le).addEpsilon hrouter
      (Nat.lt_of_lt_of_le hpos h.entry_mem.1) h.entry_mem.2
  · by_cases hlt : id < a.size
    · exact (ha.oneRole id u (h.state_ne id hlt hzero ▸ hu)).mono h.size_le
    · exact (h.placed id u (Nat.le_of_not_lt hlt) hu).oneRole hpos

/-- Building a token keeps roles divided, whether it is completed or stopped by a fault. -/
theorem wp_token_divided (ha : a.Divided) : WP (Build.token r token ignoreCase 0)
    (fun _ a' => a'.Divided) (fun e a' => (∃ d, e = .faulty d) ∧ a'.Divided) a := by
  apply (wp_token ha.initial.lt_size).mono
  · rintro f a' ⟨d, -, hinstalled⟩
    exact hinstalled.divided ha
  · rintro e a' ⟨hfaulty, hext⟩
    exact ⟨hfaulty, ha.extends hext⟩

end Build

/-- A call that builds a token, with the definitions known at the time. -/
structure BuildCall where
  registry : TokenRegistry
  token : Nat
  ignoreCase : Bool

namespace BuildCall

open Checked

/-- The states of the token, entered from state 0. -/
def build (c : BuildCall) : Build Fragment := Build.token c.registry c.token c.ignoreCase 0

/-- The automaton that a call leaves, whether it answers or fails. -/
def run (a : Automaton) (c : BuildCall) : Automaton := final c.build a

variable {a : Automaton}

theorem divided_run (ha : a.Divided) (c : BuildCall) : (c.run a).Divided := by
  have h : Build.WP c.build (fun _ a' => a'.Divided) _ a := Build.wp_token_divided ha
  rw [run, final]
  cases hb : c.build a with
  | ok f a' => exact h.of_ok hb
  | error e a' => exact (h.of_error hb).2

theorem divided_foldl (ha : a.Divided) (calls : List BuildCall) :
    (calls.foldl run a).Divided := by
  induction calls generalizing a with
  | nil => exact ha
  | cons c calls ih => exact ih (divided_run ha c)

/-- Built states are matchers or routers. Whatever tokens were built into an automaton that had its
initial state alone, from any definitions, with case ignored or not, and wherever some of the builds
broke off: all states that a state names exist, and none is the initial one; no state is its own
successor; epsilon moves ascend strictly; a state with ranges has a successor and no epsilon moves;
and a state with epsilon moves has neither ranges nor a successor. The next build, too, can be
stopped by a fault of a definition alone. -/
theorem states_divided (token : Option Nat) (calls : List BuildCall) :
    let a := calls.foldl run (({} : Automaton).addState token)
    (∀ id s, a.state? id = some s →
      (∀ q ∈ s.epsilon, q < a.size ∧ q ≠ 0) ∧ (∀ q ∈ s.next, q < a.size ∧ q ≠ 0 ∧ q ≠ id) ∧
        s.epsilon.Pairwise (· < ·) ∧ (s.ranges ≠ [] → s.next.isSome ∧ s.epsilon = []) ∧
          (s.epsilon ≠ [] → s.ranges = [] ∧ s.next = none)) ∧
      ∀ (c : BuildCall) (e : Failure) (a' : Automaton), c.build a = .error e a' →
        ∃ d, e = .faulty d := by
  intro a
  have ha : a.Divided := divided_foldl (.new token) calls
  refine ⟨fun id s hs => ?_, fun c e a' hb => ?_⟩
  · have h := ha.oneRole id s hs
    refine ⟨fun q hq => ?_, fun q hq => ?_, h.epsilon_sorted, h.matcher, h.router⟩
    · obtain ⟨hpos, hlt⟩ := h.target_mem q (.inl hq)
      exact ⟨hlt, Nat.ne_of_gt hpos⟩
    · obtain ⟨hpos, hlt⟩ := h.target_mem q (.inr hq)
      exact ⟨hlt, Nat.ne_of_gt hpos, fun heq => h.next_ne (heq ▸ hq)⟩
  · exact ((Build.wp_token_divided ha).of_error hb).1

/-- `"a" <B>` breaks off where the label is missing, when the states of `"a"` are there already;
with the label, all of it is built behind them. -/
example :
    let r := TokenRegistry.new.register { pattern := .sequence [.literal "a", .reference "B"] }
    let r' := r.register { label := some "B", pattern := .zeroOrOne (.literal "b") }
    let a := [⟨r, 1, false⟩, ⟨r', 1, false⟩].foldl run (({} : Automaton).addState none)
    a.states.toList.map (fun s => (s.epsilon, s.next, s.ranges.length)) =
      [([5], none, 0), ([3], none, 0), ([], none, 0), ([], some 4, 1), ([], none, 0),
        ([7], none, 0), ([], none, 0), ([], some 8, 1), ([9], none, 0), ([10, 11], none, 0),
        ([6], none, 0), ([], some 12, 1), ([10], none, 0)] := by
  cbv

end BuildCall

end ScannerTables
