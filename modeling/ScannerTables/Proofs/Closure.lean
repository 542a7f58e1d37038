import ScannerTables.Automaton.Closure
import ScannerTables.Proofs.Path
import ScannerTables.Proofs.Reachability
/-!
# Closed automata

Closing keeps what a state moves on, where to and for which token, and makes of its epsilon moves
and its final mark a summary of the paths without characters. `Automaton.Closes` says so of an
automaton before and after.

A scanner reads a word one character at a time, standing after each at the states that the character
led to. `Path.Arrives` are these states; every path goes through one of them and from there on
without a character, which is the part that closing has summed up.
-/

namespace ScannerTables

/-! ### Reading one character after the other -/

/-- The states that the last character of a word leads to, and the start for the empty word. -/
inductive Path.Arrives (M : Moves) (p : Nat) : List Nat → Nat → Prop
  | start : Arrives M p [] p
  | char {w : List Nat} {m c q : Nat} (path : Path M p w m) (h : M m (some c) q) :
      Arrives M p (w ++ [c]) q

namespace Path

variable {M : Moves} {p q t c : Nat} {u v w : List Nat}

/-- A path for two words passes a state between them. -/
theorem exists_of_append (path : Path M p (u ++ w) t) : ∃ q, Path M p u q ∧ Path M q w t := by
  generalize hv : u ++ w = v at path
  induction path generalizing u with
  | refl p =>
      obtain ⟨rfl, rfl⟩ := List.append_eq_nil_iff.mp hv
      exact ⟨p, .refl p, .refl p⟩
  | epsilon h _ ih =>
      obtain ⟨q, first, last⟩ := ih hv
      exact ⟨q, .epsilon h first, last⟩
  | @char p₁ q₁ t₁ c₁ v h rest ih =>
      cases u with
      | nil =>
          obtain rfl : w = c₁ :: v := hv
          exact ⟨p₁, .refl p₁, .char h rest⟩
      | cons d u =>
          obtain ⟨rfl, htail⟩ := List.cons.inj hv
          obtain ⟨q, first, last⟩ := ih htail
          exact ⟨q, .char h first, last⟩

/-- A path for one character more passes a move on that character. -/
theorem exists_of_concat (path : Path M p (w ++ [c]) t) :
    ∃ m q, Path M p w m ∧ M m (some c) q ∧ Path M q [] t := by
  generalize hu : w ++ [c] = u at path
  induction path generalizing w with
  | refl => exact absurd hu (by simp)
  | epsilon h _ ih =>
      obtain ⟨m, q, first, hm, last⟩ := ih hu
      exact ⟨m, q, .epsilon h first, hm, last⟩
  | @char p₁ q₁ t₁ c₁ v h rest ih =>
      cases w with
      | nil =>
          obtain ⟨rfl, rfl⟩ := List.cons.inj hu
          exact ⟨p₁, q₁, .refl p₁, h, rest⟩
      | cons d w =>
          obtain ⟨rfl, hv⟩ := List.cons.inj hu
          obtain ⟨m, q, first, hm, last⟩ := ih hv
          exact ⟨m, q, .char h first, hm, last⟩

theorem iff_arrives : Path M p w t ↔ ∃ q, Arrives M p w q ∧ Path M q [] t := by
  constructor
  · intro path
    rcases List.eq_nil_or_concat w with rfl | ⟨w, c, rfl⟩
    · exact ⟨p, .start, path⟩
    · rw [List.concat_eq_append] at path ⊢
      obtain ⟨m, q, first, hm, last⟩ := path.exists_of_concat
      exact ⟨q, .char first hm, last⟩
  · rintro ⟨q, harr, last⟩
    cases harr with
    | start => exact last
    | char first hm =>
        have := first.trans (.char hm last)
        exact this

theorem arrives_nil : Arrives M p [] q ↔ q = p := by
  constructor
  · intro h
    generalize hw : ([] : List Nat) = w at h
    cases h with
    | start => rfl
    | char => exact absurd hw (by simp)
  · rintro rfl
    exact .start

theorem arrives_concat :
    Arrives M p (w ++ [c]) q ↔ ∃ p' m, Arrives M p w p' ∧ Path M p' [] m ∧ M m (some c) q := by
  constructor
  · intro h
    generalize hu : w ++ [c] = u at h
    cases h with
    | start => exact absurd hu (by simp)
    | char path hm =>
        obtain ⟨rfl, hc⟩ := List.append_inj' hu rfl
        obtain rfl := (List.cons.inj hc).1
        obtain ⟨p', harr, last⟩ := iff_arrives.mp path
        exact ⟨p', _, harr, last, hm⟩
  · rintro ⟨p', m, harr, path, hm⟩
    exact .char (iff_arrives.mpr ⟨p', harr, path⟩) hm

end Path

/-! ### Closing -/

namespace Automaton

variable {a a' : Automaton} {p q : Nat}

theorem edge_epsilonGraph : a.epsilonGraph.Edge p q ↔ a.moves p none q := by
  simp only [Graph.Edge, epsilonGraph, Array.getElem?_map, Option.map_eq_some_iff, moves,
    State.MovesTo, state?]
  constructor
  · rintro ⟨_, ⟨s, hs, rfl⟩, hq⟩
    exact ⟨s, hs, hq⟩
  · rintro ⟨s, hs, hq⟩
    exact ⟨_, ⟨s, hs, rfl⟩, hq⟩

theorem reach_epsilonGraph : a.epsilonGraph.Reach p q ↔ Path a.moves p [] q := by
  constructor
  · intro h
    induction h using Relation.ReflTransGen.head_induction_on with
    | refl => exact .refl q
    | head hpq _ ih => exact .epsilon (edge_epsilonGraph.mp hpq) ih
  · intro path
    generalize hw : ([] : List Nat) = w at path
    induction path with
    | refl => exact .refl
    | epsilon h _ ih => exact .head (edge_epsilonGraph.mpr h) (ih hw)
    | char => exact absurd hw (by simp)

/-- A state after closing: its epsilon moves are the states with ranges that it reaches without a
character, and it is final if it reaches a final state so. -/
structure ClosesState (a : Automaton) (p : Nat) (s s' : State) : Prop where
  token_eq : s'.token = s.token
  next_eq : s'.next = s.next
  ranges_eq : s'.ranges = s.ranges
  mem_epsilon : ∀ q, q ∈ s'.epsilon ↔
    Path a.moves p [] q ∧ ∃ t, a.state? q = some t ∧ t.ranges ≠ []
  final_iff : s'.isFinal = true ↔
    ∃ q t, Path a.moves p [] q ∧ a.state? q = some t ∧ t.isFinal = true

/-- Closing, state by state. -/
structure Closes (a a' : Automaton) : Prop where
  size_eq : a'.size = a.size
  state : ∀ p s s', a.state? p = some s → a'.state? p = some s' → a.ClosesState p s s'

theorem Closes.exists_state {s : State} (h : a.Closes a') (hs : a.state? p = some s) :
    ∃ s', a'.state? p = some s' ∧ a.ClosesState p s s' := by
  obtain ⟨s', hs'⟩ := exists_state? (h.size_eq ▸ lt_size hs)
  exact ⟨s', hs', h.state p s s' hs hs'⟩

theorem closesState {s : State} {l : List Nat} (hs : a.state? p = some s)
    (hl : ∀ q, q ∈ l ↔ Path a.moves p [] q) : a.ClosesState p s (a.closeState s l) where
  token_eq := rfl
  next_eq := rfl
  ranges_eq := rfl
  mem_epsilon q := by
    rw [closeState, List.mem_filter, hl]
    simp [Option.any_eq_true]
  final_iff := by
    simp only [closeState, Bool.or_eq_true, List.any_eq_true, Option.any_eq_true, hl]
    constructor
    · rintro (h | ⟨q, hq, t, ht, h⟩)
      · exact ⟨p, s, .refl p, hs, h⟩
      · exact ⟨q, t, hq, ht, h⟩
    · rintro ⟨q, t, hq, ht, h⟩
      exact .inr ⟨q, hq, t, ht, h⟩

/-- Closing that succeeds has found the closure of every state and closes the state with it. -/
theorem closed_of_close (h : a.close = .ok a') : a'.size = a.size ∧
    ∀ p s s', a.state? p = some s → a'.state? p = some s' →
      ∃ l, a.closure p = .ok l ∧ s' = a.closeState s l := by
  obtain ⟨ls, hls, heq⟩ := Checked.bind_eq_ok.mp h
  obtain rfl := Except.ok.inj heq
  have hall := Checked.mapM_eq_ok.mp hls
  have hlen : a.size = ls.length := by
    rw [← hall.length_eq, List.length_range]
  have hlen' : (a.states.toList.zipWith a.closeState ls).length = a.size := by
    rw [List.length_zipWith, ← hlen, Array.length_toList]
    exact Nat.min_self _
  refine ⟨hlen', ?_⟩
  intro p s s' hs hs'
  have hp := lt_size hs
  rw [state?, List.getElem?_toArray] at hs'
  obtain ⟨s₁, l, hs₁, hl, rfl⟩ := List.getElem?_zipWith_eq_some.mp hs'
  obtain rfl : s = s₁ := by
    rw [Array.getElem?_toList] at hs₁
    exact Option.some.inj (hs.symm.trans hs₁)
  obtain ⟨hpl, hget⟩ := List.getElem?_eq_some_iff.mp hl
  have hreach := hall.get (by rw [List.length_range]; exact hp) hpl
  simp only [List.get_eq_getElem, List.getElem_range, hget] at hreach
  exact ⟨l, hreach, rfl⟩

theorem closes_of_close (h : a.close = .ok a') : a.Closes a' := by
  obtain ⟨hsize, hstates⟩ := closed_of_close h
  refine ⟨hsize, ?_⟩
  intro p s s' hs hs'
  obtain ⟨l, hl, rfl⟩ := hstates p s s' hs hs'
  apply closesState hs
  intro q
  rw [Graph.mem_reachable hl, reach_epsilonGraph]

/-- Every epsilon move leads to a state that exists. -/
def EpsilonsExist (a : Automaton) : Prop := ∀ s ∈ a.states, ∀ q ∈ s.epsilon, q < a.size

/-- Nothing but an epsilon move to a state that does not exist keeps an automaton from being
closed. -/
theorem EpsilonsExist.exists_close (h : a.EpsilonsExist) : ∃ a', a.close = .ok a' := by
  have hsize : a.epsilonGraph.size = a.size := Array.size_map
  have hedge : ∀ u v, a.epsilonGraph.Edge u v → v < a.epsilonGraph.size := by
    intro u v huv
    obtain ⟨s, hs, hv⟩ := edge_epsilonGraph.mp huv
    exact hsize ▸ h s (Array.mem_of_getElem? hs) v hv
  have hall : ∀ id ∈ List.range a.size, ∃ l, a.epsilonGraph.reachable id = .ok l := by
    intro id hid
    exact Graph.exists_reachable hedge (hsize ▸ List.mem_range.mp hid)
  obtain ⟨ls, hls⟩ := Checked.exists_mapM_eq_ok hall
  exact ⟨_, Checked.bind_eq_ok.mpr ⟨ls, hls, rfl⟩⟩

end Automaton

end ScannerTables
