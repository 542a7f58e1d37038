import Mathlib.Computability.Language
import ScannerTables.Proofs.Store
/-!
# Moves and paths

A path follows moves, each on one character or on none, and is labelled by the characters it takes.
Paths are stated for any set of moves, so that they can be carried from one automaton to another:
what a path does depends only on the moves of the states that it passes.

`Path.split_of_exit` is the one decomposition that all operators of patterns need. It is about a
region of states that can be left from a single state `x`, and cuts a path that leaves the region
where it last stands at `x` before a move that is not a move of the region.
-/

namespace ScannerTables

/-- Moves between numbered states; those without a label take no character. -/
abbrev Moves := Nat → Option Nat → Nat → Prop

/-- The words that lead from one state to another. -/
inductive Path (M : Moves) : Nat → List Nat → Nat → Prop
  | refl (p : Nat) : Path M p [] p
  | epsilon {p q t : Nat} {w : List Nat} (h : M p none q) (rest : Path M q w t) : Path M p w t
  | char {p q t c : Nat} {w : List Nat} (h : M p (some c) q) (rest : Path M q w t) :
      Path M p (c :: w) t

namespace Path

variable {M M' : Moves} {R : Nat → Prop} {p q t : Nat} {u v w : List Nat}

theorem trans (first : Path M p u q) (second : Path M q v t) : Path M p (u ++ v) t := by
  induction first with
  | refl => exact second
  | epsilon h _ ih => exact .epsilon h (ih second)
  | char h _ ih => exact .char h (ih second)

/-- A path that starts in a region that no move leaves stays there, and sees only its moves. -/
theorem mono_of_closed (closed : ∀ p o q, R p → M p o q → M' p o q ∧ R q) (hp : R p)
    (path : Path M p w t) : Path M' p w t ∧ R t := by
  induction path with
  | refl => exact ⟨.refl _, hp⟩
  | epsilon h _ ih =>
      obtain ⟨hm, hq⟩ := closed _ _ _ hp h
      exact ⟨.epsilon hm (ih hq).1, (ih hq).2⟩
  | char h _ ih =>
      obtain ⟨hm, hq⟩ := closed _ _ _ hp h
      exact ⟨.char hm (ih hq).1, (ih hq).2⟩

/-- A path that ends in a region that only its own moves enter was there all along. -/
theorem mono_of_entered (entered : ∀ p o q, R q → M p o q → M' p o q ∧ R p) (ht : R t)
    (path : Path M p w t) : Path M' p w t ∧ R p := by
  induction path with
  | refl => exact ⟨.refl _, ht⟩
  | epsilon h _ ih =>
      obtain ⟨rest, hq⟩ := ih ht
      obtain ⟨hm, hp⟩ := entered _ _ _ hq h
      exact ⟨.epsilon hm rest, hp⟩
  | char h _ ih =>
      obtain ⟨rest, hq⟩ := ih ht
      obtain ⟨hm, hp⟩ := entered _ _ _ hq h
      exact ⟨.char hm rest, hp⟩

/-- Two sets of moves that agree on a closed region have the same paths from there. -/
theorem congr_of_closed (same : ∀ p o q, R p → (M p o q ↔ M' p o q))
    (closed : ∀ p o q, R p → M p o q → R q) (hp : R p) : Path M p w t ↔ Path M' p w t := by
  constructor
  · intro path
    exact (path.mono_of_closed (fun p o q hp h => ⟨(same p o q hp).mp h, closed p o q hp h⟩) hp).1
  · intro path
    refine (path.mono_of_closed (R := R) ?_ hp).1
    intro p o q hp h
    have hm := (same p o q hp).mpr h
    exact ⟨hm, closed p o q hp hm⟩

/-- Nothing but the empty path starts from a state without moves. -/
theorem eq_of_stuck (stuck : ∀ o q, ¬ M p o q) (path : Path M p w t) : w = [] ∧ t = p := by
  cases path with
  | refl => exact ⟨rfl, rfl⟩
  | epsilon h => exact absurd h (stuck _ _)
  | char h => exact absurd h (stuck _ _)

theorem stuck_iff (stuck : ∀ o q, ¬ M p o q) : Path M p w p ↔ w = [] := by
  constructor
  · intro path
    exact (path.eq_of_stuck stuck).1
  · rintro rfl
    exact .refl p

/-- A state that moves on no character passes every path on to the states that it moves to. -/
theorem epsilons_iff {target : Nat → Prop} (only : ∀ o q, M p o q ↔ o = none ∧ target q)
    (hne : p ≠ t) : Path M p w t ↔ ∃ q, target q ∧ Path M q w t := by
  constructor
  · intro path
    cases path with
    | refl => exact absurd rfl hne
    | epsilon h rest => exact ⟨_, ((only _ _).mp h).2, rest⟩
    | char h => exact absurd ((only _ _).mp h).1 (Option.some_ne_none _)
  · rintro ⟨q, hq, rest⟩
    exact .epsilon ((only _ _).mpr ⟨rfl, hq⟩) rest

/-- Paths out of a region that can be left from `x` alone. What follows the part inside the region
belongs to `K`: at once where the move from `x` leads outside, and where it leads back in because
`K` is closed under putting another word from there to `x` in front. -/
theorem split_of_exit {x : Nat} {K : Language Nat} (ht : ¬ R t)
    (exits : ∀ p o q, R p → M' p o q → (M p o q ∧ R q) ∨ (p = x ∧ o = none ∧
      (¬ R q ∧ (∀ v, Path M' q v t → v ∈ K) ∨
        R q ∧ ∀ u v, Path M q u x → v ∈ K → u ++ v ∈ K)))
    (hp : R p) (path : Path M' p w t) : ∃ u v, w = u ++ v ∧ Path M p u x ∧ v ∈ K := by
  induction path with
  | refl => exact absurd hp ht
  | epsilon h rest ih =>
      rcases exits _ _ _ hp h with ⟨hm, hq⟩ | ⟨rfl, -, ⟨-, hK⟩ | ⟨hq, hK⟩⟩
      · obtain ⟨u, v, rfl, inner, hv⟩ := ih ht exits hq
        exact ⟨u, v, rfl, .epsilon hm inner, hv⟩
      · exact ⟨[], _, rfl, .refl _, hK _ rest⟩
      · obtain ⟨u, v, rfl, inner, hv⟩ := ih ht exits hq
        exact ⟨[], _, rfl, .refl _, hK u v inner hv⟩
  | char h rest ih =>
      rcases exits _ _ _ hp h with ⟨hm, hq⟩ | ⟨-, ho, -⟩
      · obtain ⟨u, v, rfl, inner, hv⟩ := ih ht exits hq
        exact ⟨_ :: u, v, rfl, .char hm inner, hv⟩
      · exact absurd ho (Option.some_ne_none _)

/-- A state leads to another, on whatever word. -/
def Reaches (M : Moves) (p q : Nat) : Prop := ∃ w, Path M p w q

namespace Reaches

theorem refl (p : Nat) : Reaches M p p := ⟨[], .refl p⟩

theorem trans (first : Reaches M p q) (second : Reaches M q t) : Reaches M p t := by
  obtain ⟨u, first⟩ := first
  obtain ⟨v, second⟩ := second
  exact ⟨u ++ v, first.trans second⟩

theorem of_move {o : Option Nat} (h : M p o q) : Reaches M p q := by
  cases o with
  | none => exact ⟨[], .epsilon h (.refl q)⟩
  | some c => exact ⟨[c], .char h (.refl q)⟩

theorem mono (h : Reaches M p q) (hM : ∀ p o q, M p o q → M' p o q) : Reaches M' p q := by
  obtain ⟨w, path⟩ := h
  exact ⟨w, (path.mono_of_closed (R := fun _ => True) (fun p o q _ hm => ⟨hM p o q hm, trivial⟩)
    trivial).1⟩

end Reaches

end Path

/-! ### The moves of an automaton -/

/-- Where a state moves, on a character or on none. -/
def State.MovesTo (s : State) : Option Nat → Nat → Prop
  | none, q => q ∈ s.epsilon
  | some c, q => s.accepts c = true ∧ s.next = some q

/-- The moves of an automaton: those of its states. -/
def Automaton.moves (a : Automaton) : Moves := fun p o q => ∃ s, a.state? p = some s ∧ s.MovesTo o q

namespace Automaton

variable {a a' : Automaton} {p q : Nat} {o : Option Nat} {s : State}

theorem moves_iff (h : a.state? p = some s) : a.moves p o q ↔ s.MovesTo o q := by
  simp [moves, h]

theorem moves_congr (h : a'.state? p = a.state? p) : a'.moves p o q ↔ a.moves p o q := by
  simp [moves, h]

end Automaton

end ScannerTables
