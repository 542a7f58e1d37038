import ScannerTables.Automaton.Fragment
import ScannerTables.Proofs.MoveRanges
import ScannerTables.Proofs.Path
/-!
# Extending an automaton

Builders only add. `Extends token base a a'` says that of an automaton before and after: states
below `base` are as they were, and each state from `base` on is *placed*, which is to say made for
the token, not final, in order within itself, and without moves to states below `base`. A builder
that runs inside another has a higher base, and `Extends.trans` puts the two together.

`Build.WP` is the weakest precondition of a builder for what is to hold when it answers and when it
fails. Every change that a builder makes has its precondition here, so a proof about a builder never
looks at how failures are passed on.
-/

namespace ScannerTables

/-! ### Epsilon moves -/

namespace State

theorem mem_insertSorted {n m : Nat} {l : List Nat} : m ∈ insertSorted n l ↔ m = n ∨ m ∈ l := by
  induction l with
  | nil => simp [insertSorted]
  | cons k l ih =>
      rw [insertSorted]
      split
      · simp
      · split
        · next hk => simp [hk]
        · rw [List.mem_cons, ih, List.mem_cons, or_left_comm]

theorem pairwise_insertSorted {n : Nat} {l : List Nat} (hl : l.Pairwise (· < ·)) :
    (insertSorted n l).Pairwise (· < ·) := by
  induction l with
  | nil => exact List.pairwise_singleton _ _
  | cons k l ih =>
      obtain ⟨hk, hl'⟩ := List.pairwise_cons.mp hl
      rw [insertSorted]
      split
      · next hn =>
        refine List.pairwise_cons.mpr ⟨?_, hl⟩
        intro m hm
        rcases List.mem_cons.mp hm with rfl | hm
        · exact hn
        · exact Nat.lt_trans hn (hk m hm)
      · split
        · exact hl
        · refine List.pairwise_cons.mpr ⟨?_, ih hl'⟩
          intro m hm
          rcases mem_insertSorted.mp hm with rfl | hm
          · omega
          · exact hk m hm

variable {s : State} {token base size size' id q : Nat}

theorem mem_addEpsilon {t : Nat} : t ∈ (s.addEpsilon q).epsilon ↔ t = q ∨ t ∈ s.epsilon :=
  mem_insertSorted

theorem movesTo_addEpsilon {o : Option Nat} {t : Nat} :
    (s.addEpsilon q).MovesTo o t ↔ s.MovesTo o t ∨ o = none ∧ t = q := by
  cases o with
  | none =>
      rw [MovesTo, mem_addEpsilon, or_comm]
      simp [MovesTo]
  | some c => simp [MovesTo, addEpsilon, accepts]

/-- The states that a state names, whether it has characters to move on or not. -/
def Targets (s : State) (q : Nat) : Prop := q ∈ s.epsilon ∨ s.next = some q

theorem MovesTo.targets {o : Option Nat} (h : s.MovesTo o q) : s.Targets q := by
  cases o with
  | none => exact .inl h
  | some c => exact .inr h.2

/-- A state that neither moves on a character nor names a successor. -/
def IsRouter (s : State) : Prop := s.ranges = [] ∧ s.next = none

/-- A state as builders leave it: made for the token, not final, with all its moves to states from
`base` on, and either a matcher of characters or a router of epsilon moves. -/
structure Placed (s : State) (token base size id : Nat) : Prop where
  token_eq : s.token = some token
  not_final : s.isFinal = false
  epsilon_mem : ∀ q ∈ s.epsilon, base ≤ q ∧ q < size
  epsilon_sorted : s.epsilon.Pairwise (· < ·)
  next_mem : ∀ q ∈ s.next, base ≤ q ∧ q < size ∧ q ≠ id
  ascending : Ascending s.ranges
  matcher : s.ranges ≠ [] → s.next.isSome
  router : s.epsilon ≠ [] → s.IsRouter

theorem Placed.fresh : Placed { token := some token } token base size id where
  token_eq := rfl
  not_final := rfl
  epsilon_mem := by simp
  epsilon_sorted := .nil
  next_mem := by simp
  ascending := .nil
  matcher := by simp
  router := by simp

/-- More states to move to do no harm. -/
theorem Placed.mono {base' : Nat} (h : Placed s token base size id) (hbase : base' ≤ base)
    (hsize : size ≤ size') : Placed s token base' size' id where
  token_eq := h.token_eq
  not_final := h.not_final
  epsilon_mem q hq := by
    have := h.epsilon_mem q hq
    omega
  epsilon_sorted := h.epsilon_sorted
  next_mem q hq := by
    have := h.next_mem q hq
    omega
  ascending := h.ascending
  matcher := h.matcher
  router := h.router

theorem Placed.addEpsilon (h : Placed s token base size id) (hs : s.IsRouter) (hbase : base ≤ q)
    (hsize : q < size) : Placed (s.addEpsilon q) token base size id where
  token_eq := h.token_eq
  not_final := h.not_final
  epsilon_mem t ht := by
    rcases mem_addEpsilon.mp ht with rfl | ht
    · exact ⟨hbase, hsize⟩
    · exact h.epsilon_mem t ht
  epsilon_sorted := pairwise_insertSorted h.epsilon_sorted
  next_mem := h.next_mem
  ascending := h.ascending
  matcher := h.matcher
  router _ := hs

theorem Placed.mem_of_targets (h : Placed s token base size id) (hq : s.Targets q) :
    base ≤ q ∧ q < size := by
  rcases hq with hq | hq
  · exact h.epsilon_mem q hq
  · obtain ⟨hbase, hsize, -⟩ := h.next_mem q hq
    exact ⟨hbase, hsize⟩

end State

/-! ### Extensions -/

namespace Automaton

/-- A state that exists and is a router. -/
def IsRouter (a : Automaton) (i : Nat) : Prop := ∃ s, a.state? i = some s ∧ s.IsRouter

/-- A state that exists and has no moves. -/
def IsFresh (a : Automaton) (i token : Nat) : Prop := a.state? i = some { token := some token }

theorem IsRouter.lt_size {a : Automaton} {i : Nat} (h : a.IsRouter i) : i < a.size := by
  obtain ⟨s, hs, -⟩ := h
  exact Automaton.lt_size hs

theorem IsRouter.congr {a a' : Automaton} {i : Nat} (h : a'.state? i = a.state? i)
    (hi : a.IsRouter i) : a'.IsRouter i := by
  obtain ⟨s, hs, hr⟩ := hi
  exact ⟨s, h.trans hs, hr⟩

theorem IsFresh.isRouter {a : Automaton} {i token : Nat} (h : a.IsFresh i token) : a.IsRouter i :=
  ⟨_, h, rfl, rfl⟩

theorem IsFresh.stuck {a : Automaton} {i token : Nat} (h : a.IsFresh i token) :
    ∀ o q, ¬ a.moves i o q := by
  intro o q
  rw [moves_iff h]
  cases o <;> simp [State.MovesTo]

/-- One epsilon move more, and nothing else. -/
structure Linked (source target : Nat) (a a' : Automaton) : Prop where
  size_eq : a'.size = a.size
  state_ne : ∀ i, i ≠ source → a'.state? i = a.state? i
  state_source : ∃ s, a.state? source = some s ∧ a'.state? source = some (s.addEpsilon target)

namespace Linked

variable {a a' : Automaton} {source target i p q token : Nat} {o : Option Nat}

theorem isRouter (h : Linked source target a a') (hi : a.IsRouter i) : a'.IsRouter i := by
  obtain ⟨s, hs, hr⟩ := hi
  by_cases hne : i = source
  · subst hne
    obtain ⟨s', hs', heq⟩ := h.state_source
    obtain rfl : s = s' := Option.some.inj (hs.symm.trans hs')
    exact ⟨_, heq, hr⟩
  · exact ⟨s, (h.state_ne i hne).trans hs, hr⟩

theorem isFresh (h : Linked source target a a') (hne : i ≠ source) (hi : a.IsFresh i token) :
    a'.IsFresh i token :=
  (h.state_ne i hne).trans hi

theorem moves_iff (h : Linked source target a a') :
    a'.moves p o q ↔ a.moves p o q ∨ o = none ∧ p = source ∧ q = target := by
  by_cases hne : p = source
  · subst hne
    obtain ⟨s, hs, heq⟩ := h.state_source
    rw [Automaton.moves_iff heq, Automaton.moves_iff hs, State.movesTo_addEpsilon]
    simp
  · rw [moves_congr (h.state_ne p hne)]
    simp [hne]

end Linked

/-- What a builder for a token did to the states from `base` on, leaving those below alone. -/
structure Extends (token base : Nat) (a a' : Automaton) : Prop where
  size_le : a.size ≤ a'.size
  state_below : ∀ i, i < base → a'.state? i = a.state? i
  placed : ∀ i s, base ≤ i → a'.state? i = some s → s.Placed token base a'.size i

namespace Extends

variable {token base i j : Nat} {a a₁ a₂ : Automaton} {s : State}

theorem refl (token : Nat) (a : Automaton) : Extends token a.size a a where
  size_le := Nat.le_refl _
  state_below _ _ := rfl
  placed i s hi hs := by
    have := lt_size hs
    omega

/-- What is built on top of what was built. -/
theorem trans (h : Extends token base a a₁) (hbase : base ≤ a₁.size)
    (h' : Extends token a₁.size a₁ a₂) : Extends token base a a₂ where
  size_le := Nat.le_trans h.size_le h'.size_le
  state_below i hi := (h'.state_below i (by omega)).trans (h.state_below i hi)
  placed i s hi hs := by
    by_cases hlt : i < a₁.size
    · exact (h.placed i s hi (h'.state_below i hlt ▸ hs)).mono (Nat.le_refl _) h'.size_le
    · exact (h'.placed i s (by omega) hs).mono hbase (Nat.le_refl _)

theorem addState (h : Extends token base a a₁) (hbase : base ≤ a₁.size) :
    Extends token base a (a₁.addState (some token)) where
  size_le := by
    have := h.size_le
    rw [size_addState]
    omega
  state_below i hi := (state?_addState_of_lt (by omega)).trans (h.state_below i hi)
  placed i s hi hs := by
    rw [state?_addState] at hs
    rw [size_addState]
    split at hs
    · obtain rfl := Option.some.inj hs
      exact State.Placed.fresh
    · exact (h.placed i s hi hs).mono (Nat.le_refl _) (Nat.le_succ _)

theorem set (h : Extends token base a a₁) (hi : base ≤ i) (hlt : i < a₁.size)
    (hs : s.Placed token base a₁.size i) : Extends token base a (a₁.set i s) where
  size_le := by
    rw [size_set]
    exact h.size_le
  state_below j hj := (state?_set_ne (by omega)).trans (h.state_below j hj)
  placed j t hj ht := by
    rw [size_set]
    rw [state?_set hlt] at ht
    split at ht
    · next hji =>
      obtain rfl := Option.some.inj ht
      exact hji ▸ hs
    · exact h.placed j t hj ht

theorem linked (h : Extends token base a a₁) (hl : Linked i j a₁ a₂) (hi : base ≤ i)
    (hr : a₁.IsRouter i) (hj : base ≤ j) (hlt : j < a₁.size) : Extends token base a a₂ where
  size_le := by
    rw [hl.size_eq]
    exact h.size_le
  state_below k hk := (hl.state_ne k (by omega)).trans (h.state_below k hk)
  placed k t hk ht := by
    rw [hl.size_eq]
    by_cases hne : k = i
    · subst hne
      obtain ⟨s, hs, heq⟩ := hl.state_source
      obtain ⟨s', hs', hr'⟩ := hr
      obtain rfl : s' = s := Option.some.inj (hs'.symm.trans hs)
      obtain rfl := Option.some.inj (heq.symm.trans ht)
      exact (h.placed k s' hk hs).addEpsilon hr' hj hlt
    · exact h.placed k t hk (hl.state_ne k hne ▸ ht)

/-- No move leads from the states that were added back to those below. -/
theorem mem_of_moves (h : Extends token base a a₁) {p q : Nat} {o : Option Nat} (hp : base ≤ p)
    (hm : a₁.moves p o q) : base ≤ q ∧ q < a₁.size := by
  obtain ⟨s, hs, hm⟩ := hm
  exact (h.placed p s hp hs).mem_of_targets hm.targets

end Extends

end Automaton

/-! ### Weakest preconditions of builders -/

namespace Build

variable {α β : Type} {b : Build α} {k : α → Build β} {a a' : Automaton}
variable {fail fail' : Failure → Automaton → Prop}

/-- What must hold of an automaton for a builder to answer with `post` or to fail with `fail`. -/
def WP (b : Build α) (post : α → Automaton → Prop) (fail : Failure → Automaton → Prop)
    (a : Automaton) : Prop :=
  match b a with
  | .ok x a' => post x a'
  | .error e a' => fail e a'

theorem WP.mono {post post' : α → Automaton → Prop} (h : WP b post fail a)
    (hpost : ∀ x a', post x a' → post' x a') (hfail : ∀ e a', fail e a' → fail' e a') :
    WP b post' fail' a := by
  rw [WP] at h ⊢
  split
  · next hb =>
    rw [hb] at h
    exact hpost _ _ h
  · next hb =>
    rw [hb] at h
    exact hfail _ _ h

theorem WP.of_ok {post : α → Automaton → Prop} {x : α} (h : WP b post fail a)
    (hb : b a = .ok x a') : post x a' := by
  rwa [WP, hb] at h

theorem WP.of_error {post : α → Automaton → Prop} {e : Failure} (h : WP b post fail a)
    (hb : b a = .error e a') : fail e a' := by
  rwa [WP, hb] at h

theorem wp_pure {post : α → Automaton → Prop} {x : α} : WP (pure x) post fail a ↔ post x a :=
  Iff.rfl

theorem wp_fault {post : α → Automaton → Prop} {e : DefinitionError} :
    WP (fault e) post fail a ↔ fail (.faulty e) a := Iff.rfl

theorem wp_bind {post : β → Automaton → Prop} :
    WP (b >>= k) post fail a ↔ WP b (fun x => WP (k x) post fail) fail a := by
  simp only [WP, bind, EStateM.bind]
  cases b a <;> rfl

theorem wp_newState {post : Nat → Automaton → Prop} {token : Nat} :
    WP (newState token) post fail a ↔ post a.size (a.addState (some token)) := Iff.rfl

theorem wp_change {post : Unit → Automaton → Prop} {f : Automaton → Except Misuse Automaton}
    (hf : f a = .ok a') : WP (change f) post fail a ↔ post () a' := by
  simp only [WP, change, hf]

/-- Where failing is fine, a change must only keep what is shown of all automata. -/
theorem wp_change_of_forall {post : Unit → Automaton → Prop}
    {f : Automaton → Except Misuse Automaton}
    (hp : ∀ a', post () a') (hfail : ∀ e a', fail e a') : WP (change f) post fail a := by
  rw [WP]
  split
  · exact hp _
  · exact hfail _ _

/-- An epsilon move may be added to every state that exists. -/
theorem wp_link {post : Unit → Automaton → Prop} {source target : Nat} (hs : source < a.size)
    (hp : ∀ a', Automaton.Linked source target a a' → post () a') :
    WP (link source target) post fail a := by
  obtain ⟨s, hs'⟩ := Automaton.exists_state? hs
  have hf : a.addEpsilon source target = .ok (a.set source (s.addEpsilon target)) :=
    Automaton.update_eq_ok.mpr ⟨s, _, hs', rfl, rfl⟩
  refine (wp_change hf).mpr (hp _ ?_)
  exact ⟨Automaton.size_set, fun i hi => Automaton.state?_set_ne hi,
    s, hs', Automaton.state?_set_self hs⟩

end Build

end ScannerTables
