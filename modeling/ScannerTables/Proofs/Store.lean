import ScannerTables.Automaton.Basic
/-!
# Automata as stores of states

What is found under a number after a state was added or replaced, and when the checked changes of an
automaton succeed. Replacing a state is `Automaton.set`; a checked change that succeeds is one.
-/

namespace ScannerTables

namespace Automaton

variable {a a' : Automaton} {i j : Nat} {s : State}

@[ext] theorem ext_state? (h : ∀ i, a.state? i = a'.state? i) : a = a' := by
  cases a
  cases a'
  congr 1
  exact Array.ext_getElem? h

theorem state?_isSome : (a.state? i).isSome ↔ i < a.size := by
  rw [state?, isSome_getElem?]
  rfl

theorem exists_state? (h : i < a.size) : ∃ s, a.state? i = some s :=
  Option.isSome_iff_exists.mp (state?_isSome.mpr h)

theorem lt_size (h : a.state? i = some s) : i < a.size :=
  state?_isSome.mp (Option.isSome_of_eq_some h)

/-! ### Adding and replacing states -/

theorem state?_addState {token : Option Nat} :
    (a.addState token).state? i = if i = a.size then some { token } else a.state? i := by
  rw [state?, addState, Array.getElem?_push]
  rfl

theorem state?_addState_self {token : Option Nat} :
    (a.addState token).state? a.size = some { token } := by
  rw [state?_addState, if_pos rfl]

theorem state?_addState_of_lt {token : Option Nat} (h : i < a.size) :
    (a.addState token).state? i = a.state? i := by
  rw [state?_addState, if_neg (Nat.ne_of_lt h)]

/-- The automaton with another state under a number that is in use. -/
def set (a : Automaton) (i : Nat) (s : State) : Automaton :=
  { states := a.states.setIfInBounds i s }

@[simp] theorem size_set : (a.set i s).size = a.size := Array.size_setIfInBounds

theorem state?_set_self (h : i < a.size) : (a.set i s).state? i = some s := by
  rw [state?, set, Array.getElem?_setIfInBounds, if_pos rfl]
  exact if_pos h

theorem state?_set_ne (h : j ≠ i) : (a.set i s).state? j = a.state? j := by
  rw [state?, set, Array.getElem?_setIfInBounds, if_neg (Ne.symm h)]
  rfl

theorem state?_set (h : i < a.size) :
    (a.set i s).state? j = if j = i then some s else a.state? j := by
  split
  · next hj => rw [hj, state?_set_self h]
  · next hj => exact state?_set_ne hj

theorem set_set {s' : State} : (a.set i s).set i s' = a.set i s' := by
  rw [set, set, Array.setIfInBounds_setIfInBounds]
  rfl

theorem set_state? (h : a.state? i = some s) : a.set i s = a := by
  ext j
  rw [state?_set (lt_size h)]
  split
  · next hj => rw [hj, h]
  · rfl

theorem update_eq_ok {f : State → Except Misuse State} :
    a.update i f = .ok a' ↔ ∃ s s', a.state? i = some s ∧ f s = .ok s' ∧ a' = a.set i s' := by
  rw [update, state]
  cases hs : a.state? i with
  | none => simp [bind, Except.bind]
  | some s =>
      cases hf : f s with
      | error m => simp [bind, Except.bind, hf]
      | ok s' => simp [bind, Except.bind, pure, Except.pure, hf, set, eq_comm]

end Automaton

end ScannerTables
