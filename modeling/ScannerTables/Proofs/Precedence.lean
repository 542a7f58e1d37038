import ScannerTables.Proofs.Idempotence
import ScannerTables.Proofs.Purity
/-!
# Precedence among the members of a composite

The members of a composite are tried in one order only. The comparison of two members ends with
their numbers, so no two of them tie, and there is one list in which each member comes before those
that it precedes; it is found by every way of sorting, whatever the members are sorted from. Of the
members that complete a token on a character the last one counts, which is the one with the lowest
token.
-/

namespace ScannerTables

open Std

/-! ### The comparison -/

namespace Automaton

/-- A member is tried before another. -/
def Precedes (a : Automaton) (m m' : Nat) : Prop := a.dispatchOrder m m' = .lt

/-- The ordinal of the token that is complete behind a member, or a sentinel if there is none. -/
def ordinal (a : Automaton) (sentinel m : Nat) : Nat := (a.completedToken? m).getD sentinel

variable {a : Automaton} {sentinel m m' : Nat}

/-- Members that tie in all else are told apart by their numbers. -/
theorem eq_of_dispatchOrder (h : a.dispatchOrder m m' = .eq) : m = m' := by
  rw [dispatchOrder, Ordering.then_eq_eq, Ordering.then_eq_eq, Ordering.then_eq_eq] at h
  exact Nat.compare_eq_eq.mp h.2.2.2

instance : LawfulEqCmp a.dispatchOrder where
  eq_of_compare := eq_of_dispatchOrder

theorem precedes_of_isLE (h : (a.dispatchOrder m m').isLE = true) (hne : m ≠ m') :
    a.Precedes m m' := by
  cases Ordering.isLE_iff_eq_lt_or_eq_eq.mp h with
  | inl hlt => exact hlt
  | inr heq => exact absurd (eq_of_dispatchOrder heq) hne

/-- The higher ordinal comes first, and the sentinel before all. -/
theorem ordinal_le_of_isLE (h : (a.dispatchOrder m m').isLE = true)
    (hsentinel : ∀ m token, a.completedToken? m = some token → token < sentinel) :
    a.ordinal sentinel m' ≤ a.ordinal sentinel m := by
  rw [ordinal, ordinal]
  cases hm : a.completedToken? m with
  | some token =>
      obtain ⟨token', htoken', hle⟩ := completedToken?_of_dispatchOrder h hm
      rwa [htoken']
  | none =>
      cases hm' : a.completedToken? m' with
      | none => exact Nat.le_refl sentinel
      | some token' => exact Nat.le_of_lt (hsentinel m' token' hm')

instance : IsStrictTotalOrder Nat a.Precedes where
  irrefl m h := by
    have hself : a.dispatchOrder m m = .eq := ReflCmp.compare_self
    exact absurd (h.symm.trans hself) nofun
  trans m m' m'' h h' := TransCmp.lt_trans h h'
  trichotomous m m' h h' := by
    by_contra hne
    cases ho : a.dispatchOrder m m' with
    | lt => exact h ho
    | eq => exact hne (eq_of_dispatchOrder ho)
    | gt => exact h' (OrientedCmp.gt_iff_lt.mp ho)

end Automaton

/-! ### The members in order -/

namespace LexicalState

open Automaton

variable {s : LexicalState} {members l : List Nat} {c m m' : Nat}

theorem perm_orderedMembers : (s.orderedMembers members).Perm members := List.mergeSort_perm ..

theorem precedes_orderedMembers (h : members.Nodup) :
    (s.orderedMembers members).Pairwise s.automaton.Precedes := by
  have hnodup : (s.orderedMembers members).Nodup := perm_orderedMembers.nodup_iff.mpr h
  exact (pairwise_orderedMembers.and hnodup).imp fun hm => precedes_of_isLE hm.1 hm.2

/-- There is one list of the members in which each comes before those that it precedes. -/
theorem eq_orderedMembers_iff (h : members.Nodup) : l = s.orderedMembers members ↔
    l.Pairwise s.automaton.Precedes ∧ ∀ m, m ∈ l ↔ m ∈ members := by
  constructor
  · rintro rfl
    exact ⟨precedes_orderedMembers h, fun m => mem_orderedMembers⟩
  · rintro ⟨hl, hmem⟩
    have hnodup : l.Nodup := by
      refine hl.imp ?_
      rintro m _ hm rfl
      exact irrefl m hm
    have hperm : l.Perm (s.orderedMembers members) :=
      (List.perm_ext_iff_of_nodup hnodup (perm_orderedMembers.nodup_iff.mpr h)).mpr fun m =>
        (hmem m).trans mem_orderedMembers.symm
    exact hperm.eq_of_pairwise (fun m m' _ _ hm hm' => absurd hm' (asymm hm)) hl
      (precedes_orderedMembers h)

/-! ### The member that counts -/

/-- True if a member moves on a character to a state where the token is complete. -/
def completesOn (s : LexicalState) (c m : Nat) : Bool :=
  (s.automaton.state? m).any (·.accepts c) && s.automaton.isNextFinal m

/-- The members that complete a token on a character, in the order in which they are tried. -/
def completing (s : LexicalState) (members : List Nat) (c : Nat) : List Nat :=
  (s.orderedMembers members).filter (s.completesOn c)

/-- A member that carries the lowest token that is complete behind any of the members on a
character, its own one. -/
def CarriesLeast (s : LexicalState) (members : List Nat) (c m : Nat) : Prop :=
  ∃ token, (s.automaton.state? m).bind (·.token) = some token ∧
    s.automaton.completedToken? m = some token ∧
      ∀ m' ∈ members, s.completesOn c m' = true → ∃ token',
        (s.automaton.state? m').bind (·.token) = some token' ∧ token ≤ token'

theorem mem_completing : m ∈ s.completing members c ↔ m ∈ members ∧ s.completesOn c m = true := by
  rw [completing, List.mem_filter, mem_orderedMembers]

theorem isNextFinal_of_completesOn (h : s.completesOn c m = true) :
    s.automaton.isNextFinal m = true :=
  (Bool.and_eq_true _ _ ▸ h).2

/-- Behind a member that completes a token come only members with as low a token. -/
theorem carriesLeast_of_getLast? (hpure : s.automaton.Pure)
    (h : (s.completing members c).getLast? = some m) : s.CarriesLeast members c m := by
  obtain ⟨before, hbefore⟩ := List.getLast?_eq_some_iff.mp h
  have hm : m ∈ s.completing members c := List.mem_of_getLast? h
  obtain ⟨token, htoken, hcompleted⟩ :=
    hpure.completedToken?_eq (isNextFinal_of_completesOn (mem_completing.mp hm).2)
  refine ⟨token, htoken, hcompleted, fun m' hm' hcompletes => ?_⟩
  obtain ⟨token', htoken', hcompleted'⟩ :=
    hpure.completedToken?_eq (isNextFinal_of_completesOn hcompletes)
  refine ⟨token', htoken', ?_⟩
  -- whatever completes a token stands before the last one or is the last one
  have hle : (s.automaton.dispatchOrder m' m).isLE = true := by
    have hmem : m' ∈ before ++ [m] := hbefore ▸ mem_completing.mpr ⟨hm', hcompletes⟩
    have hsorted : (before ++ [m]).Pairwise fun m m' =>
        (s.automaton.dispatchOrder m m').isLE = true :=
      hbefore ▸ pairwise_orderedMembers.filter _
    cases List.mem_append.mp hmem with
    | inl hmem =>
        exact (List.pairwise_append.mp hsorted).2.2 m' hmem m (List.mem_singleton_self m)
    | inr heq =>
        rw [List.mem_singleton.mp heq]
        exact Ordering.isLE_iff_eq_lt_or_eq_eq.mpr (.inr ReflCmp.compare_self)
  obtain ⟨least, hleast, hlow⟩ := completedToken?_of_dispatchOrder hle hcompleted'
  obtain rfl : token = least := Option.some.inj (hcompleted.symm.trans hleast)
  exact hlow

/-! ### The composites of states -/

/-- The members of the composite of a state are listed once each. -/
theorem Called.nodup_members (h : s.Called) (hs : s.isProcessed = true) {p id : Nat}
    (hid : s.compositeOf? p = some id) (hmembers : s.composites[id]? = some members) :
    members.Nodup := by
  obtain ⟨start, found, harranged⟩ := h.kept.arranged (Option.isSome_iff_ne_none.mp hs)
  obtain ⟨u, hu, hepsilon⟩ := harranged.state p id hid
  obtain rfl := Option.some.inj (hepsilon.symm.trans hmembers)
  obtain ⟨a, hclose⟩ := h.exists_close hs
  have hascend := epsilonsAscend_of_close hclose u (Array.mem_of_getElem? hu)
  exact hascend.imp Nat.ne_of_lt

/-- Dispatch order is a total order that puts priorities right. In a processed lexical state,
whatever was called on it before, to precede is a strict total order, and it is what the comparison
of two members says. Of the members of the composite of a state there is one list in that order,
with each of them once, and it is found by whatever sorts by the comparison, from whatever order;
ordinals descend in it, from a sentinel above all of them. If some of the members complete a token
on a character, then the last of these in dispatch order carries the lowest of their tokens. -/
theorem members_prioritized (s : LexicalState) (hs : s.Called) (hprocessed : s.isProcessed = true)
    (p id : Nat) (members : List Nat) (hid : s.compositeOf? p = some id)
    (hmembers : s.composites[id]? = some members) :
    (IsStrictTotalOrder Nat s.automaton.Precedes ∧
      ∀ m m', (s.automaton.dispatchOrder m m' = .eq ↔ m = m') ∧
        (s.automaton.dispatchOrder m m' = .gt ↔ s.automaton.Precedes m' m)) ∧
    ((s.orderedMembers members).Perm members ∧ (s.orderedMembers members).Nodup ∧
      (∀ l, l = s.orderedMembers members ↔
        l.Pairwise s.automaton.Precedes ∧ ∀ m, m ∈ l ↔ m ∈ members) ∧
      (∀ start sorted : List Nat, start.Perm members → sorted.Perm start →
        (sorted.Pairwise fun m m' => (s.automaton.dispatchOrder m m').isLE = true) →
          sorted = s.orderedMembers start ∧ sorted = s.orderedMembers members) ∧
      ∀ sentinel, (∀ m token, s.automaton.completedToken? m = some token → token < sentinel) →
        (s.orderedMembers members).Pairwise fun m m' =>
          s.automaton.ordinal sentinel m' ≤ s.automaton.ordinal sentinel m) ∧
    ∀ c, ∀ m ∈ members, s.completesOn c m = true →
      ∃ last, (s.completing members c).getLast? = some last ∧ s.CarriesLeast members c last := by
  have hnodup : members.Nodup := hs.nodup_members hprocessed hid hmembers
  refine ⟨⟨inferInstance, fun m m' => ⟨?_, OrientedCmp.gt_iff_lt⟩⟩,
    ⟨perm_orderedMembers, perm_orderedMembers.nodup_iff.mpr hnodup,
      fun l => eq_orderedMembers_iff hnodup, ?_, ?_⟩, ?_⟩
  · exact LawfulEqCmp.compare_eq_iff_eq
  · intro start sorted hstart hperm hsorted
    have hstart' : start.Nodup := hstart.nodup_iff.mpr hnodup
    -- no member is listed twice, so none ties with another
    have hprecedes : sorted.Pairwise s.automaton.Precedes := by
      have hdistinct : sorted.Nodup := hperm.nodup_iff.mpr hstart'
      exact (hsorted.and hdistinct).imp fun hm => precedes_of_isLE hm.1 hm.2
    constructor
    · exact (eq_orderedMembers_iff hstart').mpr ⟨hprecedes, fun m => hperm.mem_iff⟩
    · exact (eq_orderedMembers_iff hnodup).mpr ⟨hprecedes, fun m => (hperm.trans hstart).mem_iff⟩
  · intro sentinel hsentinel
    exact pairwise_orderedMembers.imp fun hle => ordinal_le_of_isLE hle hsentinel
  · intro c m hm hcompletes
    have hmem : m ∈ s.completing members c := mem_completing.mpr ⟨hm, hcompletes⟩
    obtain ⟨last, hlast⟩ :=
      Option.isSome_iff_exists.mp (List.getLast?_isSome.mpr (List.ne_nil_of_mem hmem))
    exact ⟨last, hlast, carriesLeast_of_getLast? (hs.pure hprocessed) hlast⟩

/-- A class of lower-case letters, listed first, and the literals `i` and `if`, registered before
it: on `i` the class and the literal `i` complete their tokens while `if` goes on. The literal is
tried last, for its ordinal is the lowest. -/
theorem members_prioritized_overlap : ∃ s : LexicalState, s.Called ∧ s.isProcessed = true ∧
    s.compositeOf? initialState = some 0 ∧ s.composites[0]? = some [1, 3, 5] ∧
      s.orderedMembers [1, 3, 5] = [5, 1, 3] ∧ s.orderedMembers [3, 5, 1] = [5, 1, 3] ∧
        s.completing [1, 3, 5] 105 = [1, 3] ∧ s.CarriesLeast [1, 3, 5] 105 3 := by
  obtain ⟨s, hcalled, hprocessed, hid, hmembers, hcompletes, hcompleting, hordered⟩ :
      ∃ s : LexicalState, s.Called ∧ s.isProcessed = true ∧ s.compositeOf? initialState = some 0 ∧
        s.composites[0]? = some [1, 3, 5] ∧ s.completesOn 105 1 = true ∧
          s.completing [1, 3, 5] 105 = [1, 3] ∧ s.orderedMembers [1, 3, 5] = [5, 1, 3] := by
    let r := ((TokenRegistry.new.register { pattern := .literal "i" }).register
      { pattern := .literal "if" }).register { pattern := .charClass { ranges := [⟨97, 122⟩] } }
    let s := (new "DEFAULT" true).addProduction
      { specs := [{ token := 3 }, { token := 1 }, { token := 2 }] }
    refine ⟨Checked.final (process r {}) s, ?_, ?_⟩
    · exact ((Called.new "DEFAULT" true).addProduction _).process r {}
    · dsimp only [r, s]
      cbv
  obtain ⟨-, ⟨-, -, -, hsorts, -⟩, hleast⟩ :=
    members_prioritized s hcalled hprocessed initialState 0 [1, 3, 5] hid hmembers
  have hrotated : s.orderedMembers [3, 5, 1] = [5, 1, 3] := by
    have hperm : [3, 5, 1].Perm [1, 3, 5] := by decide
    have hsame := (hsorts [3, 5, 1] _ hperm perm_orderedMembers pairwise_orderedMembers).2
    exact hsame.trans hordered
  obtain ⟨last, hlast, hcarries⟩ := hleast 105 1 (by decide) hcompletes
  rw [hcompleting] at hlast
  obtain rfl : 3 = last := Option.some.inj hlast
  exact ⟨s, hcalled, hprocessed, hid, hmembers, hordered, hrotated, hcompleting, hcarries⟩

end LexicalState

end ScannerTables
