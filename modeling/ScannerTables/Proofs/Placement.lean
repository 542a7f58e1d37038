import ScannerTables.Proofs.Safety
/-!
# Places of composites do not show

Where a composite is stored depends on what was asked for before, and a search marks composites by
their places. Two lexical states with the same automaton may so keep the same composites in
different places. `SameMembers` relates such places, one to one since equal lists are one composite;
a search keeps the relation, so that both find composites with the same members in the same order,
and their tables are equal.
-/

namespace ScannerTables.LexicalState

open Relator

variable {s t : LexicalState} {id id' start start' : Nat} {found found' : List Nat}

/-- Places in two stores where the same members are found. -/
def SameMembers (s t : LexicalState) (id id' : Nat) : Prop :=
  ∃ members, s.composites[id]? = some members ∧ t.composites[id']? = some members

theorem SameMembers.getElem?_eq (h : SameMembers s t id id') :
    s.composites[id]? = t.composites[id']? := by
  obtain ⟨members, hid, hid'⟩ := h
  rw [hid, hid']

theorem biUnique_sameMembers (hs : Interned s.composites) (ht : Interned t.composites) :
    BiUnique (SameMembers s t) := by
  constructor
  · intro i j k ⟨members, hi, hk⟩ ⟨members', hj, hk'⟩
    obtain rfl := Option.some.inj (hk.symm.trans hk')
    exact hs i j members hi hj
  · intro i j k ⟨members, hi, hj⟩ ⟨members', hi', hk⟩
    obtain rfl := Option.some.inj (hi.symm.trans hi')
    exact ht j k members hj hk

/-- Entries that are related one to one are found at the same position. -/
theorem idxOf?_eq_of_forall₂ {R : Nat → Nat → Prop} (hR : BiUnique R) (hid : R id id')
    {l l' : List Nat} (h : List.Forall₂ R l l') : l.idxOf? id = l'.idxOf? id' := by
  induction h with
  | nil => rfl
  | @cons a b l l' hab _ ih =>
      have hiff : a = id ↔ b = id' := rel_eq hR hab hid
      rw [List.idxOf?_cons, List.idxOf?_cons, ih]
      by_cases ha : a = id
      · rw [if_pos (beq_iff_eq.mpr ha), if_pos (beq_iff_eq.mpr (hiff.mp ha))]
      · rw [if_neg (mt beq_iff_eq.mp ha), if_neg (mt beq_iff_eq.mp (mt hiff.mpr ha))]

/-! ### Searching -/

/-- Two searches that begin with the same members find the same members in the same order, if the
same members follow the same members. -/
theorem Discovers.forall₂ {seen seen' todo todo' : List Nat} (hR : BiUnique (SameMembers s t))
    (hsucc : ∀ members, List.Forall₂ (SameMembers s t) (s.successors members)
      (t.successors members))
    (h : s.Discovers seen todo found) (h' : t.Discovers seen' todo' found')
    (hseen : List.Forall₂ (SameMembers s t) seen seen')
    (htodo : List.Forall₂ (SameMembers s t) todo todo') :
    List.Forall₂ (SameMembers s t) found found' := by
  induction h generalizing seen' todo' found' with
  | done seen =>
      cases htodo
      cases h'
      exact .nil
  | @pass seen todo found id hid rest ih =>
      obtain ⟨id', todo', hsame, hrest, rfl⟩ := List.forall₂_cons_left_iff.mp htodo
      cases h' with
      | pass hid' rest' => exact ih rest' hseen hrest
      | next hid' hne' hnew' deeper' rest' =>
          cases hid with
          | inl hmem => exact absurd ((List.rel_mem hR hsame hseen).mp hmem) hnew'
          | inr hempty =>
              rw [hsame.getElem?_eq, hid'] at hempty
              exact absurd (Option.some.inj hempty) hne'
  | @next seen todo below beside members id hid hne hnew deeper rest ihdeeper ihrest =>
      obtain ⟨id', todo', hsame, hrest, rfl⟩ := List.forall₂_cons_left_iff.mp htodo
      cases h' with
      | pass hid' rest' =>
          cases hid' with
          | inl hmem => exact absurd ((List.rel_mem hR hsame hseen).mpr hmem) hnew
          | inr hempty =>
              rw [← hsame.getElem?_eq, hid] at hempty
              exact absurd (Option.some.inj hempty) hne
      | @next _ _ below' beside' members' _ hid' hne' hnew' deeper' rest' =>
          rw [← hsame.getElem?_eq, hid] at hid'
          obtain rfl := Option.some.inj hid'
          have hseen' := List.Forall₂.cons hsame hseen
          have hbelow := ihdeeper deeper' hseen' (hsucc members)
          have hbeside := ihrest rest' (List.rel_append hbelow hseen') hrest
          exact .cons hsame (List.rel_append hbelow hbeside)

/-! ### The same order -/

/-- The composite of a state has the epsilon moves of the state for its members. -/
theorem Arranged.exists_compositeOf? (h : s.Arranged start found) {q : Nat} {u : State}
    (hu : s.automaton.state? q = some u) :
    ∃ id, s.compositeOf? q = some id ∧ s.composites[id]? = some u.epsilon := by
  obtain ⟨id, hid⟩ := h.composite q u hu
  obtain ⟨v, hv, hmembers⟩ := h.state q id hid
  obtain rfl := Option.some.inj (hu.symm.trans hv)
  exact ⟨id, hid, hmembers⟩

/-- Two lexical states with one automaton, in whose dispatch the places of composites may differ. -/
structure Placed (s t : LexicalState) (start start' : Nat) (found found' : List Nat) : Prop where
  automaton_eq : s.automaton = t.automaton
  left : s.Arranged start found
  right : t.Arranged start' found'

namespace Placed

theorem biUnique (h : Placed s t start start' found found') : BiUnique (SameMembers s t) :=
  biUnique_sameMembers h.left.interned h.right.interned

theorem rel_compositeOf? (h : Placed s t start start' found found') (q : Nat) :
    Option.Rel (SameMembers s t) (s.compositeOf? q) (t.compositeOf? q) := by
  cases hq : s.automaton.state? q with
  | some u =>
      have hq' : t.automaton.state? q = some u := h.automaton_eq ▸ hq
      obtain ⟨id, hid, hmembers⟩ := h.left.exists_compositeOf? hq
      obtain ⟨id', hid', hmembers'⟩ := h.right.exists_compositeOf? hq'
      rw [hid, hid']
      exact .some ⟨_, hmembers, hmembers'⟩
  | none =>
      have hs : s.compositeOf? q = none := by
        rw [Option.eq_none_iff_forall_ne_some]
        intro id hid
        obtain ⟨u, hu, -⟩ := h.left.state q id hid
        exact absurd (hq.symm.trans hu) nofun
      have ht : t.compositeOf? q = none := by
        rw [Option.eq_none_iff_forall_ne_some]
        intro id hid
        obtain ⟨u, hu, -⟩ := h.right.state q id hid
        rw [← h.automaton_eq, hq] at hu
        exact absurd hu nofun
      rw [hs, ht]
      exact .none

/-- What is behind a state is stored under the same members. -/
theorem rel_bind_compositeOf? (h : Placed s t start start' found found') (m : Nat) :
    Option.Rel (SameMembers s t) (((s.automaton.state? m).bind (·.next)).bind s.compositeOf?)
      (((t.automaton.state? m).bind (·.next)).bind t.compositeOf?) := by
  rw [h.automaton_eq]
  cases (t.automaton.state? m).bind (·.next) with
  | none => exact .none
  | some q => exact h.rel_compositeOf? q

theorem forall₂_successors (h : Placed s t start start' found found') (members : List Nat) :
    List.Forall₂ (SameMembers s t) (s.successors members) (t.successors members) := by
  refine List.rel_filterMap (R := Eq) ?_ (List.forall₂_refl members)
  rintro m _ rfl
  exact h.rel_bind_compositeOf? m

theorem sameMembers_start (h : Placed s t start start' found found') :
    SameMembers s t start start' := by
  have hstart := h.rel_compositeOf? initialState
  rw [h.left.start_eq, h.right.start_eq] at hstart
  cases hstart with
  | some hsame => exact hsame

theorem forall₂_found (h : Placed s t start start' found found') :
    List.Forall₂ (SameMembers s t) found found' :=
  h.left.discovers.forall₂ h.biUnique h.forall₂_successors h.right.discovers .nil
    (.cons h.sameMembers_start .nil)

/-- Composites with the same members have the same index. -/
theorem forall₂_indexOrder (h : Placed s t start start' found found') :
    List.Forall₂ (SameMembers s t) (s.indexOrder start found) (t.indexOrder start' found') := by
  have htail : List.Forall₂ (SameMembers s t) found.tail found'.tail := by
    rw [← List.drop_one, ← List.drop_one]
    exact List.forall₂_drop 1 h.forall₂_found
  have hfinal : s.hasFinalMember = t.hasFinalMember := by
    funext members
    rw [hasFinalMember, hasFinalMember, h.automaton_eq]
  have hcompletes : ∀ {id id'}, SameMembers s t id id' → s.completes id = t.completes id' := by
    intro id id' hsame
    rw [completes, completes, hsame.getElem?_eq, hfinal]
  have hfilter : ∀ keep : Bool → Bool, List.Forall₂ (SameMembers s t)
      (found.tail.filter fun id => keep (s.completes id))
      (found'.tail.filter fun id => keep (t.completes id)) := by
    intro keep
    refine List.rel_filter (fun id id' hsame => ?_) htail
    dsimp only
    rw [hcompletes hsame]
  rw [h.left.indexOrder_eq, h.right.indexOrder_eq]
  exact .cons h.sameMembers_start
    (List.rel_append (hfilter fun completes => completes) (hfilter fun completes => !completes))

theorem indexOf?_eq (h : Placed s t start start' found found') (hid : SameMembers s t id id') :
    s.indexOf? id = t.indexOf? id' := by
  rw [h.left.indexOf?_eq, h.right.indexOf?_eq]
  exact idxOf?_eq_of_forall₂ h.biUnique hid h.forall₂_indexOrder

theorem nextIndex?_eq (h : Placed s t start start' found found') (m : Nat) :
    s.nextIndex? m = t.nextIndex? m := by
  have hnext := h.rel_bind_compositeOf? m
  rw [nextIndex?, nextIndex?]
  generalize ((s.automaton.state? m).bind (·.next)).bind s.compositeOf? = o at hnext ⊢
  generalize ((t.automaton.state? m).bind (·.next)).bind t.compositeOf? = o' at hnext ⊢
  cases hnext with
  | none => rfl
  | some hsame => exact h.indexOf?_eq hsame

/-- The same members are listed under the same indices. -/
theorem map_reachable_eq (h : Placed s t start start' found found') :
    s.reachable.map (fun c => (c.members, c.index)) =
      t.reachable.map fun c => (c.members, c.index) := by
  have hlisted : List.Forall₂
      (fun c c' : Composite => (c.members, c.index) = (c'.members, c'.index))
      s.reachable t.reachable := by
    rw [h.left.reachable_eq, h.right.reachable_eq]
    refine List.rel_filterMap (fun i j hsame => ?_) h.forall₂_indexOrder
    have hindex := h.indexOf?_eq hsame
    obtain ⟨members, hi, hj⟩ := hsame
    rw [composite?, composite?, hi, hj]
    exact .some (congrArg _ hindex)
  exact List.forall₂_eq_eq_eq ▸ List.rel_map (P := Eq) (fun _ _ heq => heq) hlisted

end Placed

/-! ### The same table -/

/-- A table says nothing of composites but what their members and indices are. -/
theorem table_congr (hs : s.Numbered) (ht : t.Numbered) (hname : s.name = t.name)
    (hdefault : s.isDefault = t.isDefault) (hautomaton : s.automaton = t.automaton)
    (hmovers : s.movers = t.movers) (hnext : s.nextIndex? = t.nextIndex?) (hreachable :
      s.reachable.map (fun c => (c.members, c.index)) =
        t.reachable.map fun c => (c.members, c.index)) : s.table = t.table := by
  have hmoves : s.movesArrayName? = t.movesArrayName? := by
    have hformat : s.movesArrayName = t.movesArrayName := by
      funext i
      rw [movesArrayName, movesArrayName, hdefault, hname]
    funext m
    rw [hs.movesArrayName?_eq, ht.movesArrayName?_eq, hmovers, hformat]
  have hmember : s.memberRecord = t.memberRecord := by
    funext m
    rw [memberRecord, memberRecord, hautomaton, hmoves, hnext]
  have hrecord : s.compositeRecord? = t.compositeRecord? := by
    have hmethod : s.methodName = t.methodName := by
      funext i
      rw [methodName, methodName, hdefault, hname]
    funext c
    rw [compositeRecord?, compositeRecord?, hmethod, hmember, memberToken?, memberToken?,
      hasFinalMember, hasFinalMember, orderedMembers, orderedMembers, hautomaton]
  -- the place of a composite is not recorded
  have hread : ∀ l : List Composite, l.filterMap t.compositeRecord? =
      (l.map fun c => (c.members, c.index)).filterMap fun c =>
        t.compositeRecord? ⟨0, c.2, c.1⟩ := by
    intro l
    rw [List.filterMap_map]
    rfl
  rw [table, table, hname, hmovers, hmoves, hrecord, hread, hread, hreachable]

end ScannerTables.LexicalState
