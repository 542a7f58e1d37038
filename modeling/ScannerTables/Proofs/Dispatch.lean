import ScannerTables.LexicalState.Process
import ScannerTables.Proofs.Closure
/-!
# The dispatch of a lexical state

What a scanner relies on in the composites that processing finds: every state has a composite, whose
members are its closed epsilon moves; the composite of state 0 has index 0; every composite with
members that can be reached from it has an index; and the members of a composite are sorted so that
the last one that completes a token completes the lowest.
-/

namespace ScannerTables

open Std

/-! ### The order of the members of a composite -/

namespace Automaton

namespace dispatchOrder

instance : TransCmp completion where
  eq_swap {o o'} := by
    cases o with
    | none => cases o' <;> rfl
    | some t =>
        cases o' with
        | none => rfl
        | some t' => exact (Nat.compare_swap t t').symm
  isLE_trans {o₁ o₂ o₃} h h' := by
    cases o₁ <;> cases o₂ <;> cases o₃ <;> first | rfl | contradiction | skip
    simp only [completion, Nat.isLE_compare] at h h' ⊢
    exact Nat.le_trans h' h

/-- The comparison of the first ranges of two lists that have one. -/
abbrev compareRange : Interval → Interval → Ordering :=
  compareLex (compareOn Interval.lo) (compareOn Interval.hi)

instance : TransCmp firstRange where
  eq_swap {l l'} := by
    cases l with
    | nil => cases l' <;> rfl
    | cons i l =>
        cases l' with
        | nil => rfl
        | cons j l' => exact @OrientedCmp.eq_swap _ compareRange _ i j
  isLE_trans {l₁ l₂ l₃} h h' := by
    cases l₁ <;> cases l₂ <;> cases l₃ <;> first | rfl | contradiction | skip
    exact @TransCmp.isLE_trans _ compareRange _ _ _ _ h h'

end dispatchOrder

/-- Comparing images is as good as comparing. -/
theorem transCmp_comap {α β : Type} (f : α → β) (c : β → β → Ordering) [TransCmp c] :
    TransCmp fun x y => c (f x) (f y) where
  eq_swap := OrientedCmp.eq_swap
  isLE_trans := TransCmp.isLE_trans

variable (a : Automaton)

instance : TransCmp a.dispatchOrder :=
  have := transCmp_comap a.completedToken? dispatchOrder.completion
  have := transCmp_comap (dispatchOrder.ranges a) dispatchOrder.firstRange
  have := transCmp_comap (fun id => (dispatchOrder.ranges a id).length) compare
  inferInstanceAs <| TransCmp <|
    compareLex (fun id id' =>
      dispatchOrder.completion (a.completedToken? id) (a.completedToken? id')) <|
    compareLex (fun id id' => dispatchOrder.firstRange (dispatchOrder.ranges a id)
      (dispatchOrder.ranges a id')) <|
    compareLex (fun id id' => compare (dispatchOrder.ranges a id).length
      (dispatchOrder.ranges a id').length) compare

variable {a} {m m' t : Nat}

/-- Behind a member that completes a token come only members that complete one as low. -/
theorem completedToken?_of_dispatchOrder (h : (a.dispatchOrder m m').isLE = true)
    (ht : a.completedToken? m = some t) : ∃ t', a.completedToken? m' = some t' ∧ t' ≤ t := by
  have hle : (dispatchOrder.completion (a.completedToken? m) (a.completedToken? m')).isLE = true :=
    Ordering.isLE_left_of_isLE_then h
  rw [ht] at hle
  cases ht' : a.completedToken? m' with
  | none => simp [ht', dispatchOrder.completion] at hle
  | some t' =>
      rw [ht', dispatchOrder.completion, Nat.isLE_compare] at hle
      exact ⟨t', rfl, hle⟩

end Automaton

namespace LexicalState

variable {s s' : LexicalState} {members : List Nat} {m : Nat}

@[simp] theorem mem_orderedMembers : m ∈ s.orderedMembers members ↔ m ∈ members :=
  List.mem_mergeSort

theorem pairwise_orderedMembers :
    (s.orderedMembers members).Pairwise fun m m' =>
      (s.automaton.dispatchOrder m m').isLE = true := by
  refine List.pairwise_mergeSort ?_ ?_ members
  · intro m₁ m₂ m₃
    exact @TransCmp.isLE_trans _ s.automaton.dispatchOrder _ m₁ m₂ m₃
  · intro m m'
    rw [@OrientedCmp.eq_swap _ s.automaton.dispatchOrder _ m' m]
    cases s.automaton.dispatchOrder m m' <;> rfl

/-! ### The store of composites -/

section

variable {composites : Array (List Nat)} {id : Nat}

theorem intern_eq (composites : Array (List Nat)) (members : List Nat) :
    (intern composites members).2[(intern composites members).1]? = some members ∧
      ∀ (i : Nat) l, composites[i]? = some l → (intern composites members).2[i]? = some l := by
  rw [intern]
  split
  · next id hid =>
    obtain ⟨hlt, heq, -⟩ := Array.findIdx?_eq_some_iff_getElem.mp hid
    refine ⟨?_, fun _ _ h => h⟩
    simpa [hlt] using heq
  · refine ⟨Array.getElem?_push_size, fun i l hi => ?_⟩
    obtain ⟨hlt, rfl⟩ := Array.getElem?_eq_some_iff.mp hi
    exact Array.getElem?_push_lt hlt

/-- Every list of members is found under its composite, whatever is added later. -/
theorem internAll_eq (composites : Array (List Nat)) (lists : List (List Nat)) :
    List.Forall₂ (fun id l => (internAll composites lists).2[id]? = some l)
        (internAll composites lists).1 lists ∧
      ∀ (i : Nat) l, composites[i]? = some l → (internAll composites lists).2[i]? = some l := by
  induction lists generalizing composites with
  | nil => exact ⟨.nil, fun _ _ => id⟩
  | cons l lists ih =>
      obtain ⟨hid, hkeep⟩ := intern_eq composites l
      obtain ⟨hids, hkeeps⟩ := ih (intern composites l).2
      exact ⟨.cons (hkeeps _ _ hid) hids, fun i l' hl' => hkeeps i l' (hkeep i l' hl')⟩

end

/-! ### What processing generates -/

/-- One composite follows another: some member of the one has a successor with the other. -/
def Follows (s : LexicalState) (id id' : Nat) : Prop :=
  ∃ members, s.composites[id]? = some members ∧ id' ∈ s.successors members

section

variable {start id : Nat} {found : List Nat}

theorem edge_iff_follows {id' : Nat} :
    Graph.Edge (s.composites.map s.successors) id id' ↔ s.Follows id id' := by
  simp only [Graph.Edge, Array.getElem?_map, Option.map_eq_some_iff, Follows]
  constructor
  · rintro ⟨_, ⟨members, hm, rfl⟩, hid⟩
    exact ⟨members, hm, hid⟩
  · rintro ⟨members, hm, hid⟩
    exact ⟨_, ⟨members, hm, rfl⟩, hid⟩

theorem mem_reachedFrom (h : s.reachedFrom start = .ok found) :
    id ∈ found ↔ Relation.ReflTransGen s.Follows start id ∧
      ∃ members, s.composites[id]? = some members ∧ members ≠ [] := by
  obtain ⟨l, hl, heq⟩ := Checked.bind_eq_ok.mp h
  obtain rfl := Except.ok.inj heq
  have hedge : Graph.Edge (s.composites.map s.successors) = s.Follows := by
    funext id id'
    exact propext edge_iff_follows
  rw [List.mem_filter, Graph.mem_preorder hl, Graph.Reach, hedge]
  simp [Option.any_eq_true]

/-! ### The order of indices -/

section

variable {α : Type} {key : α → Bool} {l : List α}

/-- A list in which nothing without the key stands before something with it is in two parts. -/
theorem eq_filter_append_filter (h : l.Pairwise fun a b => (key a || !key b) = true) :
    l = l.filter key ++ l.filter (!key ·) := by
  induction l with
  | nil => rfl
  | cons a l ih =>
      obtain ⟨hhead, htail⟩ := List.pairwise_cons.mp h
      cases ha : key a with
      | true => simp [ha, ← ih htail]
      | false =>
          have hnone : ∀ b ∈ l, key b = false := fun b hb => by simpa [ha] using hhead b hb
          have hall : l.filter (!key ·) = l := List.filter_eq_self.mpr (by simpa using hnone)
          simp [ha, List.filter_eq_nil_iff.mpr (by simpa using hnone), hall]

/-- A stable sort by a key keeps the order of what has it and of what has not. -/
theorem mergeSort_key (key : α → Bool) (l : List α) :
    l.mergeSort (fun a b => key a || !key b) = l.filter key ++ l.filter (!key ·) := by
  have htrans : ∀ a b c, (key a || !key b) = true → (key b || !key c) = true →
      (key a || !key c) = true := by
    intro a b c
    cases key a <;> cases key b <;> simp
  have htotal : ∀ a b, ((key a || !key b) || (key b || !key a)) = true := by
    intro a b
    cases key a <;> cases key b <;> rfl
  have hperm : (l.mergeSort fun a b => key a || !key b).Perm l := List.mergeSort_perm l _
  have keeps : ∀ p : Bool → Bool, (∀ b, p b = true → ∀ b', p b' = true → (b || !b') = true) →
      (l.mergeSort fun a b => key a || !key b).filter (p <| key ·) = l.filter (p <| key ·) := by
    intro p hp
    have hsorted : (l.filter (p <| key ·)).Pairwise fun a b => (key a || !key b) = true :=
      List.pairwise_of_forall_mem_list fun a ha b hb =>
        hp _ (List.mem_filter.mp ha).2 _ (List.mem_filter.mp hb).2
    have hsub := (List.sublist_mergeSort htrans htotal hsorted List.filter_sublist).filter
      (p <| key ·)
    rw [List.filter_filter] at hsub
    simp only [Bool.and_self] at hsub
    exact (hsub.eq_of_length (hperm.filter _).length_eq.symm).symm
  rw [eq_filter_append_filter (List.pairwise_mergeSort htrans htotal l)]
  exact congrArg₂ (· ++ ·) (keeps id (by simp)) (keeps (!·) (by simp))

end

/-- Of the composites behind the first, those that complete a token come first. -/
theorem indexOrder_eq_filter : s.indexOrder start found = if found.head? = some start then
    start :: ((found.drop 1).filter s.completes ++ (found.drop 1).filter (!s.completes ·))
  else [start] := by
  rw [indexOrder, mergeSort_key]

theorem idxOf?_indexOrder : (s.indexOrder start found).idxOf? start = some 0 := by
  rw [indexOrder]
  split <;> simp [List.idxOf?_cons]

/-- The start is a composite, for the search would have stopped. -/
theorem exists_members_of_reachedFrom (h : s.reachedFrom start = .ok found) :
    ∃ members, s.composites[start]? = some members := by
  obtain ⟨l, hl, -⟩ := Checked.bind_eq_ok.mp h
  have hmem : start ∈ l := (Graph.mem_preorder hl).mpr .refl
  have hlt := Graph.lt_size_of_preorder hl hmem
  rw [Array.size_map] at hlt
  exact ⟨_, Array.getElem?_eq_getElem hlt⟩

/-- The order lists what was found, and the start even if it has no members. -/
theorem mem_indexOrder (h : s.reachedFrom start = .ok found) :
    id ∈ s.indexOrder start found ↔ id = start ∨ id ∈ found := by
  rw [indexOrder]
  split
  · next hhead =>
    obtain ⟨rest, rfl⟩ := List.head?_eq_some_iff.mp hhead
    simp only [List.drop_one, List.tail_cons, List.mem_cons, List.mem_mergeSort, or_self_left]
  · next hhead =>
    rw [List.mem_singleton]
    refine (or_iff_left_of_imp ?_).symm
    intro hid
    -- the start was left out for want of members, so nothing follows it
    obtain ⟨hreach, members, hmembers, hne⟩ := (mem_reachedFrom h).mp hid
    rcases Relation.ReflTransGen.cases_head hreach with heq | ⟨next, ⟨first, hfirst, hnext⟩, -⟩
    · exact heq.symm
    · refine absurd ?_ hhead
      have hne' : first ≠ [] := by
        rintro rfl
        exact absurd hnext List.not_mem_nil
      obtain ⟨l, hl, heq⟩ := Checked.bind_eq_ok.mp h
      obtain rfl := Except.ok.inj heq
      obtain ⟨rest, rfl⟩ := List.head?_eq_some_iff.mp (Graph.head?_preorder hl)
      rw [List.filter_cons_of_pos (by simpa [hfirst] using hne')]
      rfl

theorem nodup_indexOrder (h : s.reachedFrom start = .ok found) :
    (s.indexOrder start found).Nodup := by
  rw [indexOrder]
  split
  · next hhead =>
    obtain ⟨rest, rfl⟩ := List.head?_eq_some_iff.mp hhead
    obtain ⟨l, hl, heq⟩ := Checked.bind_eq_ok.mp h
    have hnodup := (Graph.nodup_preorder hl).filter fun id => s.composites[id]?.any (!·.isEmpty)
    rw [Except.ok.inj heq] at hnodup
    exact ((List.mergeSort_perm rest _).cons start).nodup_iff.mpr hnodup
  · exact List.nodup_singleton start

theorem lt_size_of_mem_indexOrder (h : s.reachedFrom start = .ok found)
    (hid : id ∈ s.indexOrder start found) : id < s.composites.size := by
  have hmembers : ∃ members, s.composites[id]? = some members := by
    obtain rfl | hid := (mem_indexOrder h).mp hid
    · exact exists_members_of_reachedFrom h
    · obtain ⟨-, members, hmembers, -⟩ := (mem_reachedFrom h).mp hid
      exact ⟨members, hmembers⟩
  obtain ⟨members, hmembers⟩ := hmembers
  exact (Array.getElem?_eq_some_iff.mp hmembers).1

end

/-! ### Positions that are kept -/

section

variable {α : Type} {size id : Nat} {value : Nat → α} {ids : List Nat}

/-- The loop that writes positions leaves the entries of other numbers as they are. -/
theorem getElem?_foldl_enumerate (hnodup : ids.Nodup) (k : Nat) (values : Array (Option α))
    (hlt : ∀ id ∈ ids, id < values.size) : ((ids.zipIdx k).foldl
      (fun values p => values.setIfInBounds p.1 (some (value p.2))) values)[id]?.join =
        ((ids.idxOf? id).map fun i => value (k + i)).or values[id]?.join := by
  induction ids generalizing k values with
  | nil => rfl
  | cons first ids ih =>
      rw [List.nodup_cons] at hnodup
      rw [List.forall_mem_cons] at hlt
      rw [List.zipIdx_cons, List.foldl_cons, ih hnodup.2 (k + 1) _ (by simpa using hlt.2),
        List.idxOf?_cons, Array.getElem?_setIfInBounds]
      by_cases heq : first = id
      · subst heq
        have hnone : ids.idxOf? first = none := List.idxOf?_eq_none_iff.mpr hnodup.1
        simp [hnone, hlt.1]
      · simp only [beq_iff_eq, if_neg heq, Option.map_map]
        congr 2
        funext i
        simp only [Function.comp_apply]
        congr 1
        omega

/-- What is written to a number is what its position says. -/
theorem getElem?_enumerate (hnodup : ids.Nodup) (hlt : ∀ id ∈ ids, id < size) :
    (enumerate size value ids)[id]?.join = (ids.idxOf? id).map value := by
  rw [enumerate, getElem?_foldl_enumerate hnodup 0 _ (by simpa using hlt)]
  have hnone : (Array.replicate size (none : Option α))[id]?.join = none := by
    rw [Array.getElem?_replicate]
    split <;> rfl
  rw [hnone, Option.or_none]
  simp

end

/-- The composites that a scan can reach, in the order of their indices. -/
def order (s : LexicalState) : List Nat := (s.dispatch.map (·.order)).getD []

/-- The indices and the names of move arrays that are kept are those of the positions. -/
structure Numbered (s : LexicalState) : Prop where
  indexOf?_eq : ∀ id, s.indexOf? id = s.order.idxOf? id
  movesArrayName?_eq : ∀ m, s.movesArrayName? m = (s.movers.idxOf? m).map s.movesArrayName

theorem Numbered.of_eq (h : s.Numbered) (hdispatch : s'.dispatch = s.dispatch)
    (hname : s'.name = s.name) (hdefault : s'.isDefault = s.isDefault) : s'.Numbered where
  indexOf?_eq id := by
    rw [indexOf?, order, hdispatch]
    exact h.indexOf?_eq id
  movesArrayName?_eq m := by
    have hformat : s'.movesArrayName = s.movesArrayName := by
      funext i
      rw [movesArrayName, movesArrayName, hname, hdefault]
    rw [movesArrayName?, movers, hdispatch, hformat]
    exact h.movesArrayName?_eq m

theorem numbered_of_dispatch (h : s.dispatch = none) : s.Numbered where
  indexOf?_eq id := by
    rw [indexOf?, order, h]
    rfl
  movesArrayName?_eq m := by
    rw [movesArrayName?, movers, h]
    rfl

/-- What generating the dispatch changes: the automaton is closed, the epsilon moves of its states
become composites, and those that are found from the composite of state 0 are put in order. The
names of move arrays and the indices are written down by position. -/
theorem exists_of_generate (h : s.generate = .ok s') : ∃ automaton ids composites d found,
    s.automaton.close = .ok automaton ∧
      internAll s.composites (automaton.states.toList.map (·.epsilon)) = (ids, composites) ∧
        s' = { s with automaton, composites, dispatch := some d } ∧
          d.compositeOf = ids.toArray ∧
            s'.reachedFrom (ids[initialState]?.getD 0) = .ok found ∧
              d.order = s'.indexOrder (ids[initialState]?.getD 0) found ∧
                d.movers = (List.range automaton.size).filter automaton.needsMoveCode ∧
                  d.moveNames = enumerate automaton.size s.movesArrayName d.movers ∧
                    d.indices = enumerate composites.size id d.order := by
  obtain ⟨automaton, hclose, h⟩ := Checked.bind_eq_ok.mp h
  dsimp only at h
  split at h
  case isFalse =>
    obtain ⟨_, hthrow, -⟩ := Checked.bind_eq_ok.mp h
    exact absurd hthrow Checked.throw_ne_ok
  obtain ⟨found, hfound, heq⟩ := Checked.bind_eq_ok.mp h
  obtain rfl := Except.ok.inj heq
  exact ⟨automaton, _, _, _, found, hclose, rfl, rfl, rfl, hfound, rfl, rfl, rfl, rfl⟩

/-- The numbers that generating writes down are those of the positions: no composite is listed
twice, and all that are listed exist. -/
theorem numbered_of_generate (h : s.generate = .ok s') : s'.Numbered := by
  obtain ⟨automaton, ids, composites, d, found, -, -, rfl, -, hfound, horder, hmovers, hnames,
    hindices⟩ := exists_of_generate h
  refine ⟨fun id => ?_, fun m => ?_⟩
  · change d.indices[id]?.join = d.order.idxOf? id
    rw [hindices, horder, getElem?_enumerate (nodup_indexOrder hfound)
      fun id => lt_size_of_mem_indexOrder hfound, Option.map_id_apply]
  · change d.moveNames[m]?.join = (d.movers.idxOf? m).map s.movesArrayName
    rw [hnames, hmovers, getElem?_enumerate (List.nodup_range.filter _)]
    exact fun m hm => List.mem_range.mp (List.mem_filter.mp hm).1

/-- Generating replaces the automaton and the composites and sets the dispatch. -/
theorem exists_eq_of_generate (h : s.generate = .ok s') : ∃ automaton composites d,
    s' = { s with automaton, composites, dispatch := some d } := by
  obtain ⟨automaton, _, composites, d, _, -, -, heq, -⟩ := exists_of_generate h
  exact ⟨automaton, composites, d, heq⟩

/-- A lexical state before and after its automaton was closed and its dispatch found. -/
structure Generates (s s' : LexicalState) : Prop where
  closes : s.automaton.Closes s'.automaton
  composite : ∀ p t, s'.automaton.state? p = some t →
    ∃ id, s'.compositeOf? p = some id ∧ s'.composites[id]? = some t.epsilon
  start : ∀ id, s'.compositeOf? initialState = some id → s'.indexOf? id = some 0
  exists_members : ∀ id i, s'.indexOf? id = some i → ∃ members, s'.composites[id]? = some members
  indexed : ∀ start id members, s'.compositeOf? initialState = some start →
    Relation.ReflTransGen s'.Follows start id → s'.composites[id]? = some members →
    members ≠ [] → (s'.indexOf? id).isSome
  numbered : s'.Numbered

/-- Generating does not look at what was told. -/
theorem Generates.of_reported (h : s.reported.Generates s') : s.Generates s' :=
  ⟨h.closes, h.composite, h.start, h.exists_members, h.indexed, h.numbered⟩

theorem generates_of_generate (h : s.generate = .ok s') : s.Generates s' := by
  have hnumbered := numbered_of_generate h
  obtain ⟨automaton, ids, composites, d, found, hclose, hintern, heq, hcompositeOf, hfound,
    horder, -⟩ := exists_of_generate h
  have hids := (internAll_eq s.composites (automaton.states.toList.map (·.epsilon))).1
  rw [hintern] at hids
  subst heq
  have hids' := List.forall₂_map_right_iff.mp hids
  have found_ids : ∀ p t, automaton.state? p = some t →
      ∃ id, ids[p]? = some id ∧ composites[id]? = some t.epsilon := by
    intro p t ht
    obtain ⟨hlt, rfl⟩ := Array.getElem?_eq_some_iff.mp ht
    have hlt' : p < automaton.states.toList.length := hlt
    have hp : p < ids.length := hids'.length_eq ▸ hlt'
    refine ⟨ids[p], List.getElem?_eq_getElem hp, ?_⟩
    exact hids'.get hp hlt'
  have mem_order := fun id => @mem_indexOrder _ _ id _ hfound
  have compositeOf?_eq : ∀ p : Nat, d.compositeOf[p]? = ids[p]? := by
    intro p
    rw [hcompositeOf, List.getElem?_toArray]
  refine ⟨Automaton.closes_of_close hclose, ?_, ?_, ?_, ?_, hnumbered⟩
  · intro p t ht
    obtain ⟨id, hid, hmembers⟩ := found_ids p t ht
    exact ⟨id, (compositeOf?_eq p).trans hid, hmembers⟩
  · intro id hid
    obtain rfl : ids[initialState]?.getD 0 = id := by
      rw [← compositeOf?_eq, show d.compositeOf[initialState]? = some id from hid, Option.getD_some]
    rw [hnumbered.indexOf?_eq]
    change d.order.idxOf? _ = some 0
    rw [horder]
    exact idxOf?_indexOrder
  · intro id i hi
    rw [hnumbered.indexOf?_eq] at hi
    have hmem : id ∈ d.order := List.isSome_idxOf?.mp (Option.isSome_of_eq_some hi)
    rw [horder] at hmem
    rcases (mem_order id).mp hmem with rfl | hmem
    · exact exists_members_of_reachedFrom hfound
    · obtain ⟨-, members, hmembers, -⟩ := (mem_reachedFrom hfound).mp hmem
      exact ⟨members, hmembers⟩
  · intro start id members hstart hreach hmembers hne
    rw [hnumbered.indexOf?_eq]
    change (d.order.idxOf? id).isSome
    rw [horder]
    refine List.isSome_idxOf?.mpr ((mem_order id).mpr (.inr ?_))
    refine (mem_reachedFrom hfound).mpr ⟨?_, members, hmembers, hne⟩
    rw [← compositeOf?_eq, show d.compositeOf[initialState]? = some start from hstart,
      Option.getD_some]
    exact hreach

end LexicalState

end ScannerTables
