import ScannerTables.Proofs.Completion
import ScannerTables.Proofs.Discovery
/-!
# The table of composites

Processing lists the composites that a scan can reach and numbers them. `Tabulated` is what this
list is: the composite of state 0 first, then each composite with members that can be reached, those
that complete a token before the others and otherwise as they were discovered. It holds of every
processed lexical state, whatever calls were made on it: `Called` allows for attempts at processing
that failed and for composites that were asked for before or after. `Arranged` is the part that
later calls keep.
-/

namespace ScannerTables.LexicalState

open Relation

/-! ### The list of composites -/

/-- The composites that a scan can reach are listed once each, numbered in their order. -/
structure Tabulated (s : LexicalState) (start : Nat) : Prop where
  start_eq : s.compositeOf? initialState = some start
  head_eq : s.reachable.head?.map (·.id) = some start
  mem_iff : ∀ c, c ∈ s.reachable ↔ s.composite? c.id = some c ∧
    (c.id = start ∨ ReflTransGen s.Follows start c.id ∧ c.members ≠ [])
  distinct : s.reachable.Pairwise fun c c' => c.id ≠ c'.id ∧ c.members ≠ c'.members
  index_eq : ∀ (i : Nat) c, s.reachable[i]? = some c → c.index = some i
  index_eq_none : ∀ id c, s.composite? id = some c → c ∉ s.reachable → c.index = none
  completing_first : s.reachable.tail.Pairwise fun c c' =>
    s.hasFinalMember c'.members = true → s.hasFinalMember c.members = true
  discovery_order : ∃ found, s.Discovers [] [start] found ∧ ∀ completes : Bool,
    s.reachable.tail.filter (s.hasFinalMember ·.members == completes) =
      (found.tail.filterMap s.composite?).filter (s.hasFinalMember ·.members == completes)
  next : ∀ c ∈ s.reachable, ∀ m ∈ c.members, ∃ q c',
    (s.automaton.state? m).bind (·.next) = some q ∧
      (s.compositeOf? q).bind s.composite? = some c' ∧
        (s.nextIndex? m = none ↔ c'.members = []) ∧
          ∀ i, s.nextIndex? m = some i → s.reachable[i]? = some c'

/-- Equal lists of members are one composite. -/
def Interned (composites : Array (List Nat)) : Prop := ∀ (i j : Nat) members,
  composites[i]? = some members → composites[j]? = some members → i = j

/-- The dispatch of a lexical state: which composites its states have and in which order those that
a scan can reach are listed. -/
structure Arranged (s : LexicalState) (start : Nat) (found : List Nat) : Prop where
  interned : Interned s.composites
  composite : ∀ p t, s.automaton.state? p = some t → ∃ id, s.compositeOf? p = some id
  state : ∀ p id, s.compositeOf? p = some id →
    ∃ t, s.automaton.state? p = some t ∧ s.composites[id]? = some t.epsilon
  follower : ∀ p t, s.automaton.state? p = some t → ∀ m ∈ t.epsilon,
    ∃ u q, s.automaton.state? m = some u ∧ u.next = some q ∧ q < s.automaton.size
  start_eq : s.compositeOf? initialState = some start
  discovers : s.Discovers [] [start] found
  mem_found : ∀ id, id ∈ found ↔ ReflTransGen s.Follows start id ∧
    ∃ members, s.composites[id]? = some members ∧ members ≠ []
  nodup_found : found.Nodup
  order_eq : s.dispatch.map (·.order) = some (s.indexOrder start found)
  numbered : s.Numbered

variable {s s' t : LexicalState} {start id i : Nat} {found : List Nat} {c : Composite}

theorem composite?_eq_some : s.composite? id = some c ↔
    s.composites[id]? = some c.members ∧ c.id = id ∧ c.index = s.indexOf? id := by
  rw [composite?, Option.map_eq_some_iff]
  constructor
  · rintro ⟨members, hmembers, rfl⟩
    exact ⟨hmembers, rfl, rfl⟩
  · rintro ⟨hmembers, rfl, hindex⟩
    exact ⟨c.members, hmembers, by rw [← hindex]⟩

theorem not_follows_of_empty {id' : Nat} (h : s.composites[id]? = some []) :
    ¬ s.Follows id id' := by
  rintro ⟨members, hmembers, hmem⟩
  obtain rfl := Option.some.inj (h.symm.trans hmembers)
  exact absurd hmem List.not_mem_nil

namespace Arranged

/-- What is reached is the composite of some state. -/
theorem exists_state (h : s.Arranged start found) (hreach : ReflTransGen s.Follows start id) :
    ∃ p t, s.automaton.state? p = some t ∧ s.composites[id]? = some t.epsilon := by
  have composite_of : ∃ p, s.compositeOf? p = some id := by
    cases hreach with
    | refl => exact ⟨_, h.start_eq⟩
    | tail _ hfollows =>
        obtain ⟨members, -, hmem⟩ := hfollows
        obtain ⟨m, -, hm⟩ := List.mem_filterMap.mp hmem
        obtain ⟨q, -, hq⟩ := Option.bind_eq_some_iff.mp hm
        exact ⟨q, hq⟩
  obtain ⟨p, hp⟩ := composite_of
  obtain ⟨t, ht, hmembers⟩ := h.state p id hp
  exact ⟨p, t, ht, hmembers⟩

/-- The composites as they are listed: those that complete a token are taken to the front. -/
theorem indexOrder_eq (h : s.Arranged start found) : s.indexOrder start found =
    start :: (found.tail.filter s.completes ++ found.tail.filter (!s.completes ·)) := by
  obtain ⟨t, -, hmembers⟩ := h.state _ _ h.start_eq
  rw [indexOrder_eq_filter]
  rcases h.discovers.cases_start hmembers with ⟨-, rfl⟩ | ⟨-, rest, rfl⟩
  · simp
  · simp

theorem mem_order (h : s.Arranged start found) :
    id ∈ s.indexOrder start found ↔ id = start ∨ id ∈ found := by
  obtain ⟨t, -, hmembers⟩ := h.state _ _ h.start_eq
  rw [h.indexOrder_eq, List.mem_cons, List.mem_append, List.mem_filter, List.mem_filter]
  have htail : id = start ∨ id ∈ found.tail ↔ id = start ∨ id ∈ found := by
    rcases h.discovers.cases_start hmembers with ⟨-, rfl⟩ | ⟨-, rest, rfl⟩ <;> simp
  rw [← htail]
  cases s.completes id <;> simp

theorem nodup_order (h : s.Arranged start found) : (s.indexOrder start found).Nodup := by
  obtain ⟨t, -, hmembers⟩ := h.state _ _ h.start_eq
  have hnodup : (start :: found.tail).Nodup := by
    rcases h.discovers.cases_start hmembers with ⟨-, rfl⟩ | ⟨-, rest, rfl⟩
    · exact List.nodup_singleton start
    · exact h.nodup_found
  rw [h.indexOrder_eq]
  exact ((List.filter_append_perm _ found.tail).cons start).nodup_iff.mpr hnodup

theorem indexOf?_eq (h : s.Arranged start found) :
    s.indexOf? id = (s.indexOrder start found).idxOf? id := by
  rw [h.numbered.indexOf?_eq, order, h.order_eq, Option.getD_some]

theorem indexOf?_eq_none_iff (h : s.Arranged start found) :
    s.indexOf? id = none ↔ id ≠ start ∧ id ∉ found := by
  rw [h.indexOf?_eq, List.idxOf?_eq_none_iff, h.mem_order, not_or]

theorem getElem?_order_iff (h : s.Arranged start found) :
    (s.indexOrder start found)[i]? = some id ↔ s.indexOf? id = some i := by
  rw [h.indexOf?_eq, List.idxOf?_eq_some_iff, List.getElem?_eq_some_iff]
  constructor
  · rintro ⟨hi, rfl⟩
    refine ⟨hi, rfl, fun j hj heq => ?_⟩
    exact absurd (h.nodup_order.getElem_inj_iff.mp heq) (Nat.ne_of_lt hj)
  · rintro ⟨hi, heq, -⟩
    exact ⟨hi, heq⟩

theorem reachable_eq (h : s.Arranged start found) :
    s.reachable = (s.indexOrder start found).filterMap s.composite? := by
  obtain ⟨d, hd, horder⟩ := Option.map_eq_some_iff.mp h.order_eq
  rw [reachable, hd, Option.map_some, Option.getD_some, horder]

theorem exists_composite? (h : s.Arranged start found) (hid : id ∈ s.indexOrder start found) :
    ∃ c, s.composite? id = some c := by
  have hmembers : ∃ members, s.composites[id]? = some members := by
    rcases h.mem_order.mp hid with rfl | hid
    · obtain ⟨t, -, hmembers⟩ := h.state _ _ h.start_eq
      exact ⟨_, hmembers⟩
    · obtain ⟨-, members, hmembers, -⟩ := (h.mem_found id).mp hid
      exact ⟨members, hmembers⟩
  obtain ⟨members, hmembers⟩ := hmembers
  exact ⟨⟨id, s.indexOf? id, members⟩, composite?_eq_some.mpr ⟨hmembers, rfl, rfl⟩⟩

theorem mem_reachable (h : s.Arranged start found) :
    c ∈ s.reachable ↔ c.id ∈ s.indexOrder start found ∧ s.composite? c.id = some c := by
  rw [h.reachable_eq, List.mem_filterMap]
  constructor
  · rintro ⟨id, hid, hc⟩
    obtain ⟨-, rfl, -⟩ := composite?_eq_some.mp hc
    exact ⟨hid, hc⟩
  · rintro ⟨hid, hc⟩
    exact ⟨c.id, hid, hc⟩

theorem getElem?_reachable (h : s.Arranged start found) :
    s.reachable[i]? = some c ↔ s.indexOf? c.id = some i ∧ s.composite? c.id = some c := by
  have hall : ∀ id ∈ s.indexOrder start found, s.composite? id =
      some ⟨id, s.indexOf? id, s.composites[id]?.getD []⟩ := by
    intro id hid
    obtain ⟨c, hc⟩ := h.exists_composite? hid
    obtain ⟨hmembers, -, -⟩ := composite?_eq_some.mp hc
    rw [composite?, hmembers]
    rfl
  rw [h.reachable_eq, List.filterMap_congr hall, List.filterMap_eq_map', List.getElem?_map,
    Option.map_eq_some_iff, ← h.getElem?_order_iff]
  constructor
  · rintro ⟨id, hid, rfl⟩
    exact ⟨hid, hall id (List.mem_of_getElem? hid)⟩
  · rintro ⟨hid, hc⟩
    exact ⟨c.id, hid, Option.some.inj ((hall _ (List.mem_of_getElem? hid)).symm.trans hc)⟩

/-! ### The table -/

theorem reachable_tail_eq (h : s.Arranged start found) : s.reachable.tail =
    (found.tail.filterMap s.composite?).filter (s.hasFinalMember ·.members) ++
      (found.tail.filterMap s.composite?).filter (!s.hasFinalMember ·.members) := by
  obtain ⟨c, hc⟩ := h.exists_composite? (h.mem_order.mpr (.inl rfl))
  have hfilter : ∀ p : Bool → Bool,
      (found.tail.filter fun id => p (s.completes id)).filterMap s.composite? =
      (found.tail.filterMap s.composite?).filter fun c => p (s.hasFinalMember c.members) := by
    intro p
    rw [List.filterMap_filter, List.filter_filterMap]
    apply List.filterMap_congr
    intro id _
    cases hc : s.composite? id with
    | none => simp
    | some c =>
        obtain ⟨hmembers, -, -⟩ := composite?_eq_some.mp hc
        rw [completes, hmembers, Option.any_some, Option.filter_some]
  rw [h.reachable_eq, h.indexOrder_eq, List.filterMap_cons_some hc, List.tail_cons,
    List.filterMap_append]
  exact congrArg₂ (· ++ ·) (hfilter fun completes => completes)
    (hfilter fun completes => !completes)

theorem completing_first (h : s.Arranged start found) :
    s.reachable.tail.Pairwise fun c c' =>
      s.hasFinalMember c'.members = true → s.hasFinalMember c.members = true := by
  rw [h.reachable_tail_eq, List.pairwise_append]
  refine ⟨?_, ?_, ?_⟩
  · exact List.pairwise_of_forall_mem_list fun c hc _ _ _ => (List.mem_filter.mp hc).2
  · refine List.pairwise_of_forall_mem_list fun _ _ c' hc' hfinal => ?_
    simpa [hfinal] using (List.mem_filter.mp hc').2
  · exact fun c hc _ _ _ => (List.mem_filter.mp hc).2

theorem reaches (h : s.Arranged start found) (hc : c ∈ s.reachable) :
    ReflTransGen s.Follows start c.id := by
  rcases h.mem_order.mp (h.mem_reachable.mp hc).1 with heq | hfound
  · rw [heq]
  · exact ((h.mem_found _).mp hfound).1

/-- Behind a member there is a state, and its composite follows. -/
theorem exists_follower (h : s.Arranged start found) (hc : c ∈ s.reachable) {m : Nat}
    (hm : m ∈ c.members) : ∃ q id members, (s.automaton.state? m).bind (·.next) = some q ∧
      s.compositeOf? q = some id ∧ s.composites[id]? = some members ∧ s.Follows c.id id := by
  obtain ⟨hmembers, -, -⟩ := composite?_eq_some.mp (h.mem_reachable.mp hc).2
  obtain ⟨p, t, ht, hepsilon⟩ := h.exists_state (h.reaches hc)
  obtain heq : c.members = t.epsilon := Option.some.inj (hmembers.symm.trans hepsilon)
  obtain ⟨u, q, hu, hq, hlt⟩ := h.follower p t ht m (heq ▸ hm)
  obtain ⟨v, hv⟩ := Automaton.exists_state? hlt
  obtain ⟨id, hid⟩ := h.composite q v hv
  obtain ⟨t', -, hmembers'⟩ := h.state q id hid
  refine ⟨q, id, t'.epsilon, by rw [hu, Option.bind_some, hq], hid, hmembers', c.members, hmembers,
    List.mem_filterMap.mpr ⟨m, hm, ?_⟩⟩
  rw [hu, Option.bind_some, hq, Option.bind_some, hid]

/-- What follows a composite that is reached has an index unless it has no members. -/
theorem indexOf?_eq_none_iff_of_follows (h : s.Arranged start found)
    (hreach : ReflTransGen s.Follows start id) {id' : Nat} (hfollows : s.Follows id id')
    {members : List Nat} (hmembers : s.composites[id']? = some members) :
    s.indexOf? id' = none ↔ members = [] := by
  rw [h.indexOf?_eq_none_iff]
  constructor
  · rintro ⟨-, hfound⟩
    by_contra hne
    exact hfound ((h.mem_found id').mpr ⟨hreach.tail hfollows, members, hmembers, hne⟩)
  · rintro rfl
    refine ⟨?_, fun hfound => ?_⟩
    · -- nothing follows the first composite if that has no members, so `id` would not be reached
      rintro rfl
      rcases ReflTransGen.cases_head hreach with rfl | ⟨_, hfirst, -⟩
      · exact not_follows_of_empty hmembers hfollows
      · exact not_follows_of_empty hmembers hfirst
    · obtain ⟨-, members, hmembers', hne⟩ := (h.mem_found id').mp hfound
      exact hne (Option.some.inj (hmembers'.symm.trans hmembers))

/-- A member leads to a composite, which has an index unless it has no members. -/
theorem next (h : s.Arranged start found) (hc : c ∈ s.reachable) {m : Nat} (hm : m ∈ c.members) :
    ∃ q c', (s.automaton.state? m).bind (·.next) = some q ∧
      (s.compositeOf? q).bind s.composite? = some c' ∧
        (s.nextIndex? m = none ↔ c'.members = []) ∧
          ∀ i, s.nextIndex? m = some i → s.reachable[i]? = some c' := by
  obtain ⟨q, id, members, hq, hid, hmembers, hfollows⟩ := h.exists_follower hc hm
  have hnext : s.nextIndex? m = s.indexOf? id := by
    rw [nextIndex?, hq, Option.bind_some, hid, Option.bind_some]
  have hc' : s.composite? id = some ⟨id, s.indexOf? id, members⟩ :=
    composite?_eq_some.mpr ⟨hmembers, rfl, rfl⟩
  refine ⟨q, _, hq, by rw [hid, Option.bind_some, hc'], ?_, ?_⟩
  · rw [hnext]
    exact h.indexOf?_eq_none_iff_of_follows (h.reaches hc) hfollows hmembers
  · intro i hi
    exact h.getElem?_reachable.mpr ⟨hnext ▸ hi, hc'⟩

theorem tabulated (h : s.Arranged start found) : s.Tabulated start where
  start_eq := h.start_eq
  head_eq := by
    obtain ⟨c, hc⟩ := h.exists_composite? (h.mem_order.mpr (.inl rfl))
    rw [h.reachable_eq, h.indexOrder_eq, List.filterMap_cons_some hc, List.head?_cons,
      Option.map_some, (composite?_eq_some.mp hc).2.1]
  mem_iff c := by
    rw [h.mem_reachable, h.mem_order, h.mem_found, and_comm]
    refine and_congr_right fun hc => or_congr_right (and_congr_right fun _ => ?_)
    obtain ⟨hmembers, -, -⟩ := composite?_eq_some.mp hc
    simp [hmembers]
  distinct := by
    rw [h.reachable_eq, List.pairwise_filterMap]
    apply h.nodup_order.imp
    intro id id' hne c hc c' hc'
    obtain ⟨hmembers, rfl, -⟩ := composite?_eq_some.mp hc
    obtain ⟨hmembers', rfl, -⟩ := composite?_eq_some.mp hc'
    exact ⟨hne, fun heq => hne (h.interned _ _ _ hmembers (heq ▸ hmembers'))⟩
  index_eq i c hi := by
    obtain ⟨hindex, hc⟩ := h.getElem?_reachable.mp hi
    rw [(composite?_eq_some.mp hc).2.2, hindex]
  index_eq_none id c hc hmem := by
    obtain ⟨-, rfl, hindex⟩ := composite?_eq_some.mp hc
    rw [hindex, h.indexOf?_eq_none_iff, ← not_or, ← h.mem_order]
    exact fun hid => hmem (h.mem_reachable.mpr ⟨hid, hc⟩)
  completing_first := h.completing_first
  discovery_order := by
    refine ⟨found, h.discovers, ?_⟩
    rintro (_ | _) <;> simp [h.reachable_tail_eq, List.filter_filter]
  next _ hc _ hm := h.next hc hm

end Arranged

/-! ### Interning -/

section

variable {composites : Array (List Nat)}

theorem interned_intern (h : Interned composites) (members : List Nat) :
    Interned (intern composites members).2 := by
  rw [intern]
  split
  · exact h
  · next hnone =>
    have hnew : ∀ i : Nat, composites[i]? ≠ some members := by
      intro i hi
      obtain ⟨hlt, heq⟩ := Array.getElem?_eq_some_iff.mp hi
      have := Array.findIdx?_eq_none_iff.mp hnone _ (Array.getElem_mem hlt)
      simp [heq] at this
    intro i j l hi hj
    dsimp only at hi hj
    rw [Array.getElem?_push] at hi hj
    split at hi <;> split at hj
    · omega
    · obtain rfl := Option.some.inj hi
      exact absurd hj (hnew j)
    · obtain rfl := Option.some.inj hj
      exact absurd hi (hnew i)
    · exact h i j l hi hj

theorem interned_internAll (h : Interned composites) (lists : List (List Nat)) :
    Interned (internAll composites lists).2 := by
  induction lists generalizing composites with
  | nil => exact h
  | cons l lists ih => exact ih (interned_intern h l)

end

/-! ### Processing arranges -/

theorem compositeOf?_congr (hdispatch : s'.dispatch = s.dispatch) :
    s'.compositeOf? = s.compositeOf? := by
  funext p
  rw [compositeOf?, compositeOf?, hdispatch]

/-- The composites that follow depend on the automaton and on the dispatch alone. -/
theorem successors_congr (hautomaton : s'.automaton = s.automaton)
    (hdispatch : s'.dispatch = s.dispatch) : s'.successors = s.successors := by
  funext members
  rw [successors, successors, hautomaton, compositeOf?_congr hdispatch]

namespace Arranged

/-- More composites lead nowhere else. -/
theorem reflTransGen_follows_iff (h : s.Arranged start found) (hsucc : s'.successors = s.successors)
    (hkeep : ∀ (id : Nat) members, s.composites[id]? = some members →
      s'.composites[id]? = some members) :
    ReflTransGen s'.Follows start id ↔ ReflTransGen s.Follows start id := by
  constructor
  · intro hid
    induction hid with
    | refl => exact .refl
    | tail _ hfollows ih =>
        obtain ⟨-, t, -, hepsilon⟩ := h.exists_state ih
        obtain ⟨members, hmembers, hmem⟩ := hfollows
        obtain rfl := Option.some.inj ((hkeep _ _ hepsilon).symm.trans hmembers)
        exact ih.tail ⟨_, hepsilon, hsucc ▸ hmem⟩
  · refine ReflTransGen.mono ?_ _ _
    rintro id id' ⟨members, hmembers, hmem⟩
    exact ⟨members, hkeep _ _ hmembers, hsucc ▸ hmem⟩

theorem indexOrder_congr (h : s.Arranged start found) (hautomaton : s'.automaton = s.automaton)
    (hkeep : ∀ (id : Nat) members, s.composites[id]? = some members →
      s'.composites[id]? = some members) :
    s'.indexOrder start found = s.indexOrder start found := by
  have hfinal : s'.hasFinalMember = s.hasFinalMember := by
    funext members
    rw [hasFinalMember, hasFinalMember, hautomaton]
  have hany : ∀ id ∈ found.drop 1, s'.completes id = s.completes id := by
    intro id hid
    obtain ⟨-, members, hmembers, -⟩ := (h.mem_found id).mp (List.mem_of_mem_drop hid)
    rw [completes, completes, hmembers, hkeep _ _ hmembers, hfinal]
  rw [indexOrder_eq_filter, indexOrder_eq_filter, List.filter_congr hany,
    List.filter_congr fun id hid => congrArg (!·) (hany id hid)]

/-- More composites and more declarations change nothing of what is listed. -/
theorem keeps (h : s.Arranged start found) (hautomaton : s'.automaton = s.automaton)
    (hdispatch : s'.dispatch = s.dispatch) (hname : s'.name = s.name)
    (hdefault : s'.isDefault = s.isDefault) (hinterned : Interned s'.composites)
    (hkeep : ∀ (id : Nat) members, s.composites[id]? = some members →
      s'.composites[id]? = some members) : s'.Arranged start found := by
  have hcomposite := compositeOf?_congr hdispatch
  have hsucc := successors_congr hautomaton hdispatch
  refine ⟨hinterned, ?_, ?_, ?_, hcomposite ▸ h.start_eq, h.discovers.keeps hsucc hkeep, ?_,
    h.nodup_found, ?_, h.numbered.of_eq hdispatch hname hdefault⟩
  · rw [hautomaton, hcomposite]
    exact h.composite
  · intro p id hid
    obtain ⟨t, ht, hmembers⟩ := h.state p id (hcomposite ▸ hid)
    exact ⟨t, hautomaton ▸ ht, hkeep _ _ hmembers⟩
  · rw [hautomaton]
    exact h.follower
  · intro id
    rw [h.mem_found, h.reflTransGen_follows_iff hsucc hkeep]
    refine and_congr_right fun hid => ?_
    obtain ⟨-, t, -, hepsilon⟩ := h.exists_state hid
    rw [hepsilon, hkeep _ _ hepsilon]
  · rw [hdispatch, h.order_eq, h.indexOrder_congr hautomaton hkeep]

end Arranged

/-- The members of a closed state match: behind each of them there is a state. -/
theorem Generates.follower {L : Nat → List Nat → Prop} (hgen : s.Generates s')
    (ha : s.automaton.Assembled L) {p m : Nat} {t : State} (ht : s'.automaton.state? p = some t)
    (hm : m ∈ t.epsilon) : ∃ u q, s'.automaton.state? m = some u ∧ u.next = some q ∧
      q < s'.automaton.size := by
  obtain ⟨-, u, hu, hranges⟩ := (hgen.mem_epsilon_iff ht).mp hm
  obtain ⟨token, placed, -⟩ := ha.placed m u (ha.pos_of_ranges hu hranges) hu
  obtain ⟨q, hq⟩ := Option.isSome_iff_exists.mp (placed.matcher hranges)
  obtain ⟨u', hu', hclose⟩ := hgen.closes.exists_state hu
  refine ⟨u', q, hu', hclose.next_eq.trans hq, ?_⟩
  rw [hgen.closes.size_eq]
  exact (ha.lt_of_targets hu (.inr hq)).2

/-- Generating the dispatch of an automaton that tokens were built into arranges the composites. -/
theorem arranged_of_generate {L : Nat → List Nat → Prop} (ha : s.automaton.Assembled L)
    (hinterned : Interned s.composites) (h : s.generate = .ok s') :
    ∃ start found, s'.Arranged start found := by
  have hgen := generates_of_generate h
  obtain ⟨t₀, ht₀⟩ := Automaton.exists_state? (hgen.closes.size_eq ▸ ha.size_pos)
  obtain ⟨start, hstart, -⟩ := hgen.composite _ _ ht₀
  obtain ⟨automaton, ids, composites, d, found, -, hintern, heq, hcompositeOf, hfound, horder, -⟩ :=
    exists_of_generate h
  have hids := (internAll_eq s.composites (automaton.states.toList.map (·.epsilon))).1
  have hinterned' := interned_internAll hinterned (automaton.states.toList.map (·.epsilon))
  rw [hintern] at hids hinterned'
  have hids' := List.forall₂_map_right_iff.mp hids
  subst heq
  have compositeOf?_eq : ∀ p : Nat, d.compositeOf[p]? = ids[p]? := by
    intro p
    rw [hcompositeOf, List.getElem?_toArray]
  have hstart' : ids[initialState]?.getD 0 = start := by
    rw [← compositeOf?_eq, show d.compositeOf[initialState]? = some start from hstart,
      Option.getD_some]
  rw [hstart'] at hfound horder
  obtain ⟨l, hl, hl'⟩ := Checked.bind_eq_ok.mp hfound
  obtain rfl := Except.ok.inj hl'
  refine ⟨start, _, hinterned', ?_, ?_, fun p t ht m => hgen.follower ha ht, hstart,
    discovers_of_reachedFrom hfound, fun id => mem_reachedFrom hfound,
    (Graph.nodup_preorder hl).filter _, congrArg some horder, hgen.numbered⟩
  · intro p t ht
    obtain ⟨id, hid, -⟩ := hgen.composite p t ht
    exact ⟨id, hid⟩
  · intro p id hid
    obtain ⟨hp, rfl⟩ := List.getElem?_eq_some_iff.mp ((compositeOf?_eq p).symm.trans hid)
    have hlt : p < automaton.states.toList.length := hids'.length_eq ▸ hp
    refine ⟨automaton.states.toList[p], ?_, hids'.get hp hlt⟩
    rw [Automaton.state?, ← Array.getElem?_toList]
    exact List.getElem?_eq_getElem hlt

/-! ### Whatever was called before -/

/-- Lexical states as calls leave them: declared, asked for composites and processed in any order,
where processing may have failed. -/
inductive Called : LexicalState → Prop
  | new (name : String) (isDefault : Bool) : Called (new name isDefault)
  | addProduction {s : LexicalState} (h : Called s) (p : TokenProduction) :
      Called (s.addProduction p)
  | addImplicitLiteral {s : LexicalState} (h : Called s) (token : Nat) :
      Called (s.addImplicitLiteral token)
  | claimLiteral {s : LexicalState} (h : Called s) (image : String) (token : Nat)
      (ignoreCase : Bool) : Called (s.claimLiteral image token ignoreCase).2
  | canonical {s : LexicalState} (h : Called s) (members : List Nat) :
      Called (s.canonical members).2
  | process {s : LexicalState} (h : Called s) (r : TokenRegistry) (config : Config) :
      Called (Checked.final (process r config) s)

/-- What calls keep: attempts that failed leave an automaton that tokens were built into, and a
success arranges the composites. -/
structure Kept (s : LexicalState) : Prop where
  interned : Interned s.composites
  assembled : s.dispatch = none → ∃ L, s.automaton.Assembled L
  arranged : s.dispatch ≠ none → ∃ start found, s.Arranged start found

namespace Kept

theorem of_eq (h : s.Kept) (hautomaton : s'.automaton = s.automaton)
    (hdispatch : s'.dispatch = s.dispatch) (hname : s'.name = s.name)
    (hdefault : s'.isDefault = s.isDefault) (hinterned : Interned s'.composites)
    (hkeep : ∀ (id : Nat) members, s.composites[id]? = some members →
      s'.composites[id]? = some members) : s'.Kept where
  interned := hinterned
  assembled hnone := hautomaton ▸ h.assembled (hdispatch ▸ hnone)
  arranged hne := by
    obtain ⟨start, found, harranged⟩ := h.arranged (hdispatch ▸ hne)
    exact ⟨start, found, harranged.keeps hautomaton hdispatch hname hdefault hinterned hkeep⟩

/-- Without a dispatch there are no numbers, and an arranged one has those of its lists. -/
theorem numbered (h : s.Kept) : s.Numbered := by
  by_cases hs : s.dispatch = none
  · exact numbered_of_dispatch hs
  · obtain ⟨start, found, harranged⟩ := h.arranged hs
    exact harranged.numbered

/-- A call of processing does nothing, breaks off and leaves what it built, or goes on from there to
generate the dispatch. -/
theorem process_cases (h : s.Kept) (r : TokenRegistry) (config : Config) :
    s.isProcessed = true ∧ Checked.final (LexicalState.process r config) s = s ∨
    s.isProcessed = false ∧ ∃ u, (∃ automaton built transitions,
      u = { s with automaton, built, transitions }) ∧ (∃ L, u.automaton.Assembled L) ∧
        (Checked.final (LexicalState.process r config) s = u ∨
          u.reported.generate = .ok (Checked.final (LexicalState.process r config) s)) := by
  by_cases hs : s.isProcessed = true
  · exact .inl ⟨hs, Checked.final_eq_of_eq_ok (process_eq_self hs)⟩
  · have hdispatch : s.dispatch = none := Option.not_isSome_iff_eq_none.mp hs
    obtain ⟨L, hL⟩ := h.assembled hdispatch
    obtain ⟨done, u, hattempt, hcases⟩ := LexicalState.process_cases r config hdispatch hL
    refine .inr ⟨Bool.eq_false_iff.mpr hs, u, hattempt.rest, ⟨_, hattempt.assembled L hL⟩, ?_⟩
    cases hcases with
    | inl hfailed =>
        obtain ⟨⟨e, herror⟩, -⟩ := hfailed
        exact .inl (by rw [Checked.final, herror])
    | inr hprocessed =>
        obtain ⟨-, s', hgen, hok⟩ := hprocessed
        exact .inr (by rwa [Checked.final_eq_of_eq_ok hok])

theorem process (h : s.Kept) (r : TokenRegistry) (config : Config) :
    (Checked.final (LexicalState.process r config) s).Kept := by
  obtain ⟨-, heq⟩ | ⟨hnot, u, hrest, ⟨L, hL⟩, heq | hgen⟩ := h.process_cases r config
  · exact heq.symm ▸ h
  · have hdispatch : s.dispatch = none := by simpa [isProcessed] using hnot
    obtain ⟨_, _, _, rfl⟩ := hrest
    rw [heq]
    exact ⟨h.interned, fun _ => ⟨L, hL⟩, fun hne => absurd hdispatch hne⟩
  · have hinterned : Interned u.reported.composites := by
      obtain ⟨_, _, _, rfl⟩ := hrest
      exact h.interned
    obtain ⟨start, found, harranged⟩ := arranged_of_generate (s := u.reported) hL hinterned hgen
    have hsome : (Checked.final (LexicalState.process r config) s).dispatch ≠ none := by
      obtain ⟨_, _, _, heq⟩ := exists_eq_of_generate hgen
      rw [heq]
      exact Option.some_ne_none _
    exact ⟨harranged.interned, fun hnone => absurd hnone hsome,
      fun _ => ⟨start, found, harranged⟩⟩

end Kept

theorem Called.kept (h : s.Called) : s.Kept := by
  induction h with
  | new name isDefault =>
      refine ⟨fun i j members hi => absurd hi (by simp [LexicalState.new]),
        fun _ => ⟨_, .new⟩, fun hne => absurd rfl hne⟩
  | addProduction _ p ih => exact ih.of_eq rfl rfl rfl rfl ih.interned fun _ _ => id
  | @addImplicitLiteral s _ token ih =>
      obtain ⟨tokens, heq⟩ := s.addImplicitLiteral_eq token
      exact heq ▸ ih.of_eq rfl rfl rfl rfl ih.interned fun _ _ => id
  | @claimLiteral s _ image token ignoreCase ih =>
      obtain ⟨exact, folded, heq⟩ := s.claimLiteral_eq image token ignoreCase
      exact heq ▸ ih.of_eq rfl rfl rfl rfl ih.interned fun _ _ => id
  | @canonical s _ members ih =>
      exact ih.of_eq rfl rfl rfl rfl (interned_intern ih.interned members) (intern_eq _ members).2
  | process _ r config ih => exact ih.process r config

/-- The dispatch of a processed lexical state was generated, with its automaton, from one that
tokens were built into. -/
theorem Called.generated (h : s.Called) (hs : s.isProcessed = true) :
    ∃ u s' : LexicalState, (∃ L, u.automaton.Assembled L) ∧ u.generate = .ok s' ∧
      s'.automaton = s.automaton ∧ s'.dispatch = s.dispatch := by
  induction h with
  | new name isDefault => exact absurd hs Bool.false_ne_true
  | addProduction _ p ih => exact ih hs
  | @addImplicitLiteral s _ token ih =>
      obtain ⟨tokens, heq⟩ := s.addImplicitLiteral_eq token
      rw [heq] at hs ⊢
      exact ih hs
  | @claimLiteral s _ image token ignoreCase ih =>
      obtain ⟨exact, folded, heq⟩ := s.claimLiteral_eq image token ignoreCase
      rw [heq] at hs ⊢
      exact ih hs
  | canonical _ members ih => exact ih hs
  | @process s h r config ih =>
      obtain ⟨-, heq⟩ | ⟨hnot, u, hrest, hu, heq | hgen⟩ := h.kept.process_cases r config
      · rw [heq] at hs ⊢
        exact ih hs
      · obtain ⟨_, _, _, rfl⟩ := hrest
        rw [heq] at hs
        exact absurd (hnot.symm.trans hs) Bool.false_ne_true
      · exact ⟨u.reported, _, hu, hgen, rfl, rfl⟩

/-- The composites of a processed lexical state are tabulated: those that a scan can reach are
listed once each under their indices, the one of state 0 first, then those that complete a token
before those that do not, each in the order of discovery; and the index behind a member is the place
of the composite that follows it, or nothing where that has no members. -/
theorem exists_tabulated (s : LexicalState) (hs : s.Called) (hprocessed : s.isProcessed = true) :
    ∃ start, s.Tabulated start := by
  obtain ⟨start, found, h⟩ := hs.kept.arranged (Option.isSome_iff_ne_none.mp hprocessed)
  exact ⟨start, h.tabulated⟩

/-- `xyz` and `(ab)+`, where the label of `a` is missing at first: what the failed attempt left is
found too, and the composites that complete a token come right behind the first. -/
theorem exists_tabulated_after_failure : ∃ (s : LexicalState) (start : Nat), s.Called ∧
    s.isProcessed = true ∧ s.Tabulated start ∧
      s.reachable.map (fun c => (c.members, s.hasFinalMember c.members)) =
        [([1, 9, 17], false), ([3], true), ([11], true), ([19], true), ([2], false), ([10], false),
          ([17], false)] := by
  let r := (TokenRegistry.new.register { pattern := .literal "xyz" }).register
    { pattern := .oneOrMore (.sequence [.reference "A", .literal "b"]) }
  let s := (new "DEFAULT" true).addProduction { specs := [{ token := 1 }, { token := 2 }] }
  let failed := Checked.final (process r {}) s
  let r' := r.register { label := some "A", pattern := .literal "a" }
  have hcalled : (Checked.final (process r' {}) failed).Called :=
    (((Called.new "DEFAULT" true).addProduction _).process r {}).process r' {}
  have hprocessed : (Checked.final (process r' {}) failed).isProcessed = true := by
    dsimp only [failed, r', r, s]
    cbv
  obtain ⟨start, h⟩ := exists_tabulated _ hcalled hprocessed
  refine ⟨_, start, hcalled, hprocessed, h, ?_⟩
  dsimp only [failed, r', r, s]
  cbv

end ScannerTables.LexicalState
