import ScannerTables.Proofs.Dispatch
/-!
# Depth-first discovery

The composites that a scan can reach are found with a stack of those still to be visited. Here is
the order they come in, without a stack: `Discovers` visits composites one after the other, and
before it goes on to the next, it visits all that follows the one at hand. Composites without
members are passed over.
-/

namespace ScannerTables.LexicalState

/-- Visiting the composites of a list in turn, when those of `seen` were found before, finds others
in some order: each is followed by all that is found by way of its successors. -/
inductive Discovers (s : LexicalState) : List Nat → List Nat → List Nat → Prop
  | done (seen : List Nat) : Discovers s seen [] []
  | pass {seen todo found : List Nat} {id : Nat} (hid : id ∈ seen ∨ s.composites[id]? = some [])
      (rest : Discovers s seen todo found) : Discovers s seen (id :: todo) found
  | next {seen todo below beside members : List Nat} {id : Nat}
      (hid : s.composites[id]? = some members) (hne : members ≠ []) (hnew : id ∉ seen)
      (deeper : Discovers s (id :: seen) (s.successors members) below)
      (rest : Discovers s (below ++ id :: seen) todo beside) :
      Discovers s seen (id :: todo) (id :: (below ++ beside))

namespace Discovers

variable {s : LexicalState} {seen seen' todo todo' found : List Nat}

/-- In which order composites were found before does not matter. -/
theorem congr (h : s.Discovers seen todo found) (hseen : ∀ id, id ∈ seen ↔ id ∈ seen') :
    s.Discovers seen' todo found := by
  induction h generalizing seen' with
  | done => exact .done seen'
  | pass hid _ ih => exact .pass (hid.imp_left (hseen _).mp) (ih hseen)
  | next hid hne hnew _ _ ihdeeper ihrest =>
      refine .next hid hne (fun h => hnew ((hseen _).mpr h)) (ihdeeper ?_) (ihrest ?_)
      · simp [hseen]
      · simp [hseen]

/-- Visiting two lists in turn is visiting the one and then the other. -/
theorem exists_of_append (h : s.Discovers seen (todo ++ todo') found) :
    ∃ first last, found = first ++ last ∧ s.Discovers seen todo first ∧
      s.Discovers (first ++ seen) todo' last := by
  generalize hl : todo ++ todo' = l at h
  induction h generalizing todo with
  | done seen =>
      obtain ⟨rfl, rfl⟩ := List.append_eq_nil_iff.mp hl
      exact ⟨[], [], rfl, .done seen, .done seen⟩
  | @pass seen l found id hid rest ih =>
      cases todo with
      | nil =>
          obtain rfl : todo' = id :: l := hl
          exact ⟨[], found, rfl, .done seen, .pass hid rest⟩
      | cons id' todo =>
          obtain ⟨rfl, htail⟩ := List.cons.inj hl
          obtain ⟨first, last, rfl, hfirst, hlast⟩ := ih htail
          exact ⟨first, last, rfl, .pass hid hfirst, hlast⟩
  | @next seen l below beside members id hid hne hnew deeper rest _ ih =>
      cases todo with
      | nil =>
          obtain rfl : todo' = id :: l := hl
          exact ⟨[], _, rfl, .done seen, .next hid hne hnew deeper rest⟩
      | cons id' todo =>
          obtain ⟨rfl, htail⟩ := List.cons.inj hl
          obtain ⟨first, last, rfl, hfirst, hlast⟩ := ih htail
          refine ⟨id' :: (below ++ first), last, by simp, .next hid hne hnew deeper hfirst, ?_⟩
          apply hlast.congr
          intro v
          simp only [List.mem_append, List.mem_cons]
          tauto

/-- Composites that need not be visited may stand in front. -/
theorem append_left {passed : List Nat}
    (hpassed : ∀ id ∈ passed, id ∈ seen ∨ s.composites[id]? = some [])
    (h : s.Discovers seen todo found) : s.Discovers seen (passed ++ todo) found := by
  induction passed with
  | nil => exact h
  | cons id passed ih =>
      rw [List.forall_mem_cons] at hpassed
      exact .pass hpassed.1 (ih hpassed.2)

/-- A search finds first where it starts, or nothing if there are no members. -/
theorem cases_start {start : Nat} {members : List Nat} (h : s.Discovers [] [start] found)
    (hstart : s.composites[start]? = some members) :
    members = [] ∧ found = [] ∨ members ≠ [] ∧ ∃ rest, found = start :: rest := by
  cases h with
  | pass hpass rest =>
      obtain rfl := Option.some.inj (hstart.symm.trans (hpass.resolve_left List.not_mem_nil))
      cases rest
      exact .inl ⟨rfl, rfl⟩
  | next hid hne =>
      obtain rfl := Option.some.inj (hstart.symm.trans hid)
      exact .inr ⟨hne, _, rfl⟩

/-- What is found depends on the composites on the way alone. -/
theorem keeps {t : LexicalState} (h : s.Discovers seen todo found)
    (hsucc : t.successors = s.successors)
    (hkeep : ∀ (id : Nat) members, s.composites[id]? = some members →
      t.composites[id]? = some members) : t.Discovers seen todo found := by
  induction h with
  | done => exact .done _
  | pass hid _ ih => exact .pass (hid.imp_right (hkeep _ _)) ih
  | next hid hne hnew _ _ ihdeeper ihrest =>
      exact .next (hkeep _ _ hid) hne hnew (hsucc ▸ ihdeeper) ihrest

end Discovers

/-! ### Searching with a stack -/

/-- The marks of a search are those of the composites that were seen before, and of others that have
no members. -/
structure Tracks (s : LexicalState) {size : Nat} (marks : Marks size) (seen : List Nat) : Prop where
  of_marked : ∀ id, marks.isMarked id = true → id ∈ seen ∨ s.composites[id]? = some []
  marked : ∀ id ∈ seen, marks.isMarked id = true

section

variable {s : LexicalState} {g : Graph} {marks : Marks g.size} {seen stack l : List Nat} {n : Nat}

theorem Tracks.none : s.Tracks (.none : Marks g.size) [] :=
  ⟨by simp, by simp⟩

/-- A composite without members is marked, but it is not found. -/
theorem Tracks.mark_empty (h : s.Tracks marks seen) (hn : n < g.size)
    (hempty : s.composites[n]? = some []) : s.Tracks (marks.mark n hn) seen where
  of_marked id hid := by
    rw [Marks.isMarked_mark, Bool.or_eq_true, decide_eq_true_eq] at hid
    rcases hid with rfl | hid
    · exact .inr hempty
    · exact h.of_marked id hid
  marked id hid := by
    rw [Marks.isMarked_mark, h.marked id hid, Bool.or_true]

theorem Tracks.mark (h : s.Tracks marks seen) (hn : n < g.size) :
    s.Tracks (marks.mark n hn) (n :: seen) where
  of_marked id hid := by
    rw [Marks.isMarked_mark, Bool.or_eq_true, decide_eq_true_eq] at hid
    rcases hid with rfl | hid
    · exact .inl List.mem_cons_self
    · exact (h.of_marked id hid).imp_left (List.mem_cons_of_mem n)
  marked id hid := by
    rw [Marks.isMarked_mark, Bool.or_eq_true, decide_eq_true_eq]
    exact (List.mem_cons.mp hid).imp_right (h.marked id)

/-- Where a search continues: at what is not marked, for the rest is found or has no members. -/
theorem Tracks.discovers {found : List Nat} (h : s.Tracks marks seen)
    (hrest : s.Discovers seen (stack.dropWhile marks.isMarked) found) :
    s.Discovers seen stack found := by
  rw [← List.takeWhile_append_dropWhile (p := marks.isMarked) (l := stack)]
  exact hrest.append_left fun id hid => h.of_marked id (List.mem_takeWhile_imp hid)

/-- A search with a stack finds what visiting the stack in turn finds. -/
theorem discovers_of_preorderFrom (hg : ∀ id : Nat, g[id]? = s.composites[id]?.map s.successors)
    (htracks : s.Tracks marks seen) (h : g.preorderFrom marks stack = .ok l) :
    s.Discovers seen stack (l.filter fun id => s.composites[id]?.any (!·.isEmpty)) := by
  fun_induction Graph.preorderFrom g marks stack generalizing l seen with
  | case1 marks stack hs =>
      obtain rfl := Except.ok.inj h
      apply htracks.discovers
      rw [hs]
      exact .done seen
  | case2 marks stack n rest hs hn ih =>
      obtain ⟨l', hl', rfl⟩ := Checked.map_eq_ok.mp h
      apply htracks.discovers
      rw [hs]
      obtain ⟨members, hmembers, hsucc⟩ :=
        Option.map_eq_some_iff.mp ((hg n).symm.trans (Array.getElem?_eq_getElem hn))
      have hnew : n ∉ seen := by
        intro hmem
        have hmark := Graph.isMarked_eq_false_of_dropWhile hs
        exact Bool.false_ne_true (hmark.symm.trans (htracks.marked n hmem))
      by_cases hne : members = []
      · subst hne
        rw [List.filter_cons_of_neg (by simp [hmembers])]
        have hrest := ih (htracks.mark_empty hn hmembers) hl'
        rw [← hsucc] at hrest
        exact .pass (.inr hmembers) hrest
      · rw [List.filter_cons_of_pos (by simp [hmembers, hne])]
        have hrest := ih (htracks.mark hn) hl'
        rw [← hsucc] at hrest
        obtain ⟨below, beside, heq, hbelow, hbeside⟩ := hrest.exists_of_append
        rw [heq]
        exact .next hmembers hne hnew hbelow hbeside
  | case3 => exact absurd h (by simp)

/-- What a scan can reach is found depth first. -/
theorem discovers_of_reachedFrom {start : Nat} {found : List Nat}
    (h : s.reachedFrom start = .ok found) : s.Discovers [] [start] found := by
  obtain ⟨l, hl, heq⟩ := Checked.bind_eq_ok.mp h
  obtain rfl := Except.ok.inj heq
  exact discovers_of_preorderFrom (fun id => Array.getElem?_map ..) .none hl

end

end ScannerTables.LexicalState
