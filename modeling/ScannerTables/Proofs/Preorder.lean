import ScannerTables.Proofs.Safety
/-!
# The recursive preorder

The composites that a scan can reach are found with a stack, on which a composite may stand many
times, and are marked when they are taken from it. `visit` is the recursion that this stands for:
it visits composites in turn, each with all that follows it before the next. Both find the same
composites in the same order, and neither breaks off where the composites name states that exist.
-/

namespace ScannerTables.LexicalState

/-! ### The recursion -/

/-- The number of composites that were not visited yet. -/
def unvisited (s : LexicalState) (seen : List Nat) : Nat :=
  (List.range s.composites.size).countP fun id => id ∉ seen

variable {s : LexicalState} {seen seen' todo found members : List Nat} {id start : Nat}

theorem unvisited_le (h : seen ⊆ seen') : s.unvisited seen' ≤ s.unvisited seen := by
  refine List.countP_mono_left fun id _ hid => ?_
  simp only [decide_eq_true_eq] at hid ⊢
  exact fun hmem => hid (h hmem)

theorem unvisited_cons_lt (hid : id < s.composites.size) (hnew : id ∉ seen) :
    s.unvisited (id :: seen) < s.unvisited seen := by
  refine countP_lt_countP (fun id' hid' => ?_) (List.mem_range.mpr hid) (by simp) (by simpa)
  simp only [decide_eq_true_eq, List.mem_cons, not_or] at hid' ⊢
  exact hid'.2

theorem lt_size_of_any {p : List Nat → Bool} (h : s.composites[id]?.any p = true) :
    id < s.composites.size := by
  obtain ⟨members, hmembers, -⟩ := (Option.any_eq_true p _).mp h
  exact (Array.getElem?_eq_some_iff.mp hmembers).1

/-- Visits composites in turn, when those of `seen` were visited before: a new one that has members,
then all that is found by way of its successors, in the order of the members, and then the rest. -/
def visit (s : LexicalState) (seen : List Nat) : List Nat → List Nat
  | [] => []
  | id :: todo =>
    if id ∉ seen ∧ s.composites[id]?.any (!·.isEmpty) then
      let below := s.visit (id :: seen) (s.successors (s.composites[id]?.getD []))
      id :: (below ++ s.visit (below ++ id :: seen) todo)
    else s.visit seen todo
termination_by todo => (s.unvisited seen, todo.length)
decreasing_by
  · obtain ⟨hnew, hany⟩ := ‹_ ∧ _›
    exact .left _ _ (unvisited_cons_lt (lt_size_of_any hany) hnew)
  · obtain ⟨hnew, hany⟩ := ‹_ ∧ _›
    -- what was found below only adds to what was seen
    have hle : s.unvisited (below ++ id :: seen) ≤ s.unvisited (id :: seen) :=
      unvisited_le (List.subset_append_right ..)
    exact .left _ _ (hle.trans_lt (unvisited_cons_lt (lt_size_of_any hany) hnew))
  · exact .right _ (Nat.lt_succ_self todo.length)

theorem visit_pass (h : id ∈ seen ∨ s.composites[id]? = some []) :
    s.visit seen (id :: todo) = s.visit seen todo := by
  rw [visit, if_neg]
  rintro ⟨hnew, hany⟩
  rw [h.resolve_left hnew] at hany
  exact absurd hany Bool.false_ne_true

theorem visit_next (hid : s.composites[id]? = some members) (hne : members ≠ [])
    (hnew : id ∉ seen) : s.visit seen (id :: todo) =
      id :: (s.visit (id :: seen) (s.successors members) ++
        s.visit (s.visit (id :: seen) (s.successors members) ++ id :: seen) todo) := by
  rw [visit, if_pos ⟨hnew, by simpa [hid] using hne⟩, hid, Option.getD_some]

/-- What is found depth first is what the recursion finds. -/
theorem Discovers.eq_visit (h : s.Discovers seen todo found) : found = s.visit seen todo := by
  induction h with
  | done seen => rw [visit]
  | pass hid _ ih => rw [visit_pass hid, ih]
  | next hid hne hnew _ _ ihdeeper ihrest =>
      rw [visit_next hid hne hnew, ← ihdeeper, ← ihrest]

/-! ### The search with a stack -/

/-- The composites name states that exist. -/
def NamesStates (s : LexicalState) : Prop :=
  ∀ members ∈ s.composites, ∀ m ∈ members, m < s.automaton.size

instance (s : LexicalState) : Decidable s.NamesStates :=
  inferInstanceAs (Decidable (∀ members ∈ s.composites, ∀ m ∈ members, m < s.automaton.size))

/-- A search with a stack ends, and it finds what the recursion finds. -/
theorem Linked.reachedFrom_eq (h : s.Linked) (hstart : start < s.composites.size) :
    s.reachedFrom start = .ok (s.visit [] [start]) := by
  cases hfound : s.reachedFrom start with
  | error e => exact absurd hfound (reachedFrom_ne_error hstart h.composite)
  | ok found => rw [(discovers_of_reachedFrom hfound).eq_visit]

/-- What a search finds can be looked up. -/
theorem Linked.readable (h : s.Linked) (hmembers : s.NamesStates)
    (hfound : s.reachedFrom start = .ok found) : s.Readable found := by
  intro id hid
  obtain ⟨members, hid, -⟩ := ((mem_reachedFrom hfound).mp hid).2
  have hlt := hmembers members (Array.mem_of_getElem? hid)
  exact ⟨members, hid, fun m hm => h.resolves m (hlt m hm)⟩

/-- The search with a stack is the recursive traversal in depth-first preorder. In a lexical state
that is linked and whose composites name states that exist, the search from any composite ends
without misuse, also if each of its look-ups is checked, and it finds what the recursion finds, in
the same order. Whatever was called on a lexical state, it is linked; and once it is processed, its
order of indices is that of what the recursion finds from the composite of the initial state. -/
theorem reachedFrom_eq_visit (s : LexicalState) (hmembers : s.NamesStates) (start : Nat)
    (hstart : start < s.composites.size) :
    (s.Linked → s.checkedReachedFrom start = .ok (s.visit [] [start]) ∧
      s.reachedFrom start = .ok (s.visit [] [start])) ∧
    (s.Called → s.Linked ∧ ∀ d ∈ s.dispatch, ∃ first, s.compositeOf? initialState = some first ∧
      d.order = s.indexOrder first (s.visit [] [first])) := by
  refine ⟨fun h => ?_, fun h => ⟨h.linked, fun d hd => ?_⟩⟩
  · have hfound := h.reachedFrom_eq hstart
    exact ⟨checkedReachedFrom_eq hfound (h.readable hmembers hfound), hfound⟩
  · have hdispatch : s.dispatch ≠ none := by
      rw [Option.mem_def.mp hd]
      exact Option.some_ne_none d
    obtain ⟨first, found, harranged⟩ := h.kept.arranged hdispatch
    refine ⟨first, harranged.start_eq, ?_⟩
    have horder := harranged.order_eq
    rw [Option.mem_def.mp hd, harranged.discovers.eq_visit] at horder
    exact Option.some.inj horder

/-- `("a" | "ba")* "x"`: on a search from composite 3, composites 0 and 6 come back to each other, 6
stands on the stack twice, and composite 1 has no members. -/
theorem reachedFrom_eq_visit_loop : ∃ s : LexicalState, s.Called ∧ s.NamesStates ∧
    (List.range 7).map (fun id => s.successors (s.composites[id]?.getD [])) =
      [[0, 6, 1], [], [1], [0, 6], [0], [6], [0]] ∧
    s.checkedReachedFrom 3 = .ok [3, 0, 6] ∧ s.visit [] [3] = [3, 0, 6] ∧
      ∃ d ∈ s.dispatch, d.order = s.indexOrder 0 (s.visit [] [0]) := by
  obtain ⟨s, hcalled, hmembers, hprocessed, hsize, hstart, hsuccessors, hfound⟩ :
      ∃ s : LexicalState, s.Called ∧ decide s.NamesStates = true ∧ s.isProcessed = true ∧
        s.composites.size = 7 ∧ s.compositeOf? initialState = some 0 ∧
          (List.range 7).map (fun id => s.successors (s.composites[id]?.getD [])) =
            [[0, 6, 1], [], [1], [0, 6], [0], [6], [0]] ∧ s.reachedFrom 3 = .ok [3, 0, 6] := by
    let p : Pattern := .sequence [.zeroOrMore (.choice [.literal "a", .literal "ba"]), .literal "x"]
    let r := TokenRegistry.new.register { pattern := p }
    let s := (new "DEFAULT" true).addProduction { specs := [{ token := 1 }] }
    refine ⟨Checked.final (process r {}) s, ?_, ?_⟩
    · exact ((Called.new "DEFAULT" true).addProduction _).process r {}
    · dsimp only [p, r, s]
      cbv
  have hmembers := of_decide_eq_true hmembers
  obtain ⟨hwalk, hcalls⟩ := reachedFrom_eq_visit s hmembers 3 (by rw [hsize]; decide)
  obtain ⟨hlinked, horder⟩ := hcalls hcalled
  obtain ⟨hchecked, hplain⟩ := hwalk hlinked
  have hvisit : s.visit [] [3] = [3, 0, 6] := (Except.ok.inj (hfound.symm.trans hplain)).symm
  obtain ⟨d, hd⟩ := Option.isSome_iff_exists.mp hprocessed
  obtain ⟨first, hfirst, heq⟩ := horder d hd
  obtain rfl : 0 = first := Option.some.inj (hstart.symm.trans hfirst)
  exact ⟨s, hcalled, hmembers, hsuccessors, hvisit ▸ hchecked, hvisit, d, hd, heq⟩

end ScannerTables.LexicalState
