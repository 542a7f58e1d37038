import ScannerTables.Proofs.Placement
/-!
# One composite for each list of members

Composites are looked up in a memo, which is extended together with the store. `Memoized` keeps both
as they are updated, and a memo that is `Consistent` answers as a search of the store does, so that
searching the store stands for it. A lexical state can be asked for composites at any time, before
and after attempts at processing. What it was asked for takes up places in the store and shows in
nothing else: the lexical state stays `Alike` to one that was not asked.
-/

namespace ScannerTables.LexicalState

open Checked

/-! ### The store and its memo -/

/-- The members of every composite, with a memo of the places of all lists. -/
structure Memoized where
  composites : Array (List Nat) := #[]
  memo : List (List Nat × Nat) := []

namespace Memoized

/-- The place of a composite with the given members: from the memo, or a new one, which is added to
the store and to the memo. -/
def canonical (m : Memoized) (members : List Nat) : Nat × Memoized :=
  match m.memo.lookup members with
  | some id => (id, m)
  | none => (m.composites.size,
      { composites := m.composites.push members
        memo := (members, m.composites.size) :: m.memo })

/-- The store and the memo once all composites of a list were asked for. -/
def canonicalAll (m : Memoized) (lists : List (List Nat)) : Memoized :=
  lists.foldl (fun m members => (m.canonical members).2) m

/-- A list is in the memo with a place exactly if it is stored there. -/
def Consistent (m : Memoized) : Prop :=
  ∀ members id, m.memo.lookup members = some id ↔ m.composites[id]? = some members

end Memoized

section

variable {composites : Array (List Nat)} {members : List Nat} {id : Nat}

/-- A list that is stored is found again. -/
theorem intern_of_getElem? (h : Interned composites) (hid : composites[id]? = some members) :
    intern composites members = (id, composites) := by
  have hfound := (intern_eq composites members).1
  rw [intern] at hfound ⊢
  split
  · next id' hid' =>
    rw [hid'] at hfound
    rw [h id' id members hfound hid]
  · next hnone =>
    obtain ⟨hlt, rfl⟩ := Array.getElem?_eq_some_iff.mp hid
    have hne := Array.findIdx?_eq_none_iff.mp hnone _ (Array.getElem_mem hlt)
    exact absurd (beq_self_eq_true composites[id]) (Bool.eq_false_iff.mp hne)

theorem intern_of_forall_ne (h : ∀ id : Nat, composites[id]? ≠ some members) :
    intern composites members = (composites.size, composites.push members) := by
  rw [intern]
  split
  · next id hid =>
    obtain ⟨hlt, heq, -⟩ := Array.findIdx?_eq_some_iff_getElem.mp hid
    exact absurd (Array.getElem?_eq_some_iff.mpr ⟨hlt, beq_iff_eq.mp heq⟩) (h id)
  · rfl

end

namespace Memoized.Consistent

variable {m : Memoized} {members : List Nat}

theorem empty : Consistent {} := by
  intro members id
  exact iff_of_false nofun (by simp)

theorem interned (h : m.Consistent) : Interned m.composites := by
  intro i j members hi hj
  have hi' := (h members i).mpr hi
  have hj' := (h members j).mpr hj
  exact Option.some.inj (hi'.symm.trans hj')

theorem forall_ne (h : m.Consistent) (hnone : m.memo.lookup members = none) (id : Nat) :
    m.composites[id]? ≠ some members := by
  intro hid
  exact absurd (hnone.symm.trans ((h members id).mpr hid)) nofun

/-- The memo answers as a search of the store does. -/
theorem intern_eq_canonical (h : m.Consistent) (members : List Nat) :
    intern m.composites members =
      ((m.canonical members).1, (m.canonical members).2.composites) := by
  rw [Memoized.canonical]
  cases hmemo : m.memo.lookup members with
  | some id => exact intern_of_getElem? h.interned ((h members id).mp hmemo)
  | none => exact intern_of_forall_ne (h.forall_ne hmemo)

theorem canonical (h : m.Consistent) (members : List Nat) :
    (m.canonical members).2.Consistent := by
  rw [Memoized.canonical]
  cases hmemo : m.memo.lookup members with
  | some id => exact h
  | none =>
      intro l id
      dsimp only
      rw [List.lookup_cons, Array.getElem?_push]
      by_cases hl : l = members
      · subst hl
        rw [beq_self_eq_true]
        dsimp only
        rw [Option.some_inj]
        split
        · next heq => exact iff_of_true heq.symm rfl
        · next hne => exact iff_of_false (Ne.symm hne) (h.forall_ne hmemo id)
      · rw [beq_eq_false_iff_ne.mpr hl]
        dsimp only
        rw [h l id]
        split
        · next heq =>
          -- nothing is stored past the end yet
          rw [heq, Array.getElem?_eq_none (Nat.le_refl _), Option.some_inj]
          exact iff_of_false nofun (Ne.symm hl)
        · rfl

theorem canonicalAll (h : m.Consistent) (lists : List (List Nat)) :
    (m.canonicalAll lists).Consistent := by
  induction lists generalizing m with
  | nil => exact h
  | cons members lists ih => exact ih (h.canonical members)

/-- Interning several lists extends the store as asking for each of them does. -/
theorem internAll_eq_canonicalAll (h : m.Consistent) (lists : List (List Nat)) :
    (internAll m.composites lists).2 = (m.canonicalAll lists).composites := by
  induction lists generalizing m with
  | nil => rfl
  | cons members lists ih =>
      rw [internAll, h.intern_eq_canonical]
      exact ih (h.canonical members)

end Memoized.Consistent

/-! ### Calls -/

/-- A call on a lexical state. -/
inductive Call where
  | addProduction (p : TokenProduction)
  | addImplicitLiteral (token : Nat)
  | claimLiteral (image : String) (token : Nat) (ignoreCase : Bool)
  | canonical (members : List Nat)
  | process (r : TokenRegistry) (config : Config)

namespace Call

/-- The lexical state after a call, which may have failed. -/
def run (s : LexicalState) : Call → LexicalState
  | addProduction p => s.addProduction p
  | addImplicitLiteral token => s.addImplicitLiteral token
  | claimLiteral image token ignoreCase => (s.claimLiteral image token ignoreCase).2
  | canonical members => (s.canonical members).2
  | process r config => final (LexicalState.process r config) s

/-- True if a call asks for a composite and nothing else. -/
def isCanonical : Call → Bool
  | canonical _ => true
  | _ => false

/-- The composites that a call asks the memo for: processing asks for those of all states, in order,
when the automaton is closed. -/
def requests (s : LexicalState) : Call → List (List Nat)
  | canonical members => [members]
  | process r config =>
    let s' := final (LexicalState.process r config) s
    if s.isProcessed || !s'.isProcessed then [] else s'.automaton.states.toList.map (·.epsilon)
  | _ => []

/-- The store and the memo that calls leave. -/
def memoize : LexicalState → Memoized → List Call → Memoized
  | _, m, [] => m
  | s, m, c :: calls => memoize (run s c) (m.canonicalAll (requests s c)) calls

end Call

variable {s t : LexicalState}

theorem Called.run (h : s.Called) (c : Call) : (c.run s).Called := by
  cases c with
  | addProduction p => exact h.addProduction p
  | addImplicitLiteral token => exact h.addImplicitLiteral token
  | claimLiteral image token ignoreCase => exact h.claimLiteral image token ignoreCase
  | canonical members => exact h.canonical members
  | process r config => exact h.process r config

theorem Called.foldl (h : s.Called) (calls : List Call) : (calls.foldl Call.run s).Called := by
  induction calls generalizing s with
  | nil => exact h
  | cons c calls ih => exact ih (h.run c)

/-- A call keeps the store in step with the memo. -/
theorem composites_run {m : Memoized} (h : s.Called) (hm : m.Consistent)
    (heq : m.composites = s.composites) (c : Call) :
    (m.canonicalAll (c.requests s)).composites = (c.run s).composites := by
  cases c with
  | addProduction p => exact heq
  | addImplicitLiteral token =>
      obtain ⟨tokens, hs⟩ := s.addImplicitLiteral_eq token
      exact heq.trans (congrArg (·.composites) hs).symm
  | claimLiteral image token ignoreCase =>
      obtain ⟨exact, folded, hs⟩ := s.claimLiteral_eq image token ignoreCase
      exact heq.trans (congrArg (·.composites) hs).symm
  | canonical members =>
      have hintern := hm.intern_eq_canonical members
      rw [heq] at hintern
      rw [Call.run, LexicalState.canonical, hintern]
      rfl
  | process r config =>
      rw [Call.run, Call.requests]
      generalize hs' : final (LexicalState.process r config) s = s'
      obtain ⟨hs, heq'⟩ | ⟨hs, u, ⟨_, _, _, rfl⟩, -, heq' | hgen⟩ := h.kept.process_cases r config
      · rw [hs, ← hs', heq']
        exact heq
      · have hs'' : s'.isProcessed = false := by rw [← hs', heq']; exact hs
        rw [hs, hs'', ← hs', heq']
        exact heq
      · rw [hs'] at hgen
        obtain ⟨automaton, ids, composites, d, -, -, hintern, rfl, -⟩ := exists_of_generate hgen
        dsimp only [reported] at hintern
        rw [← heq] at hintern
        rw [hs]
        exact (hm.internAll_eq_canonicalAll _).symm.trans (congrArg (·.2) hintern)

/-- Whatever is called, the memo says where each list is stored. -/
theorem consistent_memoize {m : Memoized} (h : s.Called) (hm : m.Consistent)
    (heq : m.composites = s.composites) (calls : List Call) :
    (Call.memoize s m calls).Consistent ∧
      (Call.memoize s m calls).composites = (calls.foldl Call.run s).composites := by
  induction calls generalizing s m with
  | nil => exact ⟨hm, heq⟩
  | cons c calls ih => exact ih (h.run c) (hm.canonicalAll _) (composites_run h hm heq c)

/-! ### What is generated -/

theorem Called.movers_eq (h : s.Called) (hs : s.isProcessed = true) :
    s.movers = (List.range s.automaton.size).filter s.automaton.needsMoveCode := by
  obtain ⟨u, s', -, hgen, hautomaton, hdispatch⟩ := h.generated hs
  have hmovers := (movers_of_generate hgen).2
  rwa [movers, hdispatch, hautomaton] at hmovers

/-- The epsilon moves of a processed lexical state are closed. -/
theorem Called.exists_close (h : s.Called) (hs : s.isProcessed = true) :
    ∃ a : Automaton, a.close = .ok s.automaton := by
  obtain ⟨u, s', -, hgen, hautomaton, -⟩ := h.generated hs
  obtain ⟨automaton, _, _, _, _, hclose, -, rfl, -⟩ := exists_of_generate hgen
  exact ⟨u.automaton, hclose.trans (congrArg _ hautomaton)⟩

/-! ### Lexical states that were asked for other composites -/

/-- Two lexical states with the same declarations and the same automaton, both processed or neither,
which may keep composites that the other does not have, in other places. -/
structure Alike (s t : LexicalState) : Prop where
  rest : ∃ composites dispatch, t = { s with composites, dispatch }
  processed : s.isProcessed = t.isProcessed

namespace Alike

theorem refl (s : LexicalState) : s.Alike s := ⟨⟨_, _, rfl⟩, rfl⟩

theorem automaton_eq (h : s.Alike t) : s.automaton = t.automaton := by
  obtain ⟨_, _, rfl⟩ := h.rest
  rfl

theorem process (h : s.Alike t) (hs : s.Called) (ht : t.Called) (r : TokenRegistry)
    (config : Config) :
    (final (LexicalState.process r config) s).Alike (final (LexicalState.process r config) t) := by
  by_cases hprocessed : s.isProcessed = true
  · obtain ⟨-, hs'⟩ := (hs.kept.process_cases r config).resolve_right (by simp [hprocessed])
    obtain ⟨-, ht'⟩ :=
      (ht.kept.process_cases r config).resolve_right (by simp [← h.processed, hprocessed])
    rwa [hs', ht']
  · have hdispatch : s.dispatch = none := Option.not_isSome_iff_eq_none.mp hprocessed
    obtain ⟨⟨composites, dispatch, rfl⟩, hboth⟩ := h
    obtain rfl : dispatch = none := by
      apply Option.not_isSome_iff_eq_none.mp
      rwa [← show s.isProcessed = dispatch.isSome from hboth]
    obtain ⟨L, hL⟩ := hs.kept.assembled hdispatch
    obtain ⟨done, hattempt, -⟩ := exists_attempt r (s.plan r config) hL
    -- the steps do the same whatever is stored
    have hrun := run_mapState (r := r) (φ := fun s => { s with composites, dispatch := none })
      (fun _ _ _ _ => rfl) (s.plan r config) s
    cases hok : (s.plan r config).forM (runStep r) s with
    | error e u =>
        rw [hok] at hrun
        rw [final, hok] at hattempt
        obtain ⟨_, _, _, rfl⟩ := hattempt.rest
        rw [final, process_eq_error hdispatch hok, final, process_eq_error rfl hrun]
        exact ⟨⟨_, _, rfl⟩, congrArg Option.isSome hdispatch⟩
    | ok _ u =>
        rw [hok] at hrun
        have hu := assembled_of_run hL hok
        obtain ⟨s', hgen⟩ := exists_generate (s := u.reported) hu
        obtain ⟨t', hgen'⟩ :=
          exists_generate (s := reported { u with composites, dispatch := none }) hu
        rw [final, process_eq_ok_of_generate hdispatch hok hgen, final,
          process_eq_ok_of_generate rfl hrun hgen']
        obtain ⟨automaton, _, _, _, _, hclose, -, rfl, -⟩ := exists_of_generate hgen
        obtain ⟨automaton', _, _, _, _, hclose', -, rfl, -⟩ := exists_of_generate hgen'
        obtain rfl := Except.ok.inj (hclose.symm.trans hclose')
        exact ⟨⟨_, _, rfl⟩, rfl⟩

theorem run (h : s.Alike t) (hs : s.Called) (ht : t.Called) {c : Call}
    (hc : c.isCanonical = false) : (c.run s).Alike (c.run t) := by
  cases c with
  | addProduction p =>
      obtain ⟨⟨_, _, rfl⟩, hprocessed⟩ := h
      exact ⟨⟨_, _, rfl⟩, hprocessed⟩
  | addImplicitLiteral token =>
      obtain ⟨⟨_, _, rfl⟩, hprocessed⟩ := h
      rw [Call.run, Call.run, addImplicitLiteral, addImplicitLiteral]
      split
      · exact ⟨⟨_, _, rfl⟩, hprocessed⟩
      · exact ⟨⟨_, _, rfl⟩, hprocessed⟩
  | claimLiteral image token ignoreCase =>
      obtain ⟨⟨_, _, rfl⟩, hprocessed⟩ := h
      rw [Call.run, Call.run, claimLiteral, claimLiteral]
      split
      · exact ⟨⟨_, _, rfl⟩, hprocessed⟩
      · exact ⟨⟨_, _, rfl⟩, hprocessed⟩
  | canonical members => exact absurd hc Bool.true_eq_false.mp
  | process r config => exact h.process hs ht r config

/-- To be asked for a composite changes the store alone. -/
theorem canonical (h : s.Alike t) (members : List Nat) : (s.canonical members).2.Alike t := by
  obtain ⟨⟨_, _, rfl⟩, hprocessed⟩ := h
  exact ⟨⟨_, _, rfl⟩, hprocessed⟩

theorem foldl (h : s.Alike t) (hs : s.Called) (ht : t.Called) (calls : List Call) :
    (calls.foldl Call.run s).Alike ((calls.filter (!·.isCanonical)).foldl Call.run t) := by
  induction calls generalizing s t with
  | nil => exact h
  | cons c calls ih =>
      cases hc : c.isCanonical with
      | false =>
          rw [List.filter_cons_of_pos (by rw [hc]; rfl)]
          exact ih (h.run hs ht hc) (hs.run c) (ht.run c)
      | true =>
          rw [List.filter_cons_of_neg (by rw [hc]; exact Bool.false_ne_true)]
          refine ih ?_ (hs.run c) ht
          cases c with
          | canonical members => exact h.canonical members
          | _ => exact absurd hc Bool.false_ne_true

theorem nextIndex?_of_dispatch {s : LexicalState} (h : s.dispatch = none) (m : Nat) :
    s.nextIndex? m = none := by
  rw [nextIndex?, Option.bind_eq_none_iff]
  intro id _
  rw [indexOf?, h, Option.bind_none]

theorem map_reachable_eq (h : s.Alike t) (hs : s.Called) (ht : t.Called) :
    s.reachable.map (fun c => (c.members, c.index)) =
        t.reachable.map (fun c => (c.members, c.index)) ∧ s.nextIndex? = t.nextIndex? := by
  by_cases hprocessed : s.isProcessed = true
  · have hprocessed' : t.isProcessed = true := h.processed ▸ hprocessed
    obtain ⟨start, found, harranged⟩ :=
      hs.kept.arranged (Option.isSome_iff_ne_none.mp hprocessed)
    obtain ⟨start', found', harranged'⟩ :=
      ht.kept.arranged (Option.isSome_iff_ne_none.mp hprocessed')
    have hplaced : Placed s t start start' found found' := ⟨h.automaton_eq, harranged, harranged'⟩
    exact ⟨hplaced.map_reachable_eq, funext hplaced.nextIndex?_eq⟩
  · have hprocessed' : ¬ t.isProcessed = true := h.processed ▸ hprocessed
    have hs' : s.dispatch = none := Option.not_isSome_iff_eq_none.mp hprocessed
    have ht' : t.dispatch = none := Option.not_isSome_iff_eq_none.mp hprocessed'
    refine ⟨by rw [reachable, reachable, hs', ht']; rfl, funext fun m => ?_⟩
    rw [nextIndex?_of_dispatch hs', nextIndex?_of_dispatch ht']

/-- What is listed by members and indices is listed under the same names. -/
theorem map_methodName?_eq (h : s.Alike t) (hs : s.Called) (ht : t.Called) :
    s.reachable.map (fun c => (c.members, c.index, s.methodName? c)) =
      t.reachable.map fun c => (c.members, c.index, t.methodName? c) := by
  have hlisted := congrArg (List.map fun c => (c.1, c.2, c.2.map s.methodName))
    (h.map_reachable_eq hs ht).1
  rw [List.map_map, List.map_map] at hlisted
  obtain ⟨_, _, rfl⟩ := h.rest
  exact hlisted

theorem table_eq (h : s.Alike t) (hs : s.Called) (ht : t.Called) : s.table = t.table := by
  obtain ⟨hreachable, hnext⟩ := h.map_reachable_eq hs ht
  have hmovers : s.movers = t.movers := by
    by_cases hprocessed : s.isProcessed = true
    · rw [hs.movers_eq hprocessed, ht.movers_eq (h.processed ▸ hprocessed), h.automaton_eq]
    · have hprocessed' : ¬ t.isProcessed = true := h.processed ▸ hprocessed
      rw [movers, movers, Option.not_isSome_iff_eq_none.mp hprocessed,
        Option.not_isSome_iff_eq_none.mp hprocessed']
  have hs' := hs.kept.numbered
  have ht' := ht.kept.numbered
  obtain ⟨_, _, rfl⟩ := h.rest
  exact table_congr hs' ht' rfl rfl rfl hmovers hnext hreachable

end Alike

/-- States of a processed lexical state have the composites of their epsilon moves, and share one
exactly if these are equal. -/
theorem Arranged.compositeOf?_eq_iff {start : Nat} {found : List Nat} (h : s.Arranged start found)
    {q q' : Nat} {u u' : State} (hu : s.automaton.state? q = some u)
    (hu' : s.automaton.state? q' = some u') :
    s.compositeOf? q = s.compositeOf? q' ↔ u.epsilon = u'.epsilon := by
  obtain ⟨id, hid, hmembers⟩ := h.exists_compositeOf? hu
  obtain ⟨id', hid', hmembers'⟩ := h.exists_compositeOf? hu'
  rw [hid, hid', Option.some_inj]
  constructor
  · rintro rfl
    exact Option.some.inj (hmembers.symm.trans hmembers')
  · intro heq
    exact h.interned id id' _ hmembers (heq ▸ hmembers')

/-- There is one composite for each list of members, whatever composites a lexical state is asked
for between calls that declare or process, which may fail. No two places of the store hold the same
list, the memo says where each list is, and to ask for a list that is there answers with its place
and changes nothing. Once processed, each state has the composite of its closed epsilon moves, and
two states share one exactly if these are equal; and what is listed, by members, indices and names,
is the same as without the requests. -/
theorem composites_memoized (name : String) (isDefault : Bool) (calls : List Call) :
    let s := calls.foldl Call.run (new name isDefault)
    let m := Call.memoize (new name isDefault) {} calls
    let plain := (calls.filter (!·.isCanonical)).foldl Call.run (new name isDefault)
    (∀ (i j : Nat) members, s.composites[i]? = some members → s.composites[j]? = some members →
      i = j) ∧
    (m.composites = s.composites ∧
      ∀ members id, m.memo.lookup members = some id ↔ s.composites[id]? = some members) ∧
    (∀ members id, s.composites[id]? = some members →
      s.canonical members = (id, s) ∧ m.canonical members = (id, m)) ∧
    (s.isProcessed = true → (∃ a : Automaton, a.close = .ok s.automaton) ∧
      (∀ q u, s.automaton.state? q = some u →
        ∃ id, s.compositeOf? q = some id ∧ s.composites[id]? = some u.epsilon) ∧
      ∀ q q' u u', s.automaton.state? q = some u → s.automaton.state? q' = some u' →
        (s.compositeOf? q = s.compositeOf? q' ↔ u.epsilon = u'.epsilon)) ∧
    s.isProcessed = plain.isProcessed ∧
      s.reachable.map (fun c => (c.members, c.index, s.methodName? c)) =
        plain.reachable.map (fun c => (c.members, c.index, plain.methodName? c)) ∧
      s.table = plain.table := by
  dsimp only
  have hnew : (new name isDefault).Called := .new name isDefault
  have hs := hnew.foldl calls
  have halike := (Alike.refl _).foldl hnew hnew calls
  obtain ⟨hconsistent, hstore⟩ := consistent_memoize hnew .empty rfl calls
  generalize calls.foldl Call.run (new name isDefault) = s at *
  generalize Call.memoize (new name isDefault) {} calls = m at *
  refine ⟨hs.kept.interned, ⟨hstore, hstore ▸ hconsistent⟩, fun members id hid => ⟨?_, ?_⟩,
    fun hprocessed => ?_, halike.processed, halike.map_methodName?_eq hs (hnew.foldl _),
    halike.table_eq hs (hnew.foldl _)⟩
  · rw [canonical, intern_of_getElem? hs.kept.interned hid]
  · rw [Memoized.canonical, (hconsistent members id).mpr (hstore ▸ hid)]
  · obtain ⟨start, found, h⟩ := hs.kept.arranged (Option.isSome_iff_ne_none.mp hprocessed)
    exact ⟨hs.exists_close hprocessed, fun q u => h.exists_compositeOf?,
      fun q q' u u' => h.compositeOf?_eq_iff⟩

/-- A lexical state is asked for composites before its processing fails for a label that is missing,
between the attempts and at the end. Composites of its states are in other places, one of them where
it was asked for, and the table is the same. -/
theorem composites_memoized_between_attempts : ∃ calls : List Call,
    let s := calls.foldl Call.run (new "DEFAULT" true)
    let plain := (calls.filter (!·.isCanonical)).foldl Call.run (new "DEFAULT" true)
    s.isProcessed = true ∧ s.composites = #[[7], [4], [5], [], [0, 0]] ∧
      plain.composites = #[[5], [], [7]] ∧ s.canonical [7] = (0, s) ∧ s.table = plain.table := by
  let r := TokenRegistry.new.register { pattern := .sequence [.reference "A", .literal "b"] }
  let r' := r.register { label := some "A", pattern := .literal "a" }
  let calls : List Call := [.canonical [7], .addProduction { specs := [{ token := 1 }] },
    .process r {}, .canonical [4], .process r' {}, .canonical [4], .canonical [0, 0]]
  obtain ⟨-, -, hknown, -, -, -, htable⟩ := composites_memoized "DEFAULT" true calls
  refine ⟨calls, ?_, ?_, ?_, (hknown [7] 0 ?_).1, htable⟩
  · dsimp only [calls, r', r]
    cbv
  · dsimp only [calls, r', r]
    cbv
  · dsimp only [calls, r', r]
    cbv
  · dsimp only [calls, r', r]
    cbv

end ScannerTables.LexicalState
