import ScannerTables.Proofs.Memoization
/-!
# Tokens keep to themselves

All tokens of a lexical state are built into one automaton and begin in one state. Apart from that
state no two of them meet: `Automaton.Pure` says that every other state carries a token and names
only states of the same one. Building token after token has it so, failed attempts included, and
closing keeps it, since what a state reaches without a character is of its token as well.

A composite is the closure of a state, and one that has an index but is not the first is that of a
successor. So its members are of one token, and what a scanner records for a member is the token by
which the members are sorted.
-/

namespace ScannerTables

/-! ### Automata -/

namespace Automaton

/-- The states of different tokens have nothing to do with each other. -/
structure Pure (a : Automaton) : Prop where
  /-- State 0 moves on no character. -/
  initial : ∀ s, a.state? 0 = some s → s.next = none
  /-- Every other state carries a token and names states of that token alone. -/
  token : ∀ p s, p ≠ 0 → a.state? p = some s → ∃ token, s.token = some token ∧
    ∀ q, s.Targets q → q ≠ 0 ∧ ∃ t, a.state? q = some t ∧ t.token = some token

variable {a a' : Automaton} {L : Nat → List Nat → Prop} {p q m : Nat} {s s' : State}

/-- What a closed state names is of its token before closing. -/
theorem Assembled.token_of_closed_targets (h : a.Assembled L) (hp : 0 < p)
    (hs : a.state? p = some s) (hclose : a.ClosesState p s s') (hq : s'.Targets q) :
    q ≠ 0 ∧ ∃ t, a.state? q = some t ∧ t.token = s.token := by
  cases hq with
  | inl hepsilon =>
      obtain ⟨path, t, ht, hranges⟩ := (hclose.mem_epsilon q).mp hepsilon
      exact ⟨Nat.ne_of_gt (h.pos_of_ranges ht hranges), t, ht, h.token_of_path hp hs ht path⟩
  | inr hnext =>
      have htargets : s.Targets q := .inr (hclose.next_eq.symm.trans hnext)
      obtain ⟨t, ht⟩ := exists_state? (h.lt_of_targets hs htargets).2
      have hpure := h.token_of_targets hp hs ht htargets
      exact ⟨Nat.ne_of_gt hpure.1, t, ht, hpure.2⟩

/-- Closing an automaton that tokens were built into keeps their states apart. -/
theorem Assembled.pure_of_closes (h : a.Assembled L) (hclose : a.Closes a') : a'.Pure where
  initial s' hs' := by
    obtain ⟨s, hs⟩ := exists_state? h.size_pos
    exact (hclose.state 0 s s' hs hs').next_eq.trans (h.router hs).1.2
  token p s' hp hs' := by
    obtain ⟨s, hs⟩ := exists_state? (hclose.size_eq ▸ lt_size hs')
    have hpos : 0 < p := Nat.pos_of_ne_zero hp
    have hstate := hclose.state p s s' hs hs'
    obtain ⟨token, placed, -⟩ := h.placed p s hpos hs
    have htoken : s.token = some token := placed.token_eq
    refine ⟨token, hstate.token_eq.trans htoken, fun q hq => ?_⟩
    obtain ⟨hne, t, ht, heq⟩ := h.token_of_closed_targets hpos hs hstate hq
    obtain ⟨t', ht', hclosed⟩ := hclose.exists_state ht
    exact ⟨hne, t', ht', hclosed.token_eq.trans (heq.trans htoken)⟩

/-- A token that is complete behind a state is the token of the state. -/
theorem Pure.completedToken?_eq (h : a.Pure) (hfinal : a.isNextFinal m = true) :
    ∃ token, (a.state? m).bind (·.token) = some token ∧ a.completedToken? m = some token := by
  obtain ⟨t, ht, hfinal⟩ := (Option.any_eq_true _ _).mp hfinal
  obtain ⟨q, hq, hqt⟩ := Option.bind_eq_some_iff.mp ht
  obtain ⟨s, hs, hnext⟩ := Option.bind_eq_some_iff.mp hq
  have hm : m ≠ 0 := by
    rintro rfl
    exact absurd (hnext.symm.trans (h.initial s hs)) (Option.some_ne_none q)
  obtain ⟨token, htoken, htargets⟩ := h.token m s hm hs
  obtain ⟨-, u, hu, hu'⟩ := htargets q (.inr hnext)
  obtain rfl : u = t := Option.some.inj (hu.symm.trans hqt)
  refine ⟨token, ?_, ?_⟩
  · rw [hs, Option.bind_some, htoken]
  · rw [completedToken?, ht, Option.filter_some, if_pos hfinal, Option.bind_some, hu']

end Automaton

/-! ### Composites -/

namespace LexicalState

variable {s : LexicalState} {c : Composite} {token : Nat}

theorem Called.pure (h : s.Called) (hs : s.isProcessed = true) : s.automaton.Pure := by
  obtain ⟨u, s', ⟨L, hL⟩, hgen, hautomaton, -⟩ := h.generated hs
  rw [← hautomaton]
  exact hL.pure_of_closes (generates_of_generate hgen).closes

/-- Every member is a state that carries the token. -/
def Carry (s : LexicalState) (members : List Nat) (token : Nat) : Prop :=
  ∀ m ∈ members, ∃ u, s.automaton.state? m = some u ∧ u.token = some token

/-- The token of a composite is the one that its members carry, if it has members. -/
theorem Carry.memberToken?_eq {members : List Nat} (h : s.Carry members token)
    (hne : members ≠ []) : s.memberToken? members = some token := by
  obtain ⟨m, rest, rfl⟩ := List.exists_cons_of_ne_nil hne
  obtain ⟨u, hu, htoken⟩ := h m List.mem_cons_self
  have hm : (s.automaton.state? m).bind (·.token) = some token := by
    rw [hu, Option.bind_some, htoken]
  rw [memberToken?, List.findSome?_cons, hm]

namespace Arranged

variable {start p : Nat} {found : List Nat} {u : State}

/-- The composite of a state has members that carry the token of the state. -/
theorem carry (h : s.Arranged start found) (hpure : s.automaton.Pure) (hp : p ≠ initialState)
    (hu : s.automaton.state? p = some u) : ∃ token c, u.token = some token ∧
      (s.compositeOf? p).bind s.composite? = some c ∧ s.Carry c.members token := by
  obtain ⟨token, htoken, htargets⟩ := hpure.token p u hp hu
  obtain ⟨id, hid, hmembers⟩ := h.exists_compositeOf? hu
  have hc : s.composite? id = some ⟨id, s.indexOf? id, u.epsilon⟩ :=
    composite?_eq_some.mpr ⟨hmembers, rfl, rfl⟩
  refine ⟨token, _, htoken, by rw [hid, Option.bind_some, hc], fun m hm => ?_⟩
  exact (htargets m (.inl hm)).2

/-- A composite that is listed behind the first has members and is that of a successor. -/
theorem exists_successor (h : s.Arranged start found) (hpure : s.automaton.Pure)
    (hc : c ∈ s.reachable) (hfirst : c.index ≠ some 0) : c.members ≠ [] ∧
      ∃ q u, q ≠ initialState ∧ s.automaton.state? q = some u ∧ s.compositeOf? q = some c.id := by
  obtain ⟨hcomposite, hfollows⟩ := (h.tabulated.mem_iff c).mp hc
  have hstart : c.id ≠ start := by
    intro heq
    apply hfirst
    rw [(composite?_eq_some.mp hcomposite).2.2, heq, h.indexOf?_eq]
    exact idxOf?_indexOrder
  obtain ⟨hreach, hmembers⟩ := hfollows.resolve_left hstart
  refine ⟨hmembers, ?_⟩
  cases hreach with
  | refl => exact absurd rfl hstart
  | tail _ hlast =>
      obtain ⟨members, -, hmem⟩ := hlast
      obtain ⟨m, -, hm⟩ := List.mem_filterMap.mp hmem
      obtain ⟨q, hq, hid⟩ := Option.bind_eq_some_iff.mp hm
      obtain ⟨v, hv, hnext⟩ := Option.bind_eq_some_iff.mp hq
      have hne : m ≠ 0 := by
        rintro rfl
        exact absurd (hnext.symm.trans (hpure.initial v hv)) (Option.some_ne_none q)
      obtain ⟨token, -, htargets⟩ := hpure.token m v hne hv
      obtain ⟨hpos, u, hu, -⟩ := htargets q (.inr hnext)
      exact ⟨q, u, hpos, hu, hid⟩

end Arranged

/-- Composites are of one token. In a processed lexical state, whatever was called on it before,
every state but the first carries a token, which is carried by all members of its composite and by
its successor; every composite that has an index other than 0 has members of one token, which it
answers with; and what a scanner records for a member whose successor is final, the member's token,
is what members are sorted by, the successor's. -/
theorem composites_pure (s : LexicalState) (hs : s.Called) (hprocessed : s.isProcessed = true) :
    (∀ p u, p ≠ initialState → s.automaton.state? p = some u → ∃ token, u.token = some token ∧
      (∃ c, (s.compositeOf? p).bind s.composite? = some c ∧ s.Carry c.members token) ∧
      ∀ q ∈ u.next, ∃ v, s.automaton.state? q = some v ∧ v.token = some token) ∧
    (∀ c ∈ s.reachable, c.index ≠ some 0 →
      ∃ token, s.memberToken? c.members = some token ∧ s.Carry c.members token) ∧
    ∀ c ∈ s.reachable, ∀ m ∈ c.members, s.automaton.isNextFinal m = true →
      ∃ token, (s.scannerMember m).accepts = some token ∧
        s.automaton.completedToken? m = some token := by
  obtain ⟨start, found, h⟩ := hs.kept.arranged (Option.isSome_iff_ne_none.mp hprocessed)
  have hpure := hs.pure hprocessed
  refine ⟨?_, ?_, ?_⟩
  · intro p u hp hu
    obtain ⟨token, c, htoken, hc, hcarry⟩ := h.carry hpure hp hu
    refine ⟨token, htoken, ⟨c, hc, hcarry⟩, fun q hq => ?_⟩
    obtain ⟨token', htoken', htargets⟩ := hpure.token p u hp hu
    obtain rfl : token' = token := Option.some.inj (htoken'.symm.trans htoken)
    exact (htargets q (.inr hq)).2
  · intro c hc hfirst
    obtain ⟨hmembers, q, u, hq, hu, hid⟩ := h.exists_successor hpure hc hfirst
    obtain ⟨token, c', -, hc', hcarry⟩ := h.carry hpure hq hu
    rw [hid, Option.bind_some, (h.mem_reachable.mp hc).2] at hc'
    obtain rfl : c = c' := Option.some.inj hc'
    exact ⟨token, hcarry.memberToken?_eq hmembers, hcarry⟩
  · intro c _ m _ hfinal
    obtain ⟨token, htoken, hcompleted⟩ := hpure.completedToken?_eq hfinal
    refine ⟨token, ?_, hcompleted⟩
    rw [scannerMember, if_pos hfinal, htoken]

/-- `xyz` and `(ab)+`, where the label of `a` is missing at first: the first composite has members
of both tokens, those that the failed attempt left among them, and each of the others is of one. -/
theorem composites_pure_after_failure : ∃ s : LexicalState, s.Called ∧ s.isProcessed = true ∧
    s.reachable.map (fun c => (c.members, s.memberToken? c.members)) =
      [([1, 9, 17], some 1), ([3], some 1), ([11], some 1), ([19], some 2), ([2], some 1),
        ([10], some 1), ([17], some 2)] ∧
    (∀ c ∈ s.reachable, c.index ≠ some 0 →
      ∃ token, s.memberToken? c.members = some token ∧ s.Carry c.members token) := by
  let r := (TokenRegistry.new.register { pattern := .literal "xyz" }).register
    { pattern := .oneOrMore (.sequence [.reference "A", .literal "b"]) }
  let s := (new "DEFAULT" true).addProduction { specs := [{ token := 1 }, { token := 2 }] }
  let failed := Checked.final (process r {}) s
  let r' := r.register { label := some "A", pattern := .literal "a" }
  have hcalled : (Checked.final (process r' {}) failed).Called :=
    (((Called.new "DEFAULT" true).addProduction _).process r {}).process r' {}
  have hprocessed : (Checked.final (process r' {}) failed).isProcessed = true := by
    dsimp only [failed, r', r, s]
    cbv
  obtain ⟨-, hindexed, -⟩ := composites_pure _ hcalled hprocessed
  refine ⟨_, hcalled, hprocessed, ?_, hindexed⟩
  dsimp only [failed, r', r, s]
  cbv

end LexicalState

end ScannerTables
