import ScannerTables.Proofs.Dispatch
import ScannerTables.Scan.Scanner
import ScannerTables.Table.Basic
import ScannerTables.Table.Dot
/-!
# Look-ups that are checked

What reads a lexical state asks for states and composites by number and takes a number of nothing
for nothing. Here the same is read with every look-up checked: a number of nothing is a misuse. In a
lexical state that is `Linked` each number that is kept is one of something that exists, so that no
look-up fails and both ways of reading give the same.
-/

namespace ScannerTables

open Checked

/-- The entry of an array at a position, which must exist. -/
def checkedEntry {α : Type} (entries : Array α) (i : Nat) : Except Misuse α :=
  match entries[i]? with
  | some entry => .ok entry
  | none => .error .unknownId

/-- Those of a list that pass a test, for which something is looked up. -/
def checkedFilter {α : Type} (test : α → Except Misuse Bool) (l : List α) :
    Except Misuse (List α) := do
  let tested ← l.mapM fun a => return (a, ← test a)
  return (tested.filter (·.2)).map (·.1)

theorem checkedFilter_eq {α : Type} {test : α → Except Misuse Bool} {p : α → Bool} {l : List α}
    (h : ∀ a ∈ l, test a = .ok (p a)) : checkedFilter test l = .ok (l.filter p) := by
  have htested : l.mapM (fun a => return (a, ← test a)) =
      (.ok (l.map fun a => (a, p a)) : Except Misuse _) := by
    refine mapM_eq_ok_map fun a ha => ?_
    rw [h a ha]
    rfl
  rw [checkedFilter, htested, ok_bind]
  simp [pure, Except.pure, List.filter_map, Function.comp_def]

/-! ### States -/

namespace State

/-- The ranges behind those that start in ASCII, of which there cannot be more than ranges. -/
def checkedNonAsciiRanges (s : State) : Except Misuse (List Interval) :=
  if s.asciiRanges.length ≤ s.ranges.length then .ok s.nonAsciiRanges else .error .unknownId

theorem length_asciiPart_le (l : List Interval) : (asciiPart l).length ≤ l.length := by
  induction l with
  | nil => exact Nat.le_refl _
  | cons i l ih =>
      rw [asciiPart]
      split
      · exact Nat.zero_le _
      · split
        · exact Nat.succ_le_succ (Nat.zero_le _)
        · exact Nat.succ_le_succ ih

theorem checkedNonAsciiRanges_eq (s : State) : s.checkedNonAsciiRanges = .ok s.nonAsciiRanges :=
  if_pos (length_asciiPart_le s.ranges)

end State

namespace Automaton

variable {a : Automaton} {id : Nat}

/-- A state can be looked up and so can its successor, if it has one. -/
def Resolves (a : Automaton) (id : Nat) : Prop :=
  ∃ s, a.state? id = some s ∧ ∀ q, s.next = some q → q < a.size

/-- The successor of a state. -/
def checkedSuccessor (a : Automaton) (id : Nat) : Except Misuse (Option State) := do
  match (← a.state id).next with
  | none => return none
  | some q => return some (← a.state q)

/-- True if the token is complete behind a state. -/
def checkedIsNextFinal (a : Automaton) (id : Nat) : Except Misuse Bool :=
  return (← a.checkedSuccessor id).any (·.isFinal)

/-- True if trying a state can lead anywhere. -/
def checkedNeedsMoveCode (a : Automaton) (id : Nat) : Except Misuse Bool :=
  return (← a.checkedSuccessor id).any fun t => t.isFinal || !t.epsilon.isEmpty

theorem state_eq {s : State} (h : a.state? id = some s) : a.state id = .ok s := by
  rw [state, h]

theorem mapM_state_eq {members : List Nat} (h : ∀ m ∈ members, m < a.size) :
    members.mapM a.state = .ok (members.map fun m => (a.state? m).getD default) := by
  refine mapM_eq_ok_map fun m hm => ?_
  obtain ⟨t, ht⟩ := exists_state? (h m hm)
  rw [state_eq ht, ht, Option.getD_some]

theorem resolves_of_successorsExist (h : a.successorsExist = true) (hid : id < a.size) :
    a.Resolves id := by
  obtain ⟨s, hs⟩ := exists_state? hid
  refine ⟨s, hs, fun q hq => ?_⟩
  obtain ⟨hi, rfl⟩ := Array.getElem?_eq_some_iff.mp hs
  have hnext := Array.all_eq_true.mp h id hi
  simpa [hq] using hnext

namespace Resolves

theorem checkedSuccessor_eq (h : a.Resolves id) :
    a.checkedSuccessor id = .ok (a.successor? id) := by
  obtain ⟨s, hs, hnext⟩ := h
  rw [checkedSuccessor, state_eq hs, ok_bind, successor?, hs, Option.bind_some]
  cases hq : s.next with
  | none => rfl
  | some q =>
      obtain ⟨t, ht⟩ := exists_state? (hnext q hq)
      dsimp only
      rw [state_eq ht, ok_bind, Option.bind_some, ht]
      rfl

theorem checkedIsNextFinal_eq (h : a.Resolves id) :
    a.checkedIsNextFinal id = .ok (a.isNextFinal id) := by
  rw [checkedIsNextFinal, h.checkedSuccessor_eq]
  rfl

theorem checkedNeedsMoveCode_eq (h : a.Resolves id) :
    a.checkedNeedsMoveCode id = .ok (a.needsMoveCode id) := by
  rw [checkedNeedsMoveCode, h.checkedSuccessor_eq]
  rfl

end Resolves

end Automaton

/-! ### Composites -/

namespace LexicalState

variable (s : LexicalState)

/-- The composite behind a state. -/
def checkedFollower (m : Nat) : Except Misuse (Option Nat) := do
  match (← s.automaton.state m).next with
  | none => return none
  | some q =>
    discard (s.automaton.state q)
    return s.compositeOf? q

/-- The composites that follow some members. -/
def checkedSuccessors (members : List Nat) : Except Misuse (List Nat) :=
  return (← members.mapM s.checkedFollower).filterMap id

/-- The index of the composite behind a state. -/
def checkedNextIndex (m : Nat) : Except Misuse (Option Nat) := do
  match ← s.checkedFollower m with
  | none => return none
  | some id => return (← s.composite id).index

/-- True if some member completes a token. -/
def checkedHasFinalMember (members : List Nat) : Except Misuse Bool :=
  return (← members.mapM s.automaton.checkedIsNextFinal).any id

/-- What is read from each member, in the order in which the members are tried; to compare two of
them is to look up what is behind them. -/
def checkedMembers {α : Type} (read : Nat → Except Misuse α) (members : List Nat) :
    Except Misuse (List α) := do
  discard (members.mapM s.automaton.checkedSuccessor)
  (s.orderedMembers members).mapM read

/-- The composites that a scan can reach. -/
def checkedReachable : Except Misuse (List Composite) := s.order.mapM s.composite

/-- A member for the scanner. -/
def checkedScannerMember (m : Nat) : Except Misuse Member := do
  let state ← s.automaton.state m
  let next ← s.checkedNextIndex m
  let final ← s.automaton.checkedIsNextFinal m
  return { ranges := state.ranges, next, accepts := if final then state.token else none }

/-- The scanner. -/
def checkedScanner : Except Misuse Scanner := do
  let members ← (← s.checkedReachable).mapM fun c =>
    s.checkedMembers s.checkedScannerMember c.members
  return { composites := members.toArray }

/-- The record of a member. -/
def checkedMemberRecord (m : Nat) : Except Misuse MemberRecord := do
  let state ← s.automaton.state m
  return {
    movesArrayName := s.movesArrayName? m
    asciiRanges := state.asciiRanges
    nonAsciiRanges := ← state.checkedNonAsciiRanges
    nextStateIndex := ← s.checkedNextIndex m
    nextFinal := ← s.automaton.checkedIsNextFinal m
    token := state.token }

/-- The record of a composite, if a scan can reach it. -/
def checkedCompositeRecord (c : Composite) : Except Misuse (Option CompositeRecord) :=
  match c.index with
  | none => return none
  | some index => return some {
      index
      methodName := s.methodName index
      token := (← s.memberStates c).findSome? (·.token)
      hasFinalMember := ← s.checkedHasFinalMember c.members
      members := ← s.checkedMembers s.checkedMemberRecord c.members }

/-- The table. -/
def checkedTable : Except Misuse StateTable := do
  let records ← (← s.checkedReachable).mapM s.checkedCompositeRecord
  discard (s.movers.mapM s.automaton.state)
  return {
    name := s.name
    composites := records.filterMap id
    movesArrays := s.movers.filterMap s.movesArrayName? }

/-- The line that draws the move of a member. -/
def checkedDotEdge (source m : Nat) : Except Misuse String := do
  let member ← s.checkedScannerMember m
  let target := match member.next with
    | some i => s!"c{i}"
    | none => "accept"
  let close := match member.accepts with
    | some t => s!" #{t}\", style=bold];"
    | none => "\"];"
  return s!"  c{source} -> {target} [label=\"{dotRanges member.ranges}{close}\n"

/-- The lines that draw the moves of a composite. -/
def checkedDotEdges (c : Composite) : Except Misuse (List String) :=
  match c.index with
  | none => return []
  | some i => s.checkedMembers (s.checkedDotEdge i) c.members

/-- The drawing. -/
def checkedDot : Except Misuse String := do
  let composites ← s.checkedReachable
  let edges ← composites.mapM s.checkedDotEdges
  return String.join (
    [s!"digraph \"{s.name}\" \x7b\n",
      "  rankdir=LR;\n",
      "  node [shape=circle];\n",
      "  accept [shape=doublecircle, label=\"\"];\n"] ++
    composites.filterMap s.dotNode? ++ edges.flatten ++ ["\x7d\n"])

/-- Every number that is kept is one of a state or of a composite that exists. -/
structure Linked (s : LexicalState) : Prop where
  resolves : ∀ m < s.automaton.size, s.automaton.Resolves m
  composite : ∀ q id, s.compositeOf? q = some id → id < s.composites.size
  order : ∀ id ∈ s.order, ∃ members, s.composites[id]? = some members ∧
    ∀ m ∈ members, m < s.automaton.size
  movers : ∀ m ∈ s.movers, m < s.automaton.size

section

variable {s} {m id : Nat} {members : List Nat}

theorem composite_eq (h : s.composites[id]? = some members) :
    s.composite id = .ok { id, index := s.indexOf? id, members } := by
  rw [composite, composite?, h]
  rfl

theorem checkedFollower_eq (h : s.automaton.Resolves m) :
    s.checkedFollower m = .ok (((s.automaton.state? m).bind (·.next)).bind s.compositeOf?) := by
  obtain ⟨t, ht, hnext⟩ := h
  rw [checkedFollower, Automaton.state_eq ht, ok_bind, ht, Option.bind_some]
  cases hq : t.next with
  | none => rfl
  | some q =>
      obtain ⟨u, hu⟩ := Automaton.exists_state? (hnext q hq)
      dsimp only
      rw [Automaton.state_eq hu]
      rfl

theorem checkedSuccessors_eq (h : ∀ m ∈ members, s.automaton.Resolves m) :
    s.checkedSuccessors members = .ok (s.successors members) := by
  rw [checkedSuccessors, mapM_eq_ok_map fun m hm => checkedFollower_eq (h m hm), ok_bind,
    List.filterMap_map]
  rfl

theorem checkedHasFinalMember_eq (h : ∀ m ∈ members, s.automaton.Resolves m) :
    s.checkedHasFinalMember members = .ok (s.hasFinalMember members) := by
  rw [checkedHasFinalMember, mapM_eq_ok_map fun m hm => (h m hm).checkedIsNextFinal_eq, ok_bind,
    List.any_map]
  rfl

end

namespace Linked

variable {s} {m id : Nat} {members : List Nat}

theorem checkedNextIndex_eq (h : s.Linked) (hm : m < s.automaton.size) :
    s.checkedNextIndex m = .ok (s.nextIndex? m) := by
  rw [checkedNextIndex, checkedFollower_eq (h.resolves m hm), nextIndex?]
  cases hid : ((s.automaton.state? m).bind (·.next)).bind s.compositeOf? with
  | none => rfl
  | some id =>
      obtain ⟨q, -, hq⟩ := Option.bind_eq_some_iff.mp hid
      rw [ok_bind]
      dsimp only
      rw [composite_eq (Array.getElem?_eq_getElem (h.composite q id hq))]
      rfl

theorem checkedMembers_eq {α : Type} {read : Nat → Except Misuse α} {value : Nat → α}
    (h : s.Linked) (hmembers : ∀ m ∈ members, m < s.automaton.size)
    (hread : ∀ m < s.automaton.size, read m = .ok (value m)) :
    s.checkedMembers read members = .ok ((s.orderedMembers members).map value) := by
  have hcompared := mapM_eq_ok_map fun m hm =>
    (h.resolves m (hmembers m hm)).checkedSuccessor_eq
  rw [checkedMembers, hcompared]
  exact mapM_eq_ok_map fun m hm => hread m (hmembers m (mem_orderedMembers.mp hm))

/-- The composites that a scan can reach are found, with members that exist. -/
theorem checkedReachable_eq (h : s.Linked) : s.checkedReachable = .ok s.reachable ∧
    s.reachable.length = s.order.length ∧
      ∀ c ∈ s.reachable, ∀ m ∈ c.members, m < s.automaton.size := by
  have hfound : ∀ id ∈ s.order, s.composite? id =
      some { id, index := s.indexOf? id, members := s.composites[id]?.getD [] } := by
    intro id hid
    obtain ⟨members, hmembers, -⟩ := h.order id hid
    rw [composite?, hmembers]
    rfl
  have hreachable : s.reachable = s.order.map fun id =>
      { id, index := s.indexOf? id, members := s.composites[id]?.getD [] } := by
    rw [reachable, ← LexicalState.order, List.filterMap_congr hfound, List.filterMap_eq_map']
  refine ⟨?_, by rw [hreachable, List.length_map], fun c hc => ?_⟩
  · rw [checkedReachable, hreachable]
    refine mapM_eq_ok_map fun id hid => ?_
    rw [LexicalState.composite, hfound id hid]
  · rw [hreachable] at hc
    obtain ⟨id, hid, rfl⟩ := List.mem_map.mp hc
    obtain ⟨members, hmembers, hlt⟩ := h.order id hid
    rwa [hmembers]

/-- What is read from each of the composites that a scan can reach. -/
theorem mapM_reachable {α : Type} {read : Composite → Except Misuse α} {value : Composite → α}
    (h : s.Linked) (hread : ∀ c : Composite, (∀ m ∈ c.members, m < s.automaton.size) →
      read c = .ok (value c)) :
    s.reachable.mapM read = .ok (s.reachable.map value) :=
  mapM_eq_ok_map fun c hc => hread c (h.checkedReachable_eq.2.2 c hc)

theorem checkedScannerMember_eq (h : s.Linked) (hm : m < s.automaton.size) :
    s.checkedScannerMember m = .ok (s.scannerMember m) := by
  obtain ⟨t, ht⟩ := Automaton.exists_state? hm
  rw [checkedScannerMember, Automaton.state_eq ht, h.checkedNextIndex_eq hm,
    (h.resolves m hm).checkedIsNextFinal_eq, scannerMember, ht]
  rfl

theorem checkedScanner_eq (h : s.Linked) : s.checkedScanner = .ok s.scanner := by
  have hmembers := h.mapM_reachable fun c hc =>
    h.checkedMembers_eq hc fun _ => h.checkedScannerMember_eq
  rw [checkedScanner, h.checkedReachable_eq.1, ok_bind, hmembers]
  rfl

theorem checkedMemberRecord_eq (h : s.Linked) (hm : m < s.automaton.size) :
    s.checkedMemberRecord m = .ok (s.memberRecord m) := by
  obtain ⟨t, ht⟩ := Automaton.exists_state? hm
  rw [checkedMemberRecord, Automaton.state_eq ht, ok_bind, t.checkedNonAsciiRanges_eq,
    h.checkedNextIndex_eq hm, (h.resolves m hm).checkedIsNextFinal_eq, memberRecord, ht]
  rfl

theorem checkedCompositeRecord_eq (h : s.Linked) {c : Composite}
    (hc : ∀ m ∈ c.members, m < s.automaton.size) :
    s.checkedCompositeRecord c = .ok (s.compositeRecord? c) := by
  have hstates : s.memberStates c = _ := Automaton.mapM_state_eq hc
  have htoken : (c.members.map fun m => (s.automaton.state? m).getD default).findSome? (·.token) =
      s.memberToken? c.members := by
    rw [List.findSome?_map, memberToken?, ← List.head?_filterMap, ← List.head?_filterMap]
    refine congrArg List.head? (List.filterMap_congr fun m hm => ?_)
    obtain ⟨t, ht⟩ := Automaton.exists_state? (hc m hm)
    rw [Function.comp_apply, ht, Option.getD_some, Option.bind_some]
  have hmembers := h.checkedMembers_eq hc fun _ => h.checkedMemberRecord_eq
  rw [checkedCompositeRecord, compositeRecord?, ← htoken]
  cases c.index with
  | none => rfl
  | some index =>
      rw [hstates, checkedHasFinalMember_eq fun m hm => h.resolves m (hc m hm), hmembers]
      rfl

theorem checkedTable_eq (h : s.Linked) : s.checkedTable = .ok s.table := by
  have hrecords := h.mapM_reachable fun c => h.checkedCompositeRecord_eq
  rw [checkedTable, h.checkedReachable_eq.1, ok_bind, hrecords, ok_bind,
    Automaton.mapM_state_eq h.movers, List.filterMap_map]
  rfl

theorem checkedDotEdges_eq (h : s.Linked) {c : Composite}
    (hc : ∀ m ∈ c.members, m < s.automaton.size) : s.checkedDotEdges c = .ok (s.dotEdges c) := by
  rw [checkedDotEdges, dotEdges]
  cases c.index with
  | none => rfl
  | some i =>
      refine h.checkedMembers_eq hc fun m hm => ?_
      rw [checkedDotEdge, h.checkedScannerMember_eq hm]
      rfl

theorem checkedDot_eq (h : s.Linked) : s.checkedDot = .ok s.dot := by
  rw [checkedDot, h.checkedReachable_eq.1, ok_bind, h.mapM_reachable fun c => h.checkedDotEdges_eq,
    dot, List.flatMap_def]
  rfl

end Linked

end LexicalState

end ScannerTables
