import ScannerTables.Proofs.Safety
/-!
# Scanning from records

A table is made for whoever scans without the lexer, so that its records must say all that the
lexical state says to a scanner. `StateTable.scanner` reads nothing else, and it is the scanner of
the lexical state itself: the two lists of a record put together are the ranges of a member, no
composite that a scan can reach lacks a record, and the record with an index is the one at that
position.
-/

namespace ScannerTables

/-! ### Reading a table -/

/-- A member as its record describes it: it moves on the characters of both lists of ranges, and
completes its token if that is complete behind it. -/
def MemberRecord.member (r : MemberRecord) : Member where
  ranges := r.asciiRanges ++ r.nonAsciiRanges
  next := r.nextStateIndex
  accepts := if r.nextFinal then r.token else none

/-- The scanner of the records, which starts with the first of them. -/
def StateTable.scanner (t : StateTable) : Scanner where
  composites := (t.composites.map fun r => r.members.map (·.member)).toArray

/-! ### Ranges -/

namespace State

theorem isPrefix_asciiPart (l : List Interval) : asciiPart l <+: l := by
  induction l with
  | nil => exact List.prefix_refl []
  | cons i l ih =>
      rw [asciiPart]
      split
      · exact List.nil_prefix
      · split
        · exact List.prefix_append [i] l
        · exact List.cons_prefix_cons.mpr ⟨rfl, ih⟩

/-- The two lists part the ranges, wherever a range lies that reaches from ASCII past it. -/
theorem asciiRanges_append_nonAsciiRanges (s : State) :
    s.asciiRanges ++ s.nonAsciiRanges = s.ranges := by
  rw [nonAsciiRanges, asciiRanges]
  exact List.prefix_iff_eq_append.mp (isPrefix_asciiPart s.ranges)

end State

/-! ### Records -/

namespace LexicalState

variable {s : LexicalState}

theorem member_memberRecord (m : Nat) : (s.memberRecord m).member = s.scannerMember m := by
  rw [MemberRecord.member, memberRecord, scannerMember]
  dsimp only
  rw [State.asciiRanges_append_nonAsciiRanges]
  cases s.automaton.state? m <;> rfl

namespace Called

theorem index_eq (h : s.Called) {i : Nat} {c : Composite} (hc : s.reachable[i]? = some c) :
    c.index = some i := by
  cases hdispatch : s.dispatch with
  | none =>
      rw [reachable, hdispatch] at hc
      exact absurd hc.symm (Option.some_ne_none c)
  | some d =>
      have hprocessed : s.isProcessed = true := by rw [isProcessed, hdispatch, Option.isSome_some]
      obtain ⟨start, htabulated⟩ := exists_tabulated s h hprocessed
      exact htabulated.index_eq i c hc

/-- There is a record for every composite that a scan can reach, and they are in the same order. -/
theorem map_composites_table (h : s.Called) {α : Type} (read : CompositeRecord → α)
    (value : Composite → α)
    (hread : ∀ c r, s.compositeRecord? c = some r → read r = value c) :
    s.table.composites.map read = s.reachable.map value := by
  have hall : ∀ c ∈ s.reachable, (s.compositeRecord? c).map read = some (value c) := by
    intro c hc
    obtain ⟨i, hi⟩ := List.mem_iff_getElem?.mp hc
    obtain ⟨r, hr⟩ : ∃ r, s.compositeRecord? c = some r := by
      rw [compositeRecord?, h.index_eq hi]
      exact ⟨_, rfl⟩
    rw [hr, Option.map_some, hread c r hr]
  rw [table, List.map_filterMap, List.filterMap_congr hall, List.filterMap_eq_map']

theorem length_composites_table (h : s.Called) :
    s.table.composites.length = s.reachable.length := by
  have hmap := h.map_composites_table (fun _ => ()) (fun _ => ()) fun _ _ _ => rfl
  simpa using congrArg List.length hmap

theorem index_eq_of_table (h : s.Called) {i : Nat} {r : CompositeRecord}
    (hr : s.table.composites[i]? = some r) : r.index = i := by
  have hmap := h.map_composites_table (·.index) (fun c => c.index.getD 0) fun c r hr => by
      obtain ⟨index, hindex, rfl⟩ := Option.map_eq_some_iff.mp hr
      rw [hindex, Option.getD_some]
  have hi : (s.reachable.map fun c => c.index.getD 0)[i]? = some r.index := by
    rw [← hmap, List.getElem?_map, hr, Option.map_some]
  rw [List.getElem?_map] at hi
  obtain ⟨c, hc, hindex⟩ := Option.map_eq_some_iff.mp hi
  rw [← hindex, h.index_eq hc, Option.getD_some]

/-- The records make the scanner of the lexical state. -/
theorem scanner_table (h : s.Called) : s.table.scanner = s.scanner := by
  have hmap := h.map_composites_table (fun r => r.members.map (·.member))
    (fun c => (s.orderedMembers c.members).map s.scannerMember) fun c r hr => by
      obtain ⟨index, -, rfl⟩ := Option.map_eq_some_iff.mp hr
      dsimp only
      rw [List.map_map]
      exact List.map_congr_left fun m _ => member_memberRecord m
  rw [StateTable.scanner, hmap, scanner]

end Called

end LexicalState

/-! ### Tables of lexers -/

namespace Lexer

variable {lx : Lexer}

/-- The names of tokens are listed by ordinal: the labels, then the extra names. -/
theorem getElem?_tokenNames {i : Nat} (hi : i < lx.table.tokenNames.length) :
    lx.table.tokenNames[i]? = some (lx.tokenName? i) := by
  rw [table, List.length_append, List.length_map, List.length_map, Array.length_toList] at hi
  rw [table, tokenName?, TokenRegistry.get?, List.getElem?_append, List.length_map,
    Array.length_toList]
  split
  · next hlt => rw [List.getElem?_map, Array.getElem?_toList, Array.getElem?_eq_getElem hlt]; rfl
  · next hge =>
    have hextra : i - lx.registry.size < lx.config.extraTokenNames.length := by
      rw [TokenRegistry.size]
      omega
    rw [Array.getElem?_eq_none (Nat.le_of_not_lt hge), List.getElem?_map, ← TokenRegistry.size,
      List.getElem?_eq_getElem hextra]
    rfl

theorem tokenName?_eq_none {i : Nat} (hi : lx.table.tokenNames.length ≤ i) :
    lx.tokenName? i = none := by
  rw [table, List.length_append, List.length_map, List.length_map, Array.length_toList] at hi
  have hextra : lx.config.extraTokenNames.length ≤ i - lx.registry.size := by
    rw [TokenRegistry.size]
    omega
  rw [tokenName?, TokenRegistry.get?, Array.getElem?_eq_none (by omega)]
  exact List.getElem?_eq_none hextra

/-- The table of a lexer suffices to scan, whatever commands made the lexer. For each lexical state
it has a record for each composite that a scan can reach, numbered by its place, and a scanner that
reads nothing but the records finds the same longest matches as that of the lexical state; and names
are listed for just the tokens that have one to be asked for. -/
theorem table_suffices (lx : Lexer) (h : lx.Reachable) :
    lx.table.lexicalStates.length = lx.states.size ∧
    (∀ (q : Nat) (s : LexicalState), lx.states[q]? = some s →
      ∃ t, lx.table.lexicalStates[q]? = some t ∧ t.name = s.name ∧
        t.composites.length = s.order.length ∧
          (∀ (i : Nat) r, t.composites[i]? = some r → r.index = i) ∧
            ∀ text, t.scanner.longestMatch text = s.scanner.longestMatch text) ∧
    (∀ i < lx.table.tokenNames.length, lx.table.tokenNames[i]? = some (lx.tokenName? i)) ∧
      ∀ i, lx.table.tokenNames.length ≤ i → lx.tokenName? i = none := by
  refine ⟨?_, ?_, fun i => getElem?_tokenNames, fun i => tokenName?_eq_none⟩
  · rw [table, List.length_map, Array.length_toList]
  · intro q s hs
    have hcalled := h.called hs
    refine ⟨s.table, ?_, rfl, ?_, fun i r => hcalled.index_eq_of_table, fun text => ?_⟩
    · rw [table, List.getElem?_map, Array.getElem?_toList, hs, Option.map_some]
    · rw [hcalled.length_composites_table, (h.linked hs).checkedReachable_eq.2.1]
    · rw [hcalled.scanner_table]

/-- A class from `a` to `é` besides a literal, with a name for a token past those that are
registered and a lexical state that is declared after the build: the ranges that begin in ASCII
stand apart, and the records match `ab`. -/
theorem table_suffices_straddling : ∃ (lx : Lexer) (t : StateTable), lx.Reachable ∧
    lx.table.lexicalStates[0]? = some t ∧ t.composites.map (fun r => (r.index, r.members.map
      fun m => (m.asciiRanges, m.nonAsciiRanges))) =
        [(0, [([⟨97, 97⟩], []), ([⟨97, 233⟩], [⟨945, 969⟩])]), (1, [([⟨98, 98⟩], [])])] ∧
    t.scanner.longestMatch "abc".toList = some { token := 2, length := 2 } ∧
    lx.table.tokenNames[3]? = some (some "VIRTUAL") ∧ lx.tokenName? 4 = none := by
  let commands : List Command := [
    .addDefinition { pattern := .charClass { ranges := [⟨97, 233⟩, ⟨945, 969⟩] } },
    .addDefinition (.ofLiteral "ab"),
    .addTokenProduction { specs := [{ token := 1 }, { token := 2 }] }, .build,
    .addLexicalState "LATE"]
  let lx := commands.foldl Command.run (new { extraTokenNames := ["VIRTUAL"] })
  have h : lx.Reachable := (Reachable.new _).foldl commands
  have hmatched : lx.states[0]?.map (·.scanner.longestMatch "abc".toList) =
      some (some { token := 2, length := 2 }) := by
    dsimp only [lx, commands]
    cbv
  have hrecords : lx.table.lexicalStates[0]?.map (fun t => t.composites.map fun r =>
      (r.index, r.members.map fun m => (m.asciiRanges, m.nonAsciiRanges))) =
        some [(0, [([⟨97, 97⟩], []), ([⟨97, 233⟩], [⟨945, 969⟩])]), (1, [([⟨98, 98⟩], [])])] := by
    dsimp only [lx, commands]
    cbv
  have hnames : lx.table.tokenNames.length = 4 ∧ lx.tokenName? 3 = some "VIRTUAL" := by
    dsimp only [lx, commands]
    cbv
  obtain ⟨-, hstates, hlisted, hpast⟩ := table_suffices lx h
  obtain ⟨s, hs, hmatch⟩ := Option.map_eq_some_iff.mp hmatched
  obtain ⟨t, ht, -, -, -, hsame⟩ := hstates 0 s hs
  rw [ht, Option.map_some] at hrecords
  refine ⟨lx, t, h, ht, Option.some.inj hrecords, (hsame _).trans hmatch, ?_,
    hpast 4 (Nat.le_of_eq hnames.1)⟩
  rw [hlisted 3 (by rw [hnames.1]; decide), hnames.2]

end Lexer

end ScannerTables
