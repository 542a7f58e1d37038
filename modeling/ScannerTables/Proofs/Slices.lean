import ScannerTables.Proofs.Lookups
import ScannerTables.Proofs.Tokenization
/-!
# Scanning with checked look-ups

A scanner looks up composites by index, and tokens are split off a text at byte offsets. Both are
checked here: an index must be one of a composite, and an offset one where a character begins or the
text ends. In a scanner that is `Closed` each index that a member goes on with is one of a
composite, and the lengths of matches add up to offsets between characters, so that no check
fails.
-/

namespace ScannerTables

open Checked

/-! ### Scanners -/

namespace Scanner

/-- The members that move on a character, of a composite that must exist. -/
def checkedHits (sc : Scanner) (c index : Nat) : Except Misuse (List Member) :=
  return (← checkedEntry sc.composites index).filter (·.moves c)

/-- The composites that are active after a character, and the token that it completes. -/
def checkedStep (sc : Scanner) (active : IntervalSet) (c : Nat) :
    Except Misuse (IntervalSet × Option Nat) := do
  let hits ← active.toList.mapM (sc.checkedHits c)
  return (.ofList (hits.flatMap fun ms => ms.filterMap (·.next)), (hits.filterMap completed).min?)

/-- The longest match of a text behind the bytes that were taken already. -/
def checkedLongestFrom (sc : Scanner) (active : IntervalSet) (taken : Nat)
    (best : Option ScanMatch) : List Char → Except Misuse (Option ScanMatch)
  | [] => return best
  | c :: cs => do
    let (next, token) ← sc.checkedStep active c.toNat
    let best := match token with
      | some token => some { token, length := taken + c.utf8Size }
      | none => best
    if next.isEmpty then return best else sc.checkedLongestFrom next (taken + c.utf8Size) best cs

/-- The longest match at the start of a text. -/
def checkedLongestMatch (sc : Scanner) (text : List Char) : Except Misuse (Option ScanMatch) :=
  if sc.composites.isEmpty then return none
  else sc.checkedLongestFrom (IntervalSet.empty.insert 0) 0 none text

/-- Members go on with composites that exist. -/
def Closed (sc : Scanner) : Prop :=
  ∀ (i : Nat) members, sc.composites[i]? = some members →
    ∀ m ∈ members, ∀ next, m.next = some next → next < sc.composites.size

namespace Closed

variable {sc : Scanner} {active : IntervalSet} {c : Nat}

theorem checkedStep_eq (hactive : ∀ i ∈ active, i < sc.composites.size) :
    sc.checkedStep active c = .ok (sc.step active c) := by
  have hhits : active.toList.mapM (sc.checkedHits c) = .ok (active.toList.map (sc.hits c)) := by
    refine mapM_eq_ok_map fun i hi => ?_
    have hlt := hactive i (IntervalSet.mem_toList.mp hi)
    rw [checkedHits, checkedEntry, hits, Array.getElem?_eq_getElem hlt]
    rfl
  rw [checkedStep, hhits]
  rfl

theorem lt_of_mem_step (h : sc.Closed) {j : Nat} (hj : j ∈ (sc.step active c).1) :
    j < sc.composites.size := by
  obtain ⟨i, -, m, hm, hnext⟩ := mem_step.mp hj
  obtain ⟨members, hmembers, hmem, -⟩ := mem_hits.mp hm
  exact h i members hmembers m hmem j hnext

theorem checkedLongestFrom_eq (h : sc.Closed) {taken : Nat} {best : Option ScanMatch}
    (hactive : ∀ i ∈ active, i < sc.composites.size) (text : List Char) :
    sc.checkedLongestFrom active taken best text = .ok (sc.longestFrom active taken best text) := by
  induction text generalizing active taken best with
  | nil => rfl
  | cons ch text ih =>
      rw [checkedLongestFrom, checkedStep_eq hactive, ok_bind, longestFrom]
      dsimp only
      split
      · rfl
      · exact ih fun j => h.lt_of_mem_step

theorem checkedLongestMatch_eq (h : sc.Closed) (text : List Char) :
    sc.checkedLongestMatch text = .ok (sc.longestMatch text) := by
  rw [checkedLongestMatch, longestMatch]
  split
  · rfl
  · next hne =>
    have hsize : 0 < sc.composites.size :=
      Nat.pos_of_ne_zero fun hzero => hne (Array.isEmpty_iff_size_eq_zero.mpr hzero)
    refine h.checkedLongestFrom_eq (fun i hi => ?_) text
    obtain rfl : i = 0 := (IntervalSet.mem_insert.mp hi).resolve_right IntervalSet.not_mem_empty
    exact hsize

end Closed

end Scanner

/-- The index behind a member is one of a composite that the scanner has. -/
theorem LexicalState.Linked.closed {s : LexicalState} (h : s.Linked) (hs : s.Numbered) :
    s.scanner.Closed := by
  intro i members hmembers m hm next hnext
  have hsize : s.scanner.composites.size = s.order.length := by
    rw [scanner, List.size_toArray, List.length_map, h.checkedReachable_eq.2.1]
  rw [scanner, List.getElem?_toArray, List.getElem?_map, Option.map_eq_some_iff] at hmembers
  obtain ⟨c, -, rfl⟩ := hmembers
  obtain ⟨id, -, rfl⟩ := List.mem_map.mp hm
  obtain ⟨id', -, hindex⟩ := Option.bind_eq_some_iff.mp hnext
  rw [hs.indexOf?_eq] at hindex
  rw [hsize]
  exact (List.idxOf?_eq_some_iff.mp hindex).1

/-! ### Offsets -/

/-- The rest of a text from a byte offset, which must not lie within a character or past the end. -/
def fromByte : Nat → List Char → Except Misuse (List Char)
  | 0, text => .ok text
  | _ + 1, [] => .error .unknownId
  | offset + 1, c :: text =>
    if c.utf8Size ≤ offset + 1 then fromByte (offset + 1 - c.utf8Size) text else .error .unknownId

theorem fromByte_zero (text : List Char) : fromByte 0 text = .ok text := by
  cases text <;> rfl

/-- An offset between characters. -/
theorem fromByte_append (pre text : List Char) :
    fromByte (byteLength pre) (pre ++ text) = .ok text := by
  induction pre with
  | nil => exact fromByte_zero text
  | cons c pre ih =>
      obtain ⟨offset, heq⟩ := Nat.exists_eq_add_one.mpr (byteLength_pos (List.cons_ne_nil c pre))
      rw [heq, List.cons_append, fromByte, ← heq, byteLength_cons, if_pos (Nat.le_add_right _ _),
        Nat.add_sub_cancel_left, ih]

/-! ### Tokens -/

namespace Lexer

/-- Splits the rest of a text from a byte offset. -/
def checkedTokenizeFrom (lx : Lexer) (scanners : Array Scanner) (text : List Char)
    (state offset : Nat) : Except Misuse Tokens :=
  if _hlt : offset < byteLength text then
    match fromByte offset text with
    | .error e => .error e
    | .ok rest => do
      let found ← (← checkedEntry scanners state).checkedLongestMatch rest
      match _hfound : found.filter (0 < ·.length) with
      | none =>
        return {
          tokens := []
          noMatch := some { offset, lexicalState := (lx.stateName? state).getD "" } }
      | some m =>
        let stop := offset + m.length
        let kind := (lx.tokenKind? m.token).getD default
        let switch := (← checkedEntry lx.states state).newLexicalState? m.token
        let next := (switch.bind lx.stateIndex?).getD state
        let more ← lx.checkedTokenizeFrom scanners text next stop
        return { more with
          tokens := { token := m.token, kind, start := offset, stop } :: more.tokens }
  else return { tokens := [], noMatch := none }
termination_by byteLength text - offset
decreasing_by
  have hpos : 0 < m.length := by simpa using (Option.filter_eq_some_iff.mp _hfound).2
  omega

/-- Splits a text into tokens. -/
def checkedTokenize (lx : Lexer) (text : String) : Except Misuse Tokens := do
  let scanners ← lx.states.toList.mapM (·.checkedScanner)
  lx.checkedTokenizeFrom scanners.toArray text.toList 0 0

variable {lx : Lexer}

/-- Splitting at an offset between characters: the rest of the text is what follows the offset, no
look-up fails, and it goes on behind the bytes of the match. -/
theorem checkedTokenizeFrom_append {q : Nat} {s : LexicalState} (hs : lx.states[q]? = some s)
    (hlinked : s.Linked ∧ s.Numbered) (pre : List Char) {text : List Char} (hne : text ≠ []) :
    lx.checkedTokenizeFrom (lx.states.map (·.scanner)) (pre ++ text) q (byteLength pre) =
      match s.scanner.longestMatch text with
      | none => .ok {
          tokens := []
          noMatch := some { offset := byteLength pre, lexicalState := (lx.stateName? q).getD "" } }
      | some m => do
        let stop := byteLength pre + m.length
        let kind := (lx.tokenKind? m.token).getD default
        let more ← lx.checkedTokenizeFrom (lx.states.map (·.scanner)) (pre ++ text)
          (lx.stateAfter q m.token) stop
        return { more with
          tokens := { token := m.token, kind, start := byteLength pre, stop } :: more.tokens } := by
  have hlt : byteLength pre < byteLength (pre ++ text) := by
    have := byteLength_pos hne
    rw [byteLength_append]
    omega
  have hscanner : checkedEntry (lx.states.map (·.scanner)) q = .ok s.scanner := by
    rw [checkedEntry, Array.getElem?_map, hs, Option.map_some]
  have hstate : checkedEntry lx.states q = .ok s := by rw [checkedEntry, hs]
  -- no match is empty, so that the scan always gets on
  have hfound : (s.scanner.longestMatch text).filter (0 < ·.length) =
      s.scanner.longestMatch text := by
    cases hm : s.scanner.longestMatch text with
    | none => rfl
    | some m =>
        have hpos := decide_eq_true (Scanner.length_pos_of_longestMatch hm)
        rw [Option.filter_some, if_pos hpos]
  rw [checkedTokenizeFrom, dif_pos hlt]
  split
  · next e herror => exact absurd ((fromByte_append pre text).symm.trans herror) nofun
  · next rest hrest =>
    obtain rfl := Except.ok.inj ((fromByte_append pre text).symm.trans hrest)
    rw [hscanner, ok_bind, (hlinked.1.closed hlinked.2).checkedLongestMatch_eq, ok_bind]
    split
    · next hnone =>
      rw [← hfound, hnone]
      rfl
    · next m hm =>
      have hafter : ((s.newLexicalState? m.token).bind lx.stateIndex?).getD q =
          lx.stateAfter q m.token := by
        rw [stateAfter, hs, Option.bind_some]
      rw [← hfound, hm]
      dsimp only
      rw [hstate, ok_bind, hafter]

/-- Splitting keeps to lexical states that exist and to offsets between characters; the induction is
on what is left of the text. -/
theorem checkedTokenizeFrom_eq (h : lx.Coherent)
    (hlinked : ∀ (i : Nat) s, lx.states[i]? = some s → s.Linked ∧ s.Numbered) {q : Nat}
    (hq : q < lx.states.size) (pre text : List Char) :
    lx.checkedTokenizeFrom (lx.states.map (·.scanner)) (pre ++ text) q (byteLength pre) =
      .ok (lx.tokenizeFrom (lx.states.map (·.scanner)) q (byteLength pre) text) := by
  generalize hoffset : byteLength pre = offset
  induction q, offset, text using tokenizeFrom_induction lx (lx.states.map (·.scanner))
    generalizing pre with
  | nil q offset =>
      rw [tokenizeFrom_nil, checkedTokenizeFrom, List.append_nil, ← hoffset]
      exact dif_neg (Nat.lt_irrefl (byteLength pre))
  | fault q offset text hne hnone =>
      obtain ⟨s, hs⟩ : ∃ s, lx.states[q]? = some s := ⟨_, Array.getElem?_eq_getElem hq⟩
      have hstep := checkedTokenizeFrom_append hs (hlinked q s hs) pre hne
      rw [← nextMatch?_eq hs, hnone, hoffset] at hstep
      rw [hstep, tokenizeFrom_of_eq_none hne hnone]
  | token q offset word text m hm hword hlength ih =>
      obtain ⟨s, hs⟩ : ∃ s, lx.states[q]? = some s := ⟨_, Array.getElem?_eq_getElem hq⟩
      obtain ⟨-, hlt⟩ := @switches_stateAfter lx q m.token s h hs
      -- the match ends where a word does, so that the offset behind it lies between characters
      have hmore := ih hlt (pre ++ word) (by rw [byteLength_append, hoffset])
      rw [List.append_assoc] at hmore
      have hstep := checkedTokenizeFrom_append hs (hlinked q s hs) pre
        (List.append_ne_nil_of_left_ne_nil hword text)
      rw [← nextMatch?_eq hs, hm] at hstep
      dsimp only at hstep
      rw [hoffset, hlength, hmore] at hstep
      rw [hstep, tokenizeFrom_append hm hword hlength]
      rfl

theorem checkedTokenize_eq (h : lx.Coherent)
    (hlinked : ∀ (i : Nat) s, lx.states[i]? = some s → s.Linked ∧ s.Numbered) (text : String) :
    lx.checkedTokenize text = .ok (lx.tokenize text) := by
  have hscanners : lx.states.toList.mapM (·.checkedScanner) =
      .ok (lx.states.toList.map (·.scanner)) := by
    refine mapM_eq_ok_map fun s hs => ?_
    obtain ⟨i, hi⟩ := Array.mem_iff_getElem?.mp (Array.mem_toList_iff.mp hs)
    exact (hlinked i s hi).1.checkedScanner_eq
  have hmap : (lx.states.toList.map (·.scanner)).toArray = lx.states.map (·.scanner) := by
    rw [← Array.toList_map, Array.toArray_toList]
  rw [checkedTokenize, hscanners, ok_bind, hmap]
  exact checkedTokenizeFrom_eq h hlinked h.states_pos [] text.toList

end Lexer

end ScannerTables
