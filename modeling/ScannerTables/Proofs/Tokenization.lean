import Mathlib
import ScannerTables.Proofs.History
import ScannerTables.Proofs.Scan
import ScannerTables.Scan.Tokens
/-!
# Splitting by longest matches

A text is split into words that follow each other without a gap, each of them the longest match of
what is left of the text in the lexical state that is in force. `Lexer.Splits` says so for any part
of a run, in terms of words and lexical states alone; the tokens carry the words as byte offsets.
-/

namespace ScannerTables

namespace Lexer

variable {lx : Lexer} {q q' offset token : Nat} {text : List Char} {s : LexicalState}

/-! ### What a split is -/

/-- The lexical state that is in force after a token: the one that the token switches to, which is
declared, and else the same. -/
inductive Switches (lx : Lexer) (s : LexicalState) (q token : Nat) : Nat → Prop
  | stay (h : s.newLexicalState? token = none) : Switches lx s q token q
  | switch {name : String} {q' : Nat} (h : s.newLexicalState? token = some name)
      (hq : lx.stateIndex? name = some q') : Switches lx s q token q'

/-- How a text that begins at an offset is split, from one lexical state to another, up to the rest
of it: each word is the longest match of itself with all that follows. -/
inductive Splits (lx : Lexer) :
    Nat → Nat → List Char → List ScanToken → Nat → Nat → List Char → Prop
  | done (q offset : Nat) (rest : List Char) : Splits lx q offset rest [] q offset rest
  | token {q q₁ q₂ offset stop token : Nat} {s : LexicalState} {word text rest : List Char}
      {tokens : List ScanToken} (hs : lx.states[q]? = some s) (hword : word ≠ [])
      (hmatch : s.scanner.longestMatch (word ++ text) = some { token, length := byteLength word })
      (hnext : lx.Switches s q token q₁)
      (htail : Splits lx q₁ (offset + byteLength word) text tokens q₂ stop rest) :
      Splits lx q offset (word ++ text)
        ({ token, kind := (lx.tokenKind? token).getD default, start := offset
           stop := offset + byteLength word } :: tokens) q₂ stop rest

/-- Spans that are not empty and follow each other without a gap, from one offset to another. -/
def Contiguous : Nat → List ScanToken → Nat → Prop
  | start, [], stop => start = stop
  | start, t :: ts, stop => t.start = start ∧ t.start < t.stop ∧ Contiguous t.stop ts stop

/-- Why a split ends: the text does, or the lexical state that is reported matches nothing of the
rest, which begins at the offset that is reported. -/
def Ends (lx : Lexer) (q offset : Nat) (rest : List Char) : Option NoMatch → Prop
  | none => rest = []
  | some e => rest ≠ [] ∧ e.offset = offset ∧ ∃ s, lx.states[q]? = some s ∧
      lx.state? e.lexicalState = some s ∧ s.scanner.longestMatch rest = none

theorem Splits.contiguous {tokens : List ScanToken} {stop : Nat} {rest : List Char}
    (h : lx.Splits q offset text tokens q' stop rest) : Contiguous offset tokens stop := by
  induction h with
  | done => rfl
  | token _ hword _ _ _ ih =>
      have := byteLength_pos hword
      exact ⟨rfl, by simp only; omega, ih⟩

/-- What is split off and the rest make up the text. -/
theorem Splits.exists_append {tokens : List ScanToken} {stop : Nat} {rest : List Char}
    (h : lx.Splits q offset text tokens q' stop rest) :
    ∃ pre, text = pre ++ rest ∧ stop = offset + byteLength pre := by
  induction h with
  | done => exact ⟨[], rfl, rfl⟩
  | @token _ _ _ _ _ _ _ word _ _ _ _ _ _ _ _ ih =>
      obtain ⟨pre, rfl, rfl⟩ := ih
      exact ⟨word ++ pre, (List.append_assoc _ _ _).symm, by rw [byteLength_append]; omega⟩

/-- Each token that is split off was matched in some lexical state. -/
theorem Splits.exists_match {tokens : List ScanToken} {stop : Nat} {rest : List Char}
    (h : lx.Splits q offset text tokens q' stop rest) {t : ScanToken} (ht : t ∈ tokens) :
    ∃ (i : Nat) (s : LexicalState) (text : List Char) (m : ScanMatch), lx.states[i]? = some s ∧
      s.scanner.longestMatch text = some m ∧ m.token = t.token := by
  induction h with
  | done => exact absurd ht List.not_mem_nil
  | token hs _ hmatch _ _ ih =>
      rcases List.mem_cons.mp ht with rfl | ht
      · exact ⟨_, _, _, _, hs, hmatch, rfl⟩
      · exact ih ht

/-! ### What a scanner is asked -/

theorem switches_stateAfter (h : lx.Coherent) (hs : lx.states[q]? = some s) :
    lx.Switches s q token (lx.stateAfter q token) ∧ lx.stateAfter q token < lx.states.size := by
  rw [stateAfter, hs, Option.bind_some]
  cases hname : s.newLexicalState? token with
  | none => exact ⟨.stay hname, (Array.getElem?_eq_some_iff.mp hs).1⟩
  | some name =>
      have hmem := LexicalState.mem_of_newLexicalState? hname
      obtain ⟨q', hq'⟩ := Option.isSome_iff_exists.mp (h.transitions q s hs _ hmem)
      rw [Option.bind_some, hq', Option.getD_some]
      obtain ⟨t, ht, -⟩ := (h.located name q').mp hq'
      exact ⟨.switch hname hq', (Array.getElem?_eq_some_iff.mp ht).1⟩

theorem nextMatch?_eq (hs : lx.states[q]? = some s) :
    nextMatch? (lx.states.map (·.scanner)) q text = s.scanner.longestMatch text := by
  rw [nextMatch?, Array.getElem?_map, hs, Option.map_some, Option.bind_some]
  cases hm : s.scanner.longestMatch text with
  | none => rfl
  | some m => simp [Option.filter, Scanner.length_pos_of_longestMatch hm]

/-! ### One token at a time -/

theorem dropBytes_append (word text : List Char) :
    dropBytes (byteLength word) (word ++ text) = text := by
  induction word with
  | nil => cases text <;> rfl
  | cons c word ih =>
      obtain ⟨n, heq⟩ := Nat.exists_eq_add_one.mpr (byteLength_pos (List.cons_ne_nil c word))
      rw [heq, List.cons_append, dropBytes, ← heq, byteLength_cons, Nat.add_sub_cancel_left, ih]

section

variable {scanners : Array Scanner} {m : ScanMatch} {word : List Char}

/-- The next match is a word at the start of the text. -/
theorem exists_append_of_nextMatch? (h : nextMatch? scanners q text = some m) :
    ∃ word rest, text = word ++ rest ∧ word ≠ [] ∧ m.length = byteLength word := by
  obtain ⟨hmatch, -⟩ := Option.filter_eq_some_iff.mp h
  obtain ⟨sc, -, hmatch⟩ := Option.bind_eq_some_iff.mp hmatch
  exact Scanner.exists_append_of_longestMatch hmatch

theorem tokenizeFrom_nil :
    lx.tokenizeFrom scanners q offset [] = { tokens := [], noMatch := none } := by
  rw [tokenizeFrom, if_pos rfl]

theorem tokenizeFrom_of_eq_none (hne : text ≠ []) (h : nextMatch? scanners q text = none) :
    lx.tokenizeFrom scanners q offset text = {
      tokens := []
      noMatch := some { offset, lexicalState := (lx.stateName? q).getD "" } } := by
  rw [tokenizeFrom, if_neg hne]
  split
  · rfl
  · next m hm => exact absurd (h.symm.trans hm) (Option.some_ne_none m).symm

/-- The first token of a text and those of the rest. -/
theorem tokenizeFrom_append (h : nextMatch? scanners q (word ++ text) = some m) (hne : word ≠ [])
    (hlength : m.length = byteLength word) :
    lx.tokenizeFrom scanners q offset (word ++ text) =
      let stop := offset + byteLength word
      let kind := (lx.tokenKind? m.token).getD default
      let rest := lx.tokenizeFrom scanners (lx.stateAfter q m.token) stop text
      { rest with tokens := { token := m.token, kind, start := offset, stop } :: rest.tokens } := by
  rw [tokenizeFrom, if_neg (List.append_ne_nil_of_left_ne_nil hne text)]
  split
  · next hnone => exact absurd (h.symm.trans hnone) (Option.some_ne_none m)
  · next m' hm' =>
    obtain rfl := Option.some.inj (h.symm.trans hm')
    rw [hlength, dropBytes_append]

/-- Induction on what is left of a text: nothing, something that is not matched, or a word that is
matched before what is left then. -/
@[elab_as_elim]
theorem tokenizeFrom_induction (lx : Lexer) (scanners : Array Scanner)
    {motive : Nat → Nat → List Char → Prop} (nil : ∀ q offset, motive q offset [])
    (fault : ∀ q offset text, text ≠ [] → nextMatch? scanners q text = none → motive q offset text)
    (token : ∀ q offset word text m, nextMatch? scanners q (word ++ text) = some m → word ≠ [] →
      m.length = byteLength word →
        motive (lx.stateAfter q m.token) (offset + byteLength word) text →
          motive q offset (word ++ text))
    (q offset : Nat) (text : List Char) : motive q offset text := by
  induction hn : text.length using Nat.strongRecOn generalizing q offset text with
  | _ n ih =>
      by_cases hne : text = []
      · exact hne ▸ nil q offset
      · cases hm : nextMatch? scanners q text with
        | none => exact fault q offset text hne hm
        | some m =>
            obtain ⟨word, rest, rfl, hword, hlength⟩ := exists_append_of_nextMatch? hm
            have hlt : rest.length < n := by
              have := List.length_pos_iff.mpr hword
              rw [← hn, List.length_append]
              omega
            exact token q offset word rest m hm hword hlength (ih rest.length hlt _ _ rest rfl)

end

/-! ### Tokenizing splits -/

/-- Splitting from any lexical state and offset, by induction on what is left of the text. -/
theorem splits_tokenizeFrom (h : lx.Coherent) (hq : q < lx.states.size) (offset : Nat)
    (text : List Char) : ∃ q' stop rest,
      lx.Splits q offset text (lx.tokenizeFrom (lx.states.map (·.scanner)) q offset text).tokens
        q' stop rest ∧
      lx.Ends q' stop rest (lx.tokenizeFrom (lx.states.map (·.scanner)) q offset text).noMatch := by
  induction q, offset, text using tokenizeFrom_induction lx (lx.states.map (·.scanner)) with
  | nil q offset =>
      rw [tokenizeFrom_nil]
      exact ⟨q, offset, [], .done q offset [], rfl⟩
  | fault q offset text hne hnone =>
      obtain ⟨s, hs⟩ : ∃ s, lx.states[q]? = some s := ⟨_, Array.getElem?_eq_getElem hq⟩
      rw [tokenizeFrom_of_eq_none hne hnone]
      refine ⟨q, offset, text, .done q offset text, hne, rfl, s, hs, ?_, ?_⟩
      · rw [stateName?, hs, Option.map_some, Option.getD_some, state?, h.stateIndex?_eq hs]
        exact hs
      · rwa [nextMatch?_eq hs] at hnone
  | token q offset word text m hm hword hlength ih =>
      obtain ⟨s, hs⟩ : ∃ s, lx.states[q]? = some s := ⟨_, Array.getElem?_eq_getElem hq⟩
      rw [tokenizeFrom_append hm hword hlength]
      rw [nextMatch?_eq hs] at hm
      obtain ⟨hswitch, hlt⟩ := @switches_stateAfter lx q m.token s h hs
      obtain ⟨q', stop, rest, htail, hends⟩ := ih hlt
      have hmatch : s.scanner.longestMatch (word ++ text) =
          some { token := m.token, length := byteLength word } := by
        rw [hm, ← hlength]
      exact ⟨q', stop, rest, .token hs hword hmatch hswitch htail, hends⟩

/-- Tokenizing splits a text by longest matches, whatever commands made the lexer. The spans of the
tokens are not empty and follow each other from the start of the text to its end, or to where the
lexical state in force matches nothing of what is left. -/
theorem splits_tokenize (lx : Lexer) (text : String) (h : lx.Reachable) : ∃ q stop rest,
    lx.Splits 0 0 text.toList (lx.tokenize text).tokens q stop rest ∧
      lx.Ends q stop rest (lx.tokenize text).noMatch ∧
      Contiguous 0 (lx.tokenize text).tokens stop ∧
      ((lx.tokenize text).noMatch = none → stop = text.utf8ByteSize) ∧
      ∀ e, (lx.tokenize text).noMatch = some e → e.offset = stop ∧ stop < text.utf8ByteSize := by
  obtain ⟨q, stop, rest, hsplits, hends⟩ :=
    splits_tokenizeFrom h.coherent h.coherent.states_pos 0 text.toList
  refine ⟨q, stop, rest, hsplits, hends, hsplits.contiguous, fun hnone => ?_, fun e he => ?_⟩
  all_goals
    obtain ⟨pre, htext, hstop⟩ := hsplits.exists_append
    have hsize : text.utf8ByteSize = byteLength pre + byteLength rest := by
      rw [← byteLength_append, ← htext, byteLength_eq, String.ofList_toList]
  · have hrest : rest = [] := by
      rw [tokenize] at hnone
      rwa [hnone] at hends
    rw [hsize, hstop, hrest, Nat.zero_add]
    rfl
  · rw [tokenize] at he
    rw [he] at hends
    obtain ⟨hne, hoffset, -⟩ := hends
    have := byteLength_pos hne
    exact ⟨hoffset, by omega⟩

/-- Two lexical states that switch to each other: `<` and `>` are split in turn. -/
theorem splits_tokenize_brackets : ∃ (lx : Lexer) (q stop : Nat) (rest : List Char), lx.Reachable ∧
    lx.Splits 0 0 "<>".toList (lx.tokenize "<>").tokens q stop rest ∧
      (lx.tokenize "<>").tokens.map (·.token) = [1, 2] := by
  let commands : List Command := [
    .addLexicalState "IN", .addDefinition (.ofLiteral "<"), .addDefinition (.ofLiteral ">"),
    .addTokenProduction { specs := [{ token := 1, next := some "IN" }] },
    .addTokenProduction
      { lexicalStates := ["IN"], specs := [{ token := 2, next := some "DEFAULT" }] },
    .build]
  have h : (commands.foldl Command.run (new {})).Reachable := (Reachable.new {}).foldl commands
  obtain ⟨q, stop, rest, hsplits, -⟩ := splits_tokenize _ "<>" h
  exact ⟨_, q, stop, rest, h, hsplits, by cbv⟩

end Lexer

end ScannerTables
