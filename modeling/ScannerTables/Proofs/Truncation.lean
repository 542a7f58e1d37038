import Mathlib
import ScannerTables.Proofs.Tokenization
/-!
# Texts that end early

A scan looks past the end of a token for a longer one, and composites stay active on characters that
no token takes in the end. A longest match nevertheless depends on the characters that it takes
alone: `Scanner.longestMatch_append` cuts a text anywhere behind its match. So a text that is cut
where one of its tokens ends is split into the tokens up to there, whatever followed it, and the
scan ends without a fault.
-/

namespace ScannerTables

/-! ### Matches -/

namespace Scanner

variable {sc : Scanner} {active : IntervalSet} {taken : Nat} {best : Option ScanMatch}
variable {word text : List Char} {m : ScanMatch}

/-- What is left of a text may be cut behind the longest match. -/
theorem longestFrom_append (h : sc.longestFrom active taken best (word ++ text) = some m)
    (hle : m.length ≤ taken + byteLength word) :
    sc.longestFrom active taken best word = some m := by
  induction word generalizing active taken best with
  | nil =>
      -- with nothing left the match is the one known before, as any later one is longer
      rcases exists_step_of_longestFrom h with hbest | ⟨-, later, rest, -, hne, hlength⟩
      · exact hbest
      · have := byteLength_pos hne
        change m.length ≤ taken at hle
        omega
  | cons c word ih =>
      rw [List.cons_append, longestFrom_cons] at h
      rw [longestFrom_cons]
      dsimp only at h ⊢
      split at h
      · next hempty => rwa [if_pos hempty]
      · next hactive =>
        rw [if_neg hactive]
        rw [byteLength_cons, ← Nat.add_assoc] at hle
        exact ih h hle

/-- A longest match depends on the characters that it takes alone. -/
theorem longestMatch_append (h : sc.longestMatch (word ++ text) = some m)
    (hle : m.length ≤ byteLength word) : sc.longestMatch word = some m := by
  rw [longestMatch] at h ⊢
  split at h
  · exact absurd h (Option.some_ne_none m).symm
  · next hne =>
    rw [if_neg hne]
    exact longestFrom_append h (hle.trans (Nat.le_add_left _ _))

end Scanner

/-! ### Tokens -/

/-- Where tokens end that follow each other from an offset. -/
def endOf (start : Nat) (tokens : List ScanToken) : Nat :=
  (tokens.getLast?.map (·.stop)).getD start

theorem endOf_cons (start : Nat) (t : ScanToken) (tokens : List ScanToken) :
    endOf start (t :: tokens) = endOf t.stop tokens := by
  rw [endOf, endOf, List.getLast?_cons]
  cases tokens.getLast? <;> rfl

namespace Lexer

variable {lx : Lexer} {scanners : Array Scanner} {q offset : Nat} {word text : List Char}
variable {m : ScanMatch}

theorem nextMatch?_append (h : nextMatch? scanners q (word ++ text) = some m)
    (hle : m.length ≤ byteLength word) : nextMatch? scanners q word = some m := by
  obtain ⟨hmatch, hpos⟩ := Option.filter_eq_some_iff.mp h
  obtain ⟨sc, hsc, hmatch⟩ := Option.bind_eq_some_iff.mp hmatch
  apply Option.filter_eq_some_iff.mpr
  refine ⟨?_, hpos⟩
  apply Option.bind_eq_some_iff.mpr
  exact ⟨sc, hsc, Scanner.longestMatch_append hmatch hle⟩

/-- Cutting a text behind any number of its tokens, by induction on that number. -/
theorem exists_tokenizeFrom_cut (lx : Lexer) (scanners : Array Scanner) (q offset k : Nat)
    (text : List Char) :
    let tokens := (lx.tokenizeFrom scanners q offset text).tokens.take k
    ∃ pre rest, text = pre ++ rest ∧ offset + byteLength pre = endOf offset tokens ∧
      lx.tokenizeFrom scanners q offset pre = { tokens, noMatch := none } := by
  dsimp only
  induction k generalizing q offset text with
  | zero => exact ⟨[], text, rfl, rfl, by rw [List.take_zero, tokenizeFrom_nil]⟩
  | succ k ih =>
      cases hm : nextMatch? scanners q text with
      | none =>
          have hnil : (lx.tokenizeFrom scanners q offset text).tokens = [] := by
            by_cases hne : text = []
            · rw [hne, tokenizeFrom_nil]
            · rw [tokenizeFrom_of_eq_none hne hm]
          rw [hnil, List.take_nil]
          exact ⟨[], text, rfl, rfl, tokenizeFrom_nil⟩
      | some m =>
          obtain ⟨word, text, rfl, hword, hlength⟩ := exists_append_of_nextMatch? hm
          obtain ⟨pre, rest, rfl, hend, hrest⟩ :=
            ih (lx.stateAfter q m.token) (offset + byteLength word) text
          refine ⟨word ++ pre, rest, (List.append_assoc _ _ _).symm, ?_, ?_⟩
          · rw [tokenizeFrom_append hm hword hlength, List.take_succ_cons, endOf_cons, ← hend,
              byteLength_append, Nat.add_assoc]
          · have hcut : nextMatch? scanners q (word ++ pre) = some m := by
              rw [← List.append_assoc] at hm
              refine nextMatch?_append hm ?_
              rw [hlength, byteLength_append]
              exact Nat.le_add_right _ _
            rw [tokenizeFrom_append hcut hword hlength, tokenizeFrom_append hm hword hlength]
            dsimp only
            rw [hrest, List.take_succ_cons]

/-- A scan that fails does so where its tokens end. -/
theorem offset_eq_endOf {e : NoMatch}
    (h : (lx.tokenizeFrom scanners q offset text).noMatch = some e) :
    e.offset = endOf offset (lx.tokenizeFrom scanners q offset text).tokens := by
  induction q, offset, text using tokenizeFrom_induction lx scanners with
  | nil q offset =>
      rw [tokenizeFrom_nil] at h
      exact absurd h (Option.some_ne_none e).symm
  | fault q offset text hne hnone =>
      rw [tokenizeFrom_of_eq_none hne hnone] at h ⊢
      exact (congrArg NoMatch.offset (Option.some.inj h)).symm
  | token q offset word text m hm hword hlength ih =>
      rw [tokenizeFrom_append hm hword hlength] at h ⊢
      rw [endOf_cons]
      exact ih h

/-- A text that is cut where one of its tokens ends is split into the tokens up to there, and the
scan reaches the end of it: behind any number of tokens, and before what cannot be matched if the
scan of the whole text fails. -/
theorem tokenize_truncated (lx : Lexer) (text : String) :
    (∀ k, ∃ pre rest : String, text = pre ++ rest ∧
      pre.utf8ByteSize = endOf 0 ((lx.tokenize text).tokens.take k) ∧
        lx.tokenize pre = { tokens := (lx.tokenize text).tokens.take k, noMatch := none }) ∧
    ∀ e, (lx.tokenize text).noMatch = some e → ∃ pre rest : String, text = pre ++ rest ∧
      pre.utf8ByteSize = e.offset ∧
        lx.tokenize pre = { tokens := (lx.tokenize text).tokens, noMatch := none } := by
  have hcut : ∀ k, ∃ pre rest : String, text = pre ++ rest ∧
      pre.utf8ByteSize = endOf 0 ((lx.tokenize text).tokens.take k) ∧
        lx.tokenize pre = { tokens := (lx.tokenize text).tokens.take k, noMatch := none } := by
    intro k
    obtain ⟨pre, rest, htext, hend, htokens⟩ :=
      lx.exists_tokenizeFrom_cut (lx.states.map (·.scanner)) 0 0 k text.toList
    refine ⟨String.ofList pre, String.ofList rest, ?_, ?_, ?_⟩
    · rw [← String.ofList_append, ← htext, String.ofList_toList]
    · rwa [← byteLength_eq, ← Nat.zero_add (byteLength _)]
    · rwa [tokenize, String.toList_ofList]
  refine ⟨hcut, fun e he => ?_⟩
  obtain ⟨pre, rest, htext, hend, htokens⟩ := hcut (lx.tokenize text).tokens.length
  rw [List.take_length] at hend htokens
  exact ⟨pre, rest, htext, hend.trans (offset_eq_endOf he).symm, htokens⟩

/-- In `ééa` the second token is matched in view of `éab`, and then nothing matches `a`: the text is
cut behind the first token and before the fault. -/
theorem tokenize_truncated_ahead : ∃ (lx : Lexer) (pre pre' : String),
    lx.tokenize "ééa" = {
      tokens := [⟨1, .token, 0, 2⟩, ⟨1, .token, 2, 4⟩]
      noMatch := some { offset := 4, lexicalState := "DEFAULT" } } ∧
    pre.utf8ByteSize = 2 ∧ lx.tokenize pre = { tokens := [⟨1, .token, 0, 2⟩], noMatch := none } ∧
    pre'.utf8ByteSize = 4 ∧ (lx.tokenize pre').noMatch = none := by
  let commands : List Command := [
    .addDefinition (.ofLiteral "é"), .addDefinition (.ofLiteral "éab"),
    .addTokenProduction { specs := [{ token := 1 }, { token := 2 }] }, .build]
  let lx := commands.foldl Command.run (new {})
  have hsplit : lx.tokenize "ééa" = {
      tokens := [⟨1, .token, 0, 2⟩, ⟨1, .token, 2, 4⟩]
      noMatch := some { offset := 4, lexicalState := "DEFAULT" } } := by
    dsimp only [lx, commands]
    cbv
  obtain ⟨hcut, hfault⟩ := tokenize_truncated lx "ééa"
  rw [hsplit] at hcut hfault
  obtain ⟨pre, -, -, hsize, htokens⟩ := hcut 1
  obtain ⟨pre', -, -, hsize', htokens'⟩ := hfault _ rfl
  refine ⟨lx, pre, pre', hsplit, hsize, htokens, hsize', ?_⟩
  rw [htokens']

end Lexer

end ScannerTables
