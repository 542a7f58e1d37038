import ScannerTables.Proofs.Bookkeeping
/-!
# Generated names do not clash

Names of dispatch methods and of move arrays are a stem that tells the lexical state, and a number.
No stem ends in a digit, so a name can be taken apart again: the number is all the digits at its
end. A stem in turn tells the lexical state, whatever characters its name is made of, for what
stands before and behind the name is fixed and the default lexical state has a stem that no other
can have. What is left is that names of lexical states are distinct, that the first of them is the
only default one, and that a number belongs to one composite or state.
-/

namespace ScannerTables

/-! ### A number behind a stem -/

/-- A text that does not end in a digit. -/
def NoTrailingDigit (text : String) : Prop := ∀ c ∈ text.toList.getLast?, c.isDigit = false

variable {text front front' : String} {n n' : Nat}

theorem NoTrailingDigit.append (h : NoTrailingDigit text) (hne : text ≠ "") (front : String) :
    NoTrailingDigit (front ++ text) := by
  have hchars : text.toList ≠ [] := fun hnil => hne (String.toList_eq_nil_iff.mp hnil)
  rw [NoTrailingDigit, String.toList_append, List.getLast?_append_of_ne_nil _ hchars]
  exact h

theorem isDigit_of_mem_toString {c : Char} (hc : c ∈ (toString n).toList) : c.isDigit = true := by
  rw [Nat.toString_eq_repr, Nat.toList_repr] at hc
  exact Nat.isDigit_of_mem_toDigits (by decide) (by decide) hc

/-- Nothing but the empty text is both the end of a text that does not end in a digit and the
beginning of a number. -/
theorem eq_of_toList_eq_append {x rest : List Char} (h : NoTrailingDigit front')
    (hx : front'.toList = front.toList ++ x) (hdigits : (toString n).toList = x ++ rest) :
    front' = front := by
  cases List.eq_nil_or_concat x with
  | inl hnil =>
      rw [hnil, List.append_nil] at hx
      exact String.toList_inj.mp hx
  | inr hconcat =>
      obtain ⟨x, c, rfl⟩ := hconcat
      have hfalse : c.isDigit = false := h c (by rw [hx]; simp)
      have htrue : c.isDigit = true := isDigit_of_mem_toString (n := n) (by rw [hdigits]; simp)
      exact absurd (hfalse.symm.trans htrue) Bool.false_ne_true

/-- A number can be told from a text before it that does not end in a digit. -/
theorem eq_of_append_toString_eq (h : NoTrailingDigit front) (h' : NoTrailingDigit front')
    (heq : front ++ toString n = front' ++ toString n') : front = front' ∧ n = n' := by
  have hchars : front.toList ++ (toString n).toList = front'.toList ++ (toString n').toList := by
    rw [← String.toList_append, ← String.toList_append, heq]
  have hfront : front = front' := by
    obtain ⟨x, hx, hdigits⟩ | ⟨x, hx, hdigits⟩ := List.append_eq_append_iff.mp hchars
    · exact (eq_of_toList_eq_append h' hx hdigits).symm
    · exact eq_of_toList_eq_append h hx hdigits
  subst hfront
  exact ⟨rfl, Nat.repr_inj.mp ((String.append_right_inj front).mp heq)⟩

/-- What stands at one position of a list is one thing. -/
theorem eq_of_idxOf?_eq {l : List Nat} {a b : Nat} (h : l.idxOf? a = some n)
    (h' : l.idxOf? b = some n) : a = b := by
  obtain ⟨_, heq, -⟩ := List.idxOf?_eq_some_iff.mp h
  obtain ⟨_, heq', -⟩ := List.idxOf?_eq_some_iff.mp h'
  exact heq.symm.trans heq'

/-! ### Stems -/

/-- A text for the default lexical state and two to put around the names of others, none of which
makes a stem that could be taken for another. -/
structure Unambiguous (bare front back : String) : Prop where
  bare_noTrailingDigit : NoTrailingDigit bare
  back_noTrailingDigit : NoTrailingDigit back
  back_ne : back ≠ ""
  bare_ne : ∀ name, bare ≠ front ++ name ++ back

theorem unambiguous_method : Unambiguous "NfaIndex" "NfaName" "Index" where
  bare_noTrailingDigit := by simp [NoTrailingDigit]
  back_noTrailingDigit := by simp [NoTrailingDigit]
  back_ne := by decide
  bare_ne name heq := by simpa using congrArg String.toList heq

theorem unambiguous_movesArray : Unambiguous "NFA_MOVES_" "NFA_MOVES_" "_" where
  bare_noTrailingDigit := by simp [NoTrailingDigit]
  back_noTrailingDigit := by simp [NoTrailingDigit]
  back_ne := by decide
  bare_ne name heq := by simpa using congrArg String.toList heq

namespace LexicalState

variable {s t : LexicalState} {bare front back : String} {id id' : Nat}

/-- What generated names of a lexical state begin with. -/
def stem (s : LexicalState) (bare front back : String) : String :=
  if s.isDefault then bare else front ++ s.name ++ back

theorem methodName_eq (s : LexicalState) (index : Nat) :
    s.methodName index = s.stem "NfaIndex" "NfaName" "Index" ++ toString index := by
  rw [methodName, stem]
  split <;> rfl

theorem movesArrayName_eq (s : LexicalState) (i : Nat) :
    s.movesArrayName i = s.stem "NFA_MOVES_" "NFA_MOVES_" "_" ++ toString i := by
  rw [movesArrayName, stem]
  split <;> rfl

theorem noTrailingDigit_stem (h : Unambiguous bare front back) :
    NoTrailingDigit (s.stem bare front back) := by
  rw [stem]
  split
  · exact h.bare_noTrailingDigit
  · exact h.back_noTrailingDigit.append h.back_ne _

/-- A stem tells whether a lexical state is the default one, and the name of any other. -/
theorem eq_of_stem_eq (h : Unambiguous bare front back)
    (heq : s.stem bare front back = t.stem bare front back) :
    s.isDefault = t.isDefault ∧ (s.isDefault = false → s.name = t.name) := by
  rw [stem, stem] at heq
  cases hs : s.isDefault <;> cases ht : t.isDefault <;> rw [hs, ht] at heq
  · refine ⟨rfl, fun _ => ?_⟩
    exact (String.append_right_inj front).mp ((String.append_left_inj back).mp heq)
  · exact absurd heq.symm (h.bare_ne s.name)
  · exact absurd heq (h.bare_ne t.name)
  · exact ⟨rfl, fun hfalse => absurd hfalse.symm Bool.false_ne_true⟩

/-- An index belongs to one place in the store of composites. -/
theorem Numbered.eq_of_indexOf?_eq (hs : s.Numbered) (h : s.indexOf? id = some n)
    (h' : s.indexOf? id' = some n) : id = id' :=
  eq_of_idxOf?_eq ((hs.indexOf?_eq id).symm.trans h) ((hs.indexOf?_eq id').symm.trans h')

end LexicalState

namespace Lexer

variable {lx : Lexer} {i j : Nat} {s t : LexicalState} {bare front back : String}

/-- Of a generated name, the number and the place of its lexical state can be told. -/
theorem Reachable.eq_of_stem_append_eq (h : lx.Reachable) (hs : lx.states[i]? = some s)
    (ht : lx.states[j]? = some t) (hformat : Unambiguous bare front back)
    (heq : s.stem bare front back ++ toString n = t.stem bare front back ++ toString n') :
    i = j ∧ n = n' := by
  obtain ⟨hstem, hn⟩ := eq_of_append_toString_eq (LexicalState.noTrailingDigit_stem hformat)
    (LexicalState.noTrailingDigit_stem hformat) heq
  refine ⟨?_, hn⟩
  obtain ⟨hdefault, hname⟩ := LexicalState.eq_of_stem_eq hformat hstem
  cases hfirst : s.isDefault with
  | true =>
      have hi : i = 0 := (h.ledger.isDefault_iff i s hs).mp hfirst
      have hj : j = 0 := (h.ledger.isDefault_iff j t ht).mp (hdefault ▸ hfirst)
      exact hi.trans hj.symm
  | false => exact h.coherent.name_inj hs ht (hname hfirst)

/-- Generated names are distinct. Whatever the names of the lexical states are, two composites with
indices that have the same method name are the same composite of the same lexical state, and two
states with move code that have the same array name are the same state of the same lexical state. -/
theorem identifiers_distinct (lx : Lexer) (h : lx.Reachable) (i j : Nat) (s t : LexicalState)
    (hs : lx.states[i]? = some s) (ht : lx.states[j]? = some t) :
    (∀ c c' : Composite, s.composite? c.id = some c → t.composite? c'.id = some c' →
      c.index.isSome → c'.index.isSome → s.methodName? c = t.methodName? c' → i = j ∧ c = c') ∧
    (∀ m ∈ s.movers, ∀ m' ∈ t.movers, s.movesArrayName? m = t.movesArrayName? m' →
      i = j ∧ m = m') := by
  constructor
  · intro c c' hc hc' hindex hindex' heq
    obtain ⟨n, hn⟩ := Option.isSome_iff_exists.mp hindex
    obtain ⟨n', hn'⟩ := Option.isSome_iff_exists.mp hindex'
    simp only [LexicalState.methodName?, hn, hn', Option.map_some, Option.some.injEq,
      LexicalState.methodName_eq] at heq
    obtain ⟨rfl, rfl⟩ := h.eq_of_stem_append_eq hs ht unambiguous_method heq
    obtain rfl := Option.some.inj (hs.symm.trans ht)
    refine ⟨rfl, ?_⟩
    have hid : c.id = c'.id := by
      obtain ⟨members, -, hmembers⟩ := Option.map_eq_some_iff.mp hc
      obtain ⟨members', -, hmembers'⟩ := Option.map_eq_some_iff.mp hc'
      refine (h.called hs).kept.numbered.eq_of_indexOf?_eq (n := n) ?_ ?_
      · exact (congrArg Composite.index hmembers).trans hn
      · exact (congrArg Composite.index hmembers').trans hn'
    exact Option.some.inj (hc.symm.trans (hid ▸ hc'))
  · intro m hm m' hm' heq
    obtain ⟨n, hn⟩ := Option.isSome_iff_exists.mp (List.isSome_idxOf?.mpr hm)
    obtain ⟨n', hn'⟩ := Option.isSome_iff_exists.mp (List.isSome_idxOf?.mpr hm')
    simp only [(h.called hs).kept.numbered.movesArrayName?_eq,
      (h.called ht).kept.numbered.movesArrayName?_eq, hn, hn', Option.map_some,
      Option.some.injEq, LexicalState.movesArrayName_eq] at heq
    obtain ⟨rfl, rfl⟩ := h.eq_of_stem_append_eq hs ht unambiguous_movesArray heq
    obtain rfl := Option.some.inj (hs.symm.trans ht)
    exact ⟨rfl, eq_of_idxOf?_eq hn hn'⟩

/-- One lexical state without a name, and another whose name continues the names of the first. -/
theorem identifiers_distinct_nameless : ∃ (lx : Lexer) (s t : LexicalState) (c c' : Composite),
    lx.Reachable ∧ lx.states[1]? = some s ∧ lx.states[2]? = some t ∧
      s.methodName? c = some "NfaNameIndex0" ∧ t.methodName? c' = some "NfaNameIndex0Index0" ∧
        s.methodName? c ≠ t.methodName? c' ∧
          ∃ m ∈ s.movers, ∃ m' ∈ t.movers, s.movesArrayName? m ≠ t.movesArrayName? m' := by
  let commands : List Command := [
    .addLexicalState "", .addLexicalState "Index0", .addDefinition (.ofLiteral "ab"),
    .addTokenProduction { lexicalStates := ["", "Index0"], specs := [{ token := 1 }] }, .build]
  let lx := commands.foldl Command.run (new {})
  have h : lx.Reachable := (Reachable.new _).foldl commands
  have hfirst : (lx.states[1]?.any fun s => decide (1 ∈ s.movers) &&
      (s.composite? 0).any fun c => c.id == 0 &&
        s.methodName? c == some "NfaNameIndex0") = true := by
    dsimp only [lx, commands]
    cbv
  have hsecond : (lx.states[2]?.any fun t => decide (1 ∈ t.movers) &&
      (t.composite? 0).any fun c => c.id == 0 &&
        t.methodName? c == some "NfaNameIndex0Index0") = true := by
    dsimp only [lx, commands]
    cbv
  obtain ⟨s, hs, hfirst⟩ := (Option.any_eq_true _ _).mp hfirst
  obtain ⟨t, ht, hsecond⟩ := (Option.any_eq_true _ _).mp hsecond
  simp only [Bool.and_eq_true, decide_eq_true_eq, Option.any_eq_true, beq_iff_eq] at hfirst hsecond
  obtain ⟨hm, c, hc, hid, hname⟩ := hfirst
  obtain ⟨hm', c', hc', hid', hname'⟩ := hsecond
  obtain ⟨hmethods, harrays⟩ := identifiers_distinct lx h 1 2 s t hs ht
  refine ⟨lx, s, t, c, c', h, hs, ht, hname, hname', fun heq => ?_, 1, hm, 1, hm', fun heq => ?_⟩
  · refine absurd (hmethods c c' (hid ▸ hc) (hid' ▸ hc') ?_ ?_ heq).1 (by decide)
    · exact Option.isSome_map.symm.trans (Option.isSome_of_eq_some hname)
    · exact Option.isSome_map.symm.trans (Option.isSome_of_eq_some hname')
  · exact absurd (harrays 1 hm 1 hm' heq).1 (by decide)

end Lexer

end ScannerTables
