import ScannerTables.Proofs.Checked
import ScannerTables.Proofs.Construction
/-!
# The states of a token

The builders of characters recognize the words of classes and of literals; with the operators that
makes the builder of every pattern recognize the language of the pattern, by induction on it, and
inlining does so by induction on the labels that are not yet being inlined. `Build.token` adds to
the fragment of its pattern a final state and one way in, which is all that a lexical state needs to
know of a token it builds.
-/

namespace ScannerTables

open Computability

/-- Induction on patterns, with the hypothesis for every unit and every alternative. -/
@[elab_as_elim] theorem Pattern.induction {P : Pattern → Prop}
    (charClass : ∀ k, P (charClass k)) (literal : ∀ text, P (literal text))
    (sequence : ∀ ps, (∀ p ∈ ps, P p) → P (sequence ps))
    (choice : ∀ ps, (∀ p ∈ ps, P p) → P (choice ps))
    (zeroOrMore : ∀ p, P p → P (zeroOrMore p)) (oneOrMore : ∀ p, P p → P (oneOrMore p))
    (zeroOrOne : ∀ p, P p → P (zeroOrOne p))
    (repetition : ∀ p min max, P p → P (repetition p min max))
    (reference : ∀ label, P (reference label)) (p : Pattern) : P p := by
  refine @Pattern.rec P (fun ps => ∀ p ∈ ps, P p) charClass literal sequence choice zeroOrMore
    oneOrMore zeroOrOne repetition reference ?_ ?_ p
  · exact fun _ hp => absurd hp List.not_mem_nil
  · exact fun p ps hp hps => List.forall_mem_cons.mpr ⟨hp, hps⟩

/-! ### Matchers -/

/-- A state that moves on characters only passes on the paths of its successor. -/
theorem Path.char_iff {M : Moves} {p q t : Nat} {w : List Nat} {accepts : Nat → Prop}
    (only : ∀ o x, M p o x ↔ ∃ c, o = some c ∧ accepts c ∧ x = q) (hne : p ≠ t) :
    Path M p w t ↔ ∃ c v, w = c :: v ∧ accepts c ∧ Path M q v t := by
  constructor
  · intro path
    cases path with
    | refl => exact absurd rfl hne
    | epsilon h =>
        obtain ⟨c, hc, -⟩ := (only _ _).mp h
        exact absurd hc.symm (Option.some_ne_none c)
    | char h rest =>
        obtain ⟨c, hc, hacc, rfl⟩ := (only _ _).mp h
        obtain rfl := Option.some.inj hc
        exact ⟨_, _, rfl, hacc, rest⟩
  · rintro ⟨c, v, rfl, hacc, rest⟩
    exact .char ((only _ _).mpr ⟨c, rfl, hacc, rfl⟩) rest

namespace State

/-- A state that moves on the characters of the ranges, to one state. -/
def matcher (token : Nat) (l : List Interval) (q : Nat) : State :=
  { token := some token, next := some q, ranges := l }

variable {token base size id q : Nat} {l : List Interval}

theorem movesTo_matcher (hl : Ascending l) (o : Option Nat) (t : Nat) :
    (matcher token l q).MovesTo o t ↔ ∃ c, o = some c ∧ Covers l c ∧ t = q := by
  cases o with
  | none => simp [MovesTo, matcher]
  | some c =>
      rw [MovesTo, accepts_iff hl]
      simp [matcher, eq_comm]

theorem placed_matcher (hl : Ascending l) (hbase : base ≤ q) (hsize : q < size) (hne : q ≠ id) :
    (matcher token l q).Placed token base size id where
  token_eq := rfl
  not_final := rfl
  epsilon_mem := by simp [State.matcher]
  epsilon_sorted := .nil
  next_mem t ht := by
    obtain rfl := Option.some.inj ht
    exact ⟨hbase, hsize, hne⟩
  ascending := hl
  matcher _ := rfl
  router := by simp [State.matcher]

theorem covers_setCharMove {s : State} {c d : Nat} {ignoreCase : Bool} :
    Covers (s.setCharMove c ignoreCase).ranges d ↔ CharVariant ignoreCase c d := by
  rw [setCharMove, covers_map_single]
  cases ignoreCase
  · simp [CharVariant]
  · exact mem_caseVariants

end State

namespace Build

variable {token n : Nat} {ignoreCase : Bool} {a : Automaton}

/-! ### Characters -/

/-- Replacing a state is a change that succeeds. -/
theorem wp_change_set {post : Unit → Automaton → Prop} {fail : Failure → Automaton → Prop}
    {f : Automaton → Except Misuse Automaton} {g : State → Except Misuse State} {i : Nat}
    {s s' : State} (hf : ∀ a, f a = a.update i g) (hs : a.state? i = some s) (hg : g s = .ok s')
    (hp : post () (a.set i s')) : WP (change f) post fail a :=
  (wp_change ((hf a).trans (Automaton.update_eq_ok.mpr ⟨s, s', hs, hg, rfl⟩))).mpr hp

/-- Ascending ranges are all added, behind the ranges that are there. -/
theorem wp_addRanges {fail : Failure → Automaton → Prop} {i : Nat} {l : List Interval} {s : State}
    (hs : a.state? i = some s) (hl : Ascending (s.ranges ++ l)) {post : Unit → Automaton → Prop}
    (hp : post () (a.set i { s with ranges := s.ranges ++ l })) :
    WP (l.forM fun r => change (·.addRange i r.lo r.hi)) post fail a := by
  induction l generalizing a s with
  | nil =>
      apply wp_pure.mpr
      rwa [List.append_nil, Automaton.set_state? hs] at hp
  | cons r l ih =>
      have hlt := Automaton.lt_size hs
      obtain ⟨hleft, hright, below⟩ := Ascending.append_iff.mp hl
      obtain ⟨hr, -, -⟩ := Ascending.cons_iff.mp hright
      have hadd : s.addRange r.lo r.hi = .ok { s with ranges := s.ranges ++ [r] } := by
        refine State.addRange_eq_ok.mpr ⟨?_, hr, rfl⟩
        intro last hlast
        exact below last (List.mem_of_getLast? hlast) r List.mem_cons_self
      refine wp_bind.mpr (wp_change_set (fun _ => rfl) hs hadd ?_)
      refine ih (s := { s with ranges := s.ranges ++ [r] }) (Automaton.state?_set_self hlt) ?_ ?_
      · rwa [List.append_assoc, List.singleton_append]
      · rwa [Automaton.set_set, List.append_assoc, List.singleton_append]

/-- Ascending ranges become the first of two new states, which moves to the second. -/
theorem wp_ranges {l : List Interval} (hl : Ascending l) {post : Fragment → Automaton → Prop}
    {fail : Failure → Automaton → Prop} (hp : post ⟨a.size, a.size + 1⟩
      ((brackets token a).set a.size (.matcher token l (a.size + 1)))) :
    WP (ranges token l) post fail a := by
  refine wp_brackets (wp_bind.mpr ?_)
  have hentry : (brackets token a).IsFresh a.size token := fresh_brackets_entry
  have hlt := Automaton.lt_size hentry
  refine wp_addRanges (a := brackets token a) hentry hl (wp_bind.mpr ?_)
  refine wp_change_set (fun _ => rfl) (Automaton.state?_set_self hlt)
    (if_neg (Nat.succ_ne_self a.size)) (wp_pure.mpr ?_)
  rwa [Automaton.set_set, List.nil_append]

theorem recognizes_ranges {l : List Interval} {L : Language Nat} (hl : Ascending l)
    (hL : ∀ w, w ∈ L ↔ ∃ c, Covers l c ∧ w = [c]) : Recognizes token L (ranges token l) := by
  intro a
  apply wp_ranges hl
  have hentry : (brackets token a).IsFresh a.size token := fresh_brackets_entry
  have hexit : (brackets token a).IsFresh (a.size + 1) token := fresh_brackets_exit
  have hlt := Automaton.lt_size hentry
  have hstate : ((brackets token a).set a.size (.matcher token l (a.size + 1))).state? a.size =
      some (.matcher token l (a.size + 1)) := Automaton.state?_set_self hlt
  have hfresh : ((brackets token a).set a.size (.matcher token l (a.size + 1))).IsFresh
      (a.size + 1) token := (Automaton.state?_set_ne (Nat.succ_ne_self _)).trans hexit
  have placed : (State.matcher token l (a.size + 1)).Placed token a.size (brackets token a).size
      a.size :=
    State.placed_matcher hl (Nat.le_succ a.size) (Automaton.lt_size hexit) (Nat.succ_ne_self a.size)
  refine ⟨extends_brackets.set (Nat.le_refl _) hlt placed,
    ⟨Nat.le_refl _, Automaton.lt_size hstate⟩,
    ⟨Nat.le_succ _, Automaton.lt_size hfresh⟩, hfresh.isRouter, ?_⟩
  intro w
  have only := fun o t => (Automaton.moves_iff (o := o) (q := t) hstate).trans
    (State.movesTo_matcher hl o t)
  rw [hL]
  refine (Path.char_iff only (Nat.ne_of_lt (Nat.lt_succ_self _))).trans ?_
  simp [Path.stuck_iff hfresh.stuck, and_comm]

/-- What one character does: `current`, which had no moves, gets one to a new state on the variants
of the character. -/
structure Stepped (token base : Nat) (ignoreCase : Bool) (c current : Nat) (a₀ a a₁ : Automaton) :
    Prop extends Automaton.Extends token base a₀ a₁ where
  size_eq : a₁.size = a.size + 1
  state_ne : ∀ i, i < a.size → i ≠ current → a₁.state? i = a.state? i
  fresh : a₁.IsFresh a.size token
  moves_iff : ∀ o q, a₁.moves current o q ↔
    ∃ d, o = some d ∧ CharVariant ignoreCase c d ∧ q = a.size

theorem wp_step {β : Type} {k : Build β} {c : Nat} {base current : Nat} {a₀ : Automaton}
    (ha : Automaton.Extends token base a₀ a) (hbase : base ≤ current)
    (hfresh : a.IsFresh current token) {post : β → Automaton → Prop}
    {fail : Failure → Automaton → Prop}
    (hk : ∀ a₁, Stepped token base ignoreCase c current a₀ a a₁ → WP k post fail a₁) :
    WP (do
        change (·.setCharMove current c ignoreCase)
        change (·.setNext current a.size)
        k)
      post fail (a.addState (some token)) := by
  have hlt := Automaton.lt_size hfresh
  have hlt₁ : current < (a.addState (some token)).size := by
    rw [Automaton.size_addState]
    omega
  have hne : a.size ≠ current := by omega
  refine wp_bind.mpr (wp_change_set (fun _ => rfl)
    ((Automaton.state?_addState_of_lt hlt).trans hfresh) rfl (wp_bind.mpr ?_))
  refine wp_change_set (fun _ => rfl) (Automaton.state?_set_self hlt₁) (if_neg hne) ?_
  rw [Automaton.set_set]
  apply hk
  have hasc : Ascending (State.setCharMove { token := some token } c ignoreCase).ranges :=
    State.ascending_setCharMove _ c ignoreCase
  have hcovers := fun d => @State.covers_setCharMove { token := some token } c d ignoreCase
  -- what the ranges are is not needed below, only what they cover
  change Stepped _ _ _ _ _ _ _ (Automaton.set _ _ (.matcher token
    (State.setCharMove { token := some token } c ignoreCase).ranges a.size))
  generalize (State.setCharMove { token := some token } c ignoreCase).ranges = l at hasc hcovers ⊢
  have placed : (State.matcher token l a.size).Placed token base
      (a.addState (some token)).size current :=
    State.placed_matcher hasc (by omega) (by simp) hne
  refine ⟨(ha.addState (by omega)).set hbase hlt₁ placed, ?_, ?_, ?_, ?_⟩
  · rw [Automaton.size_set, Automaton.size_addState]
  · intro i hi hic
    rw [Automaton.state?_set_ne hic, Automaton.state?_addState_of_lt hi]
  · rw [Automaton.IsFresh, Automaton.state?_set_ne hne]
    exact Automaton.state?_addState_self
  · intro o q
    rw [Automaton.moves_iff (Automaton.state?_set_self hlt₁), State.movesTo_matcher hasc]
    simp only [hcovers]

/-- What a chain of characters does from the state it starts at, which gets its first move. -/
structure Chained (token base : Nat) (ignoreCase : Bool) (cs : List Char) (current : Nat)
    (a₀ a : Automaton) (exit : Nat) (a' : Automaton) : Prop
    extends Automaton.Extends token base a₀ a' where
  size_mono : a.size ≤ a'.size
  state_ne : ∀ i, i < a.size → i ≠ current → a'.state? i = a.state? i
  exit_mem : (cs = [] ∧ exit = current) ∨ a.size ≤ exit
  fresh_exit : a'.IsFresh exit token
  path_iff : ∀ w, Path a'.moves current w exit ↔
    List.Forall₂ (CharVariant ignoreCase) (cs.map Char.toNat) w
  reaches : ∀ p, p = current ∨ a.size ≤ p ∧ p < a'.size → Path.Reaches a'.moves p exit

/-- A character in front of a chain. -/
theorem Chained.cons {c : Char} {cs : List Char} {base current exit : Nat} {a₀ a₁ a' : Automaton}
    (hcurrent : current < a.size) (hs : Stepped token base ignoreCase c.toNat current a₀ a a₁)
    (hc : Chained token base ignoreCase cs a.size a₀ a₁ exit a') :
    Chained token base ignoreCase (c :: cs) current a₀ a exit a' := by
  have hsize₁ := hs.size_eq
  have hsize := hc.size_mono
  have hexit : a.size ≤ exit := by
    rcases hc.exit_mem with ⟨-, rfl⟩ | h
    · exact Nat.le_refl _
    · omega
  have only := fun o t =>
    (Automaton.moves_congr (hc.state_ne current (by omega) (by omega))).trans (hs.moves_iff o t)
  refine ⟨hc.toExtends, by omega, ?_, .inr hexit, hc.fresh_exit, ?_, ?_⟩
  · intro i hi hic
    rw [hc.state_ne i (by omega) (by omega), hs.state_ne i hi hic]
  · intro w
    rw [Path.char_iff only (by omega), List.map_cons, List.forall₂_cons_left_iff]
    simp only [hc.path_iff]
    constructor
    · rintro ⟨d, v, rfl, hd, hv⟩
      exact ⟨d, v, hd, hv, rfl⟩
    · rintro ⟨d, v, hd, hv, rfl⟩
      exact ⟨d, v, rfl, hd, hv⟩
  · intro p hp
    cases hp with
    | inl heq =>
        have hfirst : a'.moves current (some c.toNat) a.size :=
          (only _ _).mpr ⟨c.toNat, rfl, charVariant_self ignoreCase c.toNat, rfl⟩
        rw [heq]
        exact (Path.Reaches.of_move hfirst).trans (hc.reaches a.size (.inl rfl))
    | inr hnew =>
        by_cases hp : p = a.size
        · exact hc.reaches p (.inl hp)
        · exact hc.reaches p (.inr (by omega))

theorem wp_chain {cs : List Char} {base current : Nat} {a₀ : Automaton}
    (ha : Automaton.Extends token base a₀ a) (hbase : base ≤ current)
    (hfresh : a.IsFresh current token) {fail : Failure → Automaton → Prop} :
    WP (chain token ignoreCase current cs)
      (fun exit a' => Chained token base ignoreCase cs current a₀ a exit a') fail a := by
  have hlt := Automaton.lt_size hfresh
  induction cs generalizing a current with
  | nil =>
      refine wp_pure.mpr ⟨ha, Nat.le_refl _, fun _ _ _ => rfl, .inl ⟨rfl, rfl⟩, hfresh, ?_, ?_⟩
      · intro w
        rw [Path.stuck_iff hfresh.stuck, List.map_nil, List.forall₂_nil_left_iff]
      · intro p hp
        obtain rfl := hp.resolve_right (by omega)
        exact .refl p
  | cons c cs ih =>
      refine wp_bind.mpr (wp_newState.mpr (wp_step ha hbase hfresh ?_))
      intro a₁ hs
      have hsize₁ := hs.size_eq
      apply (ih hs.toExtends (by omega) hs.fresh (by omega)).mono
      · intro exit a' hc
        exact .cons hlt hs hc
      · exact fun _ _ => id

theorem recognizes_literal {text : String} {L : Language Nat} (hL : ∀ w, w ∈ L ↔
    List.Forall₂ (CharVariant ignoreCase) (text.toList.map Char.toNat) w) :
    Recognizes token L (literal token ignoreCase text) := by
  intro a
  refine wp_bind.mpr (wp_newState.mpr (wp_bind.mpr ?_))
  have ext₁ := (Automaton.Extends.refl token a).addState (Nat.le_refl _)
  refine (wp_chain ext₁ (Nat.le_refl _) Automaton.state?_addState_self).mono
    (fun exit a' hc => wp_pure.mpr ?_) fun _ _ => id
  have hsize := hc.size_mono
  rw [Automaton.size_addState] at hsize
  have hexit : a.size ≤ exit := by
    rcases hc.exit_mem with ⟨-, rfl⟩ | h
    · exact Nat.le_refl _
    · rw [Automaton.size_addState] at h
      omega
  refine ⟨hc.toExtends, ⟨Nat.le_refl _, by simp only; omega⟩,
    ⟨hexit, Automaton.lt_size hc.fresh_exit⟩, hc.fresh_exit.isRouter, fun w => ?_⟩
  rw [hL, hc.path_iff]

/-! ### Patterns -/

section

variable {r : TokenRegistry} {refer : String → Build Fragment}

/-- If references are built for their languages, then so are all patterns. -/
theorem recognizes_pattern
    (href : ∀ label, Recognizes token (r.language ignoreCase (.reference label)) (refer label))
    (p : Pattern) :
    Recognizes token (r.language ignoreCase p) (pattern token ignoreCase refer p) := by
  induction p using Pattern.induction with
  | charClass k =>
      apply recognizes_ranges (.of_separated (k.separated_orderedRanges ignoreCase))
      intro w
      simp only [TokenRegistry.mem_language_charClass, CharacterClass.covers_orderedRanges]
  | literal text => exact recognizes_literal fun w => TokenRegistry.mem_language_literal
  | sequence ps ih =>
      rw [pattern, patterns_eq_map, TokenRegistry.language_sequence]
      apply recognizes_sequence
      rw [List.forall₂_map_left_iff, List.forall₂_map_right_iff, List.forall₂_same]
      exact ih
  | choice ps ih =>
      rw [pattern, patterns_eq_map]
      refine @recognizes_choice _ _ _ (ps.map (r.language ignoreCase)) ?_ ?_
      · rw [List.forall₂_map_left_iff, List.forall₂_map_right_iff, List.forall₂_same]
        exact ih
      · intro w
        simp [TokenRegistry.mem_language_choice]
  | zeroOrMore p ih => exact (recognizes_zeroOrMore ih).congr TokenRegistry.language_zeroOrMore.symm
  | oneOrMore p ih => exact (recognizes_oneOrMore ih).congr TokenRegistry.language_oneOrMore.symm
  | zeroOrOne p ih => exact (recognizes_zeroOrOne ih).congr TokenRegistry.language_zeroOrOne.symm
  | repetition p min max ih =>
      exact recognizes_repetition ih fun w => TokenRegistry.mem_language_repetition
  | reference label => exact href label

end

/-- Inlining gives every reference the language of the pattern that it stands for. -/
theorem recognizes_inlined (r : TokenRegistry) (resolving : List String) (p : Pattern) :
    Recognizes token (r.language ignoreCase p) (inlined r token ignoreCase resolving p) := by
  induction hn : r.unopened resolving using Nat.strongRecOn generalizing resolving p with
  | _ n ih =>
      rw [inlined]
      refine recognizes_pattern ?_ p
      intro label
      split
      · exact recognizes_fault _
      · next hl =>
        split
        · exact recognizes_fault _
        · next q hq =>
          apply (ih _ (hn ▸ TokenRegistry.unopened_cons_lt hq hl) (label :: resolving) q rfl).congr
          exact (TokenRegistry.language_reference hq).symm

/-! ### Tokens -/

/-- What building a token does to an automaton: the states from the old size on are its own, the
exit of the fragment the only final one among them, and `initial` is linked to the entry. -/
structure Installed (token initial : Nat) (L : Language Nat) (a : Automaton) (f : Fragment)
    (a' : Automaton) : Prop where
  size_le : a.size ≤ a'.size
  entry_mem : a.size ≤ f.entry ∧ f.entry < a'.size
  exit_mem : a.size ≤ f.exit ∧ f.exit < a'.size
  state_ne : ∀ i, i < a.size → i ≠ initial → a'.state? i = a.state? i
  state_initial : ∃ s, a.state? initial = some s ∧
    a'.state? initial = some (s.addEpsilon f.entry)
  placed : ∀ i s, a.size ≤ i → a'.state? i = some s →
    { s with isFinal := false }.Placed token a.size a'.size i
  final_iff : ∀ i s, a.size ≤ i → a'.state? i = some s → (s.isFinal = true ↔ i = f.exit)
  path_iff : ∀ w, Path a'.moves f.entry w f.exit ↔ w ∈ L

/-- Making a state final changes no move. -/
theorem moves_setFinal {i p q : Nat} {o : Option Nat} {s : State} (hs : a.state? i = some s) :
    (a.set i { s with isFinal := true }).moves p o q ↔ a.moves p o q := by
  by_cases hp : p = i
  · subst hp
    rw [Automaton.moves_iff (Automaton.state?_set_self (Automaton.lt_size hs)),
      Automaton.moves_iff hs]
    cases o <;> rfl
  · exact Automaton.moves_congr (Automaton.state?_set_ne hp)

theorem Installed.of_spans {initial : Nat} {L : Language Nat} {f : Fragment} {a₁ a' : Automaton}
    {s : State} (hi : initial < a.size) (hf : f.Spans token L a a₁) (hs : a₁.state? f.exit = some s)
    (hl : Automaton.Linked initial f.entry (a₁.set f.exit { s with isFinal := true }) a') :
    Installed token initial L a f a' := by
  have hsize : a'.size = a₁.size := hl.size_eq.trans Automaton.size_set
  have hexit := hf.exit_mem
  have same : ∀ i, i ≠ initial → i ≠ f.exit → a'.state? i = a₁.state? i := by
    intro i hne hne'
    rw [hl.state_ne i hne, Automaton.state?_set_ne hne']
  have state_exit : a'.state? f.exit = some { s with isFinal := true } := by
    rw [hl.state_ne _ (by omega), Automaton.state?_set_self hexit.2]
  have moves : ∀ p o q, a.size ≤ p → (a'.moves p o q ↔ a₁.moves p o q) := by
    intro p o q hp
    rw [Automaton.moves_congr (hl.state_ne p (by omega)), moves_setFinal hs]
  refine ⟨hsize ▸ hf.size_le, hsize ▸ hf.entry_mem, hsize ▸ hexit, ?_, ?_,
    ?_, ?_, ?_⟩
  · intro i hlt hne
    rw [same i hne (by omega), hf.state_below i hlt]
  · obtain ⟨t, ht, ht'⟩ := hl.state_source
    refine ⟨t, ?_, ht'⟩
    rwa [Automaton.state?_set_ne (by omega), hf.state_below initial hi] at ht
  · intro i t hle ht
    rw [hsize]
    by_cases hi' : i = f.exit
    · subst hi'
      obtain rfl := Option.some.inj (state_exit.symm.trans ht)
      have := hf.placed f.exit s hle hs
      have hfinal := this.not_final
      cases s
      cases hfinal
      exact this
    · have := hf.placed i t hle ((same i (by omega) hi').symm.trans ht)
      have hfinal := this.not_final
      cases t
      cases hfinal
      exact this
  · intro i t hle ht
    by_cases hi' : i = f.exit
    · subst hi'
      obtain rfl := Option.some.inj (state_exit.symm.trans ht)
      simp
    · have := (hf.placed i t hle ((same i (by omega) hi').symm.trans ht)).not_final
      simp [this, hi']
  · intro w
    rw [← hf.path_iff]
    refine Path.congr_of_closed (R := fun i => a.size ≤ i) moves ?_
      hf.entry_mem.1
    intro p o q hp hm
    exact (hf.mem_of_moves hp ((moves p o q hp).mp hm)).1

/-- Building a token installs the language of its pattern, or fails for a fault of a definition. -/
theorem wp_token {r : TokenRegistry} {initial : Nat} (hi : initial < a.size) :
    WP (Build.token r token ignoreCase initial)
      (fun f a' => ∃ d, r.get? token = some d ∧
        Installed token initial (r.language ignoreCase d.pattern) a f a')
      (Failed token a.size a) a := by
  rw [Build.token]
  split
  · next d hd =>
    refine (recognizes_inlined r d.label.toList d.pattern).wp_bind (.refl token a) (Nat.le_refl _)
      ?_
    intro f a₁ hf _
    obtain ⟨s, hs, -⟩ := hf.router_exit
    have hsize := hf.size_le
    refine wp_bind.mpr (wp_change_set (fun _ => rfl) hs rfl (wp_bind.mpr ?_))
    refine wp_link (by rw [Automaton.size_set]; omega) fun a' hl => wp_pure.mpr ?_
    exact ⟨d, hd, .of_spans hi hf hs hl⟩
  · exact wp_fault.mpr ⟨⟨_, rfl⟩, .refl token a⟩

/-- The empty literal is a single state. -/
theorem wp_token_empty_literal {r : TokenRegistry} {initial : Nat} {d : TokenDefinition}
    (hd : r.get? token = some d) (hp : d.pattern = .literal "") :
    WP (Build.token r token ignoreCase initial) (fun f _ => f.entry = f.exit)
      (fun _ _ => True) a := by
  rw [Build.token, hd]
  simp only [hp, inlined, pattern, literal, String.toList_empty, chain]
  refine wp_bind.mpr (wp_bind.mpr (wp_newState.mpr (wp_pure.mpr (wp_bind.mpr ?_))))
  refine wp_change_of_forall (fun a' => wp_bind.mpr ?_) (fun _ _ => trivial)
  exact wp_change_of_forall (fun a'' => wp_pure.mpr rfl) (fun _ _ => trivial)

/-- The construction is exact: after a build that succeeds, the words that lead from the entry to
the exit of the fragment are those that the pattern of the token matches. -/
theorem path_token_iff (r : TokenRegistry) (token : Nat) (ignoreCase : Bool) (initial : Nat)
    (a a' : Automaton) (f : Fragment) (hinitial : initial < a.size)
    (h : Build.token r token ignoreCase initial a = .ok f a') :
    ∃ d, r.get? token = some d ∧ (d.pattern = .literal "" → f.entry = f.exit) ∧
      ∀ w, Path a'.moves f.entry w f.exit ↔ r.Matches ignoreCase d.pattern w := by
  obtain ⟨d, hd, hf⟩ := (wp_token hinitial).of_ok h
  exact ⟨d, hd, fun hp => (wp_token_empty_literal hd hp).of_ok h, hf.path_iff⟩

/-- `A*` and two or three of the class of `b`, where `A` refers to the literal `a`: with case
ignored, `aAbB` leads through. -/
theorem path_token_iff_reference_repetition : ∃ (r : TokenRegistry) (a' : Automaton) (f : Fragment),
    Build.token r 2 true 0 (Automaton.addState {} none) = .ok f a' ∧
      Path a'.moves f.entry ("aAbB".toList.map Char.toNat) f.exit := by
  let r : TokenRegistry :=
    (TokenRegistry.new.register { label := some "A", pattern := .literal "a" }).register
      { pattern := .sequence [.zeroOrMore (.reference "A"),
          .repetition (.charClass { ranges := [.single 98] }) 2 (some 3)] }
  obtain ⟨f, a', h⟩ : ∃ f a', Build.token r 2 true 0 (Automaton.addState {} none) = .ok f a' :=
    Checked.exists_of_succeeds (by decide +kernel)
  obtain ⟨d, hd, -, hpath⟩ := path_token_iff r 2 true 0 _ a' f (by decide) h
  obtain rfl := Option.some.inj hd
  refine ⟨r, a', f, h, (hpath _).mpr ?_⟩
  have variant : ∀ c d : Nat, d = c ∨ d = Unicode.upper c → CharVariant true c d := by
    rintro c d (hd | hd)
    · exact .inl hd
    · exact .inr ⟨rfl, .inl hd⟩
  have first : ∀ c ∈ [97, 65], r.Matches true (.reference "A") [c] := by
    intro c hc
    refine TokenRegistry.Matches.reference rfl (.literal (.cons (variant _ _ ?_) .nil))
    revert c
    decide +kernel
  have second : ∀ c ∈ [98, 66], r.Matches true (.charClass { ranges := [.single 98] }) [c] := by
    intro c hc
    refine .charClass (CharacterClass.mem_members.mp ?_)
    revert c
    decide +kernel
  have stars : r.Matches true (.zeroOrMore (.reference "A")) [[97], [65]].flatten :=
    .zeroOrMore (by simpa using first)
  have twice : r.Matches true (.repetition (.charClass { ranges := [.single 98] }) 2 (some 3))
      [[98], [66]].flatten := .repetition (by decide) (by simp) (by simpa using second)
  exact TokenRegistry.Matches.sequence (.cons stars (.cons twice .nil))

end Build

end ScannerTables
