import ScannerTables.Proofs.Faults
/-!
# Every state leads to the exit

No state of a fragment is a dead end, if it was built of classes that have members and choices that
have alternatives: every state that its builder added leads to the exit (`Build.Drains`). Without
either, a state that moves on no character has a successor all the same. Builders add no such state
(`Build.Solid`) where the classes that they meet have members, even if they fail later on.
-/

namespace ScannerTables

open Relation

/-! ### Patterns without dead ends -/

/-- A class with members, or a choice with alternatives; of other patterns nothing is asked. -/
def Pattern.IsInhabited (ignoreCase : Bool) : Pattern → Prop
  | .charClass k => ∃ c, k.Contains ignoreCase c
  | .choice alternatives => alternatives ≠ []
  | _ => True

/-- All that inlining a pattern meets is inhabited. -/
def TokenRegistry.Inhabits (r : TokenRegistry) (ignoreCase : Bool) (p : Pattern) : Prop :=
  ∀ q, ReflTransGen r.Enters p q → q.IsInhabited ignoreCase

theorem TokenRegistry.Inhabits.enters {r : TokenRegistry} {ignoreCase : Bool} {p q : Pattern}
    (h : r.Inhabits ignoreCase p) (hpq : r.Enters p q) : r.Inhabits ignoreCase q :=
  fun q' hq' => h q' (.head hpq hq')

theorem TokenRegistry.Inhabits.of_enters {r : TokenRegistry} {ignoreCase : Bool} {p : Pattern}
    (hp : p.IsInhabited ignoreCase) (h : ∀ q, r.Enters p q → r.Inhabits ignoreCase q) :
    r.Inhabits ignoreCase p := by
  intro q hq
  cases hq.cases_head with
  | inl heq => exact heq ▸ hp
  | inr hfirst =>
      obtain ⟨q', hq', hreach⟩ := hfirst
      exact h q' hq' q hreach

namespace Automaton

/-- Moves were added between states that are there, and none from states below `base`. -/
structure Gains (base : Nat) (a a' : Automaton) : Prop where
  size_eq : a'.size = a.size
  state_below : ∀ i, i < base → a'.state? i = a.state? i
  moves : ∀ p o q, a.moves p o q → a'.moves p o q

variable {base source target p q : Nat} {a a₁ a₂ a' : Automaton}

theorem Gains.refl (base : Nat) (a : Automaton) : a.Gains base a :=
  ⟨rfl, fun _ _ => rfl, fun _ _ _ => id⟩

theorem Gains.trans (h : a.Gains base a₁) (h' : a₁.Gains base a₂) : a.Gains base a₂ where
  size_eq := h'.size_eq.trans h.size_eq
  state_below i hi := (h'.state_below i hi).trans (h.state_below i hi)
  moves p o q hm := h'.moves p o q (h.moves p o q hm)

theorem Linked.gains (h : Linked source target a a') (hs : base ≤ source) : a.Gains base a' where
  size_eq := h.size_eq
  state_below i hi := h.state_ne i (by omega)
  moves _ _ _ hm := h.moves_iff.mpr (.inl hm)

/-- States that are left alone keep their moves. -/
theorem moves_of_state_below (h : ∀ i, i < a.size → a'.state? i = a.state? i) (p : Nat)
    (o : Option Nat) (q : Nat) (hm : a.moves p o q) : a'.moves p o q := by
  obtain ⟨s, hs, hm⟩ := hm
  exact ⟨s, (h p (lt_size hs)).trans hs, hm⟩

end Automaton

/-- A fragment that was added to an automaton, and each of whose states leads to its exit. -/
structure Fragment.Drains (f : Fragment) (a a' : Automaton) : Prop where
  size_le : a.size ≤ a'.size
  state_below : ∀ i, i < a.size → a'.state? i = a.state? i
  entry_mem : a.size ≤ f.entry ∧ f.entry < a'.size
  exit_mem : a.size ≤ f.exit ∧ f.exit < a'.size
  reaches : ∀ p, a.size ≤ p → p < a'.size → Path.Reaches a'.moves p f.exit

namespace Build

open Automaton

/-- A builder of fragments whose states all lead to the exit. -/
def Drains (b : Build Fragment) : Prop :=
  ∀ a, WP b (fun f a' => f.Drains a a') (fun _ _ => True) a

variable {token base entry exit previous source target : Nat} {ignoreCase : Bool} {f : Fragment}
variable {a a₁ a' : Automaton} {part : Build Fragment} {parts : List (Build Fragment)}

theorem wp_link_gains {post : Unit → Automaton → Prop} {fail : Failure → Automaton → Prop}
    (hs : base ≤ source) (hlt : source < a.size)
    (hp : ∀ a', a.Gains base a' → a'.moves source none target → post () a') :
    WP (link source target) post fail a := by
  apply wp_link hlt
  intro a' hl
  exact hp a' (hl.gains hs) (hl.moves_iff.mpr (.inr ⟨rfl, rfl, rfl⟩))

/-- What is built between two new states drains if all states lead to the second. -/
theorem drains_of_brackets (token : Nat) (hsize : a.size + 2 ≤ a'.size)
    (hbelow : ∀ i, i < a.size → a'.state? i = (brackets token a).state? i)
    (hreaches : ∀ p, a.size ≤ p → p < a'.size → Path.Reaches a'.moves p (a.size + 1)) :
    Fragment.Drains ⟨a.size, a.size + 1⟩ a a' where
  size_le := by omega
  state_below i hi := (hbelow i hi).trans (extends_brackets.state_below i hi)
  entry_mem := ⟨Nat.le_refl _, Nat.lt_of_lt_of_le (by simp) hsize⟩
  exit_mem := ⟨Nat.le_succ _, Nat.lt_of_lt_of_le (by simp) hsize⟩
  reaches := hreaches

/-! ### One part between brackets -/

/-- A part between two new states drains if the first leads into it and it leads to the second. -/
theorem drains_of_gains (hf : f.Drains (brackets token a) a₁) (hg : a₁.Gains a.size a')
    (hentry : a'.moves a.size none f.entry) (hexit : a'.moves f.exit none (a.size + 1)) :
    Fragment.Drains ⟨a.size, a.size + 1⟩ a a' := by
  have hsize := hf.size_le
  have hsize' := hg.size_eq
  have hmem := hf.entry_mem
  rw [size_brackets] at hsize hmem
  have inside : ∀ p, a.size + 2 ≤ p → p < a'.size → Path.Reaches a'.moves p (a.size + 1) := by
    intro p hp hlt
    have hpart := hf.reaches p (by rwa [size_brackets]) (by omega)
    exact (hpart.mono hg.moves).trans (.of_move hexit)
  refine drains_of_brackets token (by omega) ?_ ?_
  · intro i hi
    rw [hg.state_below i hi, hf.state_below i (by rw [size_brackets]; omega)]
  · intro p hp hlt
    obtain rfl | rfl | hp : p = a.size ∨ p = a.size + 1 ∨ a.size + 2 ≤ p := by omega
    · exact (Path.Reaches.of_move hentry).trans (inside f.entry hmem.1 (by omega))
    · exact .refl _
    · exact inside p hp hlt

/-- Some moves were added to a part between two new states. -/
theorem wp_link_part {post : Unit → Automaton → Prop} {fail : Failure → Automaton → Prop}
    (hf : f.Drains (brackets token a) a₁) (hg : a₁.Gains a.size a')
    (hs : source = a.size ∨ source = f.exit)
    (hp : ∀ a₂, a₁.Gains a.size a₂ → (∀ p o q, a'.moves p o q → a₂.moves p o q) →
      a₂.moves source none target → post () a₂) : WP (link source target) post fail a' := by
  have hsize := hf.size_le
  have hmem := hf.exit_mem
  rw [size_brackets] at hsize hmem
  have hsource : a.size ≤ source ∧ source < a'.size := by
    rw [hg.size_eq]
    omega
  refine wp_link_gains hsource.1 hsource.2 fun a₂ hg₂ hm => ?_
  exact hp a₂ (hg.trans hg₂) hg₂.moves hm

theorem Drains.wp_bracket {k : Nat → Nat → Fragment → Build Fragment} (h : Drains part)
    (hk : ∀ f a₁, f.Drains (brackets token a) a₁ →
      WP (k a.size (a.size + 1) f) (fun f a' => f.Drains a a') (fun _ _ => True) a₁) :
    WP (do let entry ← newState token; let exit ← newState token; let f ← part; k entry exit f)
      (fun f a' => f.Drains a a') (fun _ _ => True) a := by
  refine wp_brackets (wp_bind.mpr ?_)
  exact (h (brackets token a)).mono (fun f a₁ hf => hk f a₁ hf) fun _ _ => id

theorem drains_zeroOrMore (h : Drains part) : Drains (zeroOrMore token part) := by
  intro a
  apply h.wp_bracket
  intro f a₁ hf
  refine wp_bind.mpr (wp_link_part hf (.refl _ _) (.inl rfl) fun a₂ hg₂ _ hentry => ?_)
  refine wp_bind.mpr (wp_link_part hf hg₂ (.inl rfl) fun a₃ hg₃ mono₃ _ => ?_)
  refine wp_bind.mpr (wp_link_part hf hg₃ (.inr rfl) fun a₄ hg₄ mono₄ hexit => ?_)
  refine wp_bind.mpr (wp_link_part hf hg₄ (.inr rfl) fun a₅ hg₅ mono₅ _ => wp_pure.mpr ?_)
  exact drains_of_gains hf hg₅ (mono₅ _ _ _ (mono₄ _ _ _ (mono₃ _ _ _ hentry)))
    (mono₅ _ _ _ hexit)

theorem drains_oneOrMore (h : Drains part) : Drains (oneOrMore token part) := by
  intro a
  apply h.wp_bracket
  intro f a₁ hf
  refine wp_bind.mpr (wp_link_part hf (.refl _ _) (.inl rfl) fun a₂ hg₂ _ hentry => ?_)
  refine wp_bind.mpr (wp_link_part hf hg₂ (.inr rfl) fun a₃ hg₃ mono₃ _ => ?_)
  refine wp_bind.mpr (wp_link_part hf hg₃ (.inr rfl) fun a₄ hg₄ mono₄ hexit => wp_pure.mpr ?_)
  exact drains_of_gains hf hg₄ (mono₄ _ _ _ (mono₃ _ _ _ hentry)) hexit

theorem drains_zeroOrOne (h : Drains part) : Drains (zeroOrOne token part) := by
  intro a
  apply h.wp_bracket
  intro f a₁ hf
  refine wp_bind.mpr (wp_link_part hf (.refl _ _) (.inl rfl) fun a₂ hg₂ _ hentry => ?_)
  refine wp_bind.mpr (wp_link_part hf hg₂ (.inl rfl) fun a₃ hg₃ mono₃ _ => ?_)
  refine wp_bind.mpr (wp_link_part hf hg₃ (.inr rfl) fun a₄ hg₄ mono₄ hexit => wp_pure.mpr ?_)
  exact drains_of_gains hf hg₄ (mono₄ _ _ _ (mono₃ _ _ _ hentry)) hexit

/-! ### Parts one after the other -/

/-- What linking parts one after the other does where all states from `base` on lead to `previous`,
but for the exit: in the end they lead to the exit. -/
theorem wp_sequenceFrom_drains (h : ∀ part ∈ parts, Drains part) (hbase : base ≤ previous)
    (hlt : previous < a.size)
    (hreaches : ∀ p, base ≤ p → p < a.size → p = exit ∨ Path.Reaches a.moves p previous) :
    WP (sequenceFrom previous exit parts) (fun _ a' => a.size ≤ a'.size ∧
      (∀ i, i < base → a'.state? i = a.state? i) ∧
        ∀ p, base ≤ p → p < a'.size → Path.Reaches a'.moves p exit) (fun _ _ => True) a := by
  induction parts generalizing a previous with
  | nil =>
      apply wp_link_gains hbase hlt
      intro a' hg hm
      refine ⟨Nat.le_of_eq hg.size_eq.symm, hg.state_below, fun p hp hlt' => ?_⟩
      cases hreaches p hp (hg.size_eq ▸ hlt') with
      | inl heq =>
          rw [heq]
          exact .refl exit
      | inr hprevious => exact (hprevious.mono hg.moves).trans (.of_move hm)
  | cons part parts ih =>
      rw [List.forall_mem_cons] at h
      refine wp_bind.mpr ((h.1 a).mono (fun f a₁ hf => ?_) fun _ _ => id)
      have hsize := hf.size_le
      have hentry := hf.entry_mem
      have hexit := hf.exit_mem
      refine wp_bind.mpr (wp_link_gains hbase (by omega) fun a₂ hg hm => ?_)
      have hsize₂ := hg.size_eq
      have passes : ∀ p, a.size ≤ p → p < a₂.size → Path.Reaches a₂.moves p f.exit := by
        intro p hp hlt'
        exact (hf.reaches p hp (by omega)).mono hg.moves
      refine (ih h.2 (by omega) (by omega) fun p hp hlt' => ?_).mono (fun _ a' h' => ?_)
        fun _ _ => id
      · by_cases hold : p < a.size
        · refine (hreaches p hp hold).imp_right fun hprevious => ?_
          have hprevious₁ := hprevious.mono (moves_of_state_below hf.state_below)
          exact ((hprevious₁.mono hg.moves).trans (.of_move hm)).trans
            (passes f.entry hentry.1 (by omega))
        · exact .inr (passes p (Nat.le_of_not_lt hold) hlt')
      · obtain ⟨hsize', hbelow, hall⟩ := h'
        refine ⟨by omega, fun i hi => ?_, hall⟩
        rw [hbelow i hi, hg.state_below i hi, hf.state_below i (by omega)]

theorem drains_sequence (h : ∀ part ∈ parts, Drains part) : Drains (sequence token parts) := by
  by_cases hone : parts.length = 1
  · obtain ⟨part, rfl⟩ := List.length_eq_one_iff.mp hone
    exact h part (List.mem_singleton_self part)
  · intro a
    rw [sequence_of_length_ne hone]
    refine wp_brackets (wp_bind.mpr ?_)
    have hreaches : ∀ p, a.size ≤ p → p < (brackets token a).size →
        p = a.size + 1 ∨ Path.Reaches (brackets token a).moves p a.size := by
      intro p hp hlt
      rw [size_brackets] at hlt
      obtain rfl | rfl : p = a.size ∨ p = a.size + 1 := by omega
      · exact .inr (.refl _)
      · exact .inl rfl
    refine (wp_sequenceFrom_drains (a := brackets token a) h (Nat.le_refl _) (by simp)
      hreaches).mono (fun _ a' h' => wp_pure.mpr ?_) fun _ _ => id
    obtain ⟨hsize, hbelow, hall⟩ := h'
    rw [size_brackets] at hsize
    exact drains_of_brackets token hsize hbelow hall

/-! ### One of the parts -/

/-- What linking alternatives between `entry` and `exit` does: all states from `base` on lead to the
exit, the entry with the first alternative. -/
theorem wp_branches_drains (h : ∀ part ∈ parts, Drains part) (hbase : base ≤ entry)
    (hlt : entry < a.size)
    (hreaches : ∀ p, base ≤ p → p < a.size → p = entry ∨ Path.Reaches a.moves p exit) :
    WP (parts.forM fun part => do
        let f ← part
        link entry f.entry
        link f.exit exit)
      (fun _ a' => a.size ≤ a'.size ∧ (∀ i, i < base → a'.state? i = a.state? i) ∧
        (∀ p, base ≤ p → p < a'.size → p = entry ∨ Path.Reaches a'.moves p exit) ∧
          (Path.Reaches a.moves entry exit ∨ parts ≠ [] → Path.Reaches a'.moves entry exit))
      (fun _ _ => True) a := by
  induction parts generalizing a with
  | nil =>
      refine wp_pure.mpr ⟨Nat.le_refl _, fun _ _ => rfl, hreaches, ?_⟩
      exact fun hentry => hentry.resolve_right (· rfl)
  | cons part parts ih =>
      rw [List.forall_mem_cons] at h
      refine wp_bind.mpr (wp_bind.mpr ((h.1 a).mono (fun f a₁ hf => ?_) fun _ _ => id))
      have hsize := hf.size_le
      have hfentry := hf.entry_mem
      have hfexit := hf.exit_mem
      refine wp_bind.mpr (wp_link_gains hbase (by omega) fun a₂ hg hm => ?_)
      have hsize₂ := hg.size_eq
      have hle : base ≤ f.exit := by omega
      refine wp_link_gains hle (by omega) fun a₃ hg' hm' => ?_
      have hsize₃ := hg'.size_eq
      have hg₃ := hg.trans hg'
      have passes : ∀ p, a.size ≤ p → p < a₃.size → Path.Reaches a₃.moves p exit := by
        intro p hp hlt'
        exact ((hf.reaches p hp (by omega)).mono hg₃.moves).trans (.of_move hm')
      have hentry : Path.Reaches a₃.moves entry exit :=
        (Path.Reaches.of_move (hg'.moves _ _ _ hm)).trans (passes f.entry hfentry.1 (by omega))
      refine (ih h.2 (by omega) fun p hp hlt' => ?_).mono (fun _ a' h' => ?_) fun _ _ => id
      · by_cases hold : p < a.size
        · refine (hreaches p hp hold).imp_right fun hexit => ?_
          exact (hexit.mono (moves_of_state_below hf.state_below)).mono hg₃.moves
        · exact .inr (passes p (Nat.le_of_not_lt hold) hlt')
      · obtain ⟨hsize', hbelow, hall, hgoes⟩ := h'
        refine ⟨by omega, fun i hi => ?_, hall, fun _ => hgoes (.inl hentry)⟩
        rw [hbelow i hi, hg₃.state_below i hi, hf.state_below i (by omega)]

theorem drains_choice (hne : parts ≠ []) (h : ∀ part ∈ parts, Drains part) :
    Drains (choice token parts) := by
  by_cases hone : parts.length = 1
  · obtain ⟨part, rfl⟩ := List.length_eq_one_iff.mp hone
    exact h part (List.mem_singleton_self part)
  · intro a
    rw [choice_of_length_ne hone]
    refine wp_brackets (wp_bind.mpr ?_)
    have hreaches : ∀ p, a.size ≤ p → p < (brackets token a).size →
        p = a.size ∨ Path.Reaches (brackets token a).moves p (a.size + 1) := by
      intro p hp hlt
      rw [size_brackets] at hlt
      obtain rfl | rfl : p = a.size ∨ p = a.size + 1 := by omega
      · exact .inl rfl
      · exact .inr (.refl _)
    refine (wp_branches_drains (a := brackets token a) h (Nat.le_refl _) (by simp)
      hreaches).mono (fun _ a' h' => wp_pure.mpr ?_) fun _ _ => id
    obtain ⟨hsize, hbelow, hall, hgoes⟩ := h'
    rw [size_brackets] at hsize
    refine drains_of_brackets token hsize hbelow fun p hp hlt => ?_
    cases hall p hp hlt with
    | inl heq => exact heq ▸ hgoes (.inr hne)
    | inr hexit => exact hexit

theorem composes_drains : Composes token Drains where
  sequence := drains_sequence
  choice := drains_choice
  zeroOrMore := drains_zeroOrMore
  oneOrMore := drains_oneOrMore
  zeroOrOne := drains_zeroOrOne

/-! ### Characters -/

theorem drains_ranges {l : List Interval} (hl : Ascending l) {c : Nat} (hc : Covers l c) :
    Drains (ranges token l) := by
  intro a
  apply wp_ranges hl
  have hlt : a.size < (brackets token a).size := by simp
  have hsize : ((brackets token a).set a.size (.matcher token l (a.size + 1))).size =
      a.size + 2 := by rw [size_set, size_brackets]
  have hmove : ((brackets token a).set a.size (.matcher token l (a.size + 1))).moves a.size (some c)
      (a.size + 1) := by
    rw [moves_iff (state?_set_self hlt), State.movesTo_matcher hl]
    exact ⟨c, rfl, hc, rfl⟩
  refine drains_of_brackets token (Nat.le_of_eq hsize.symm) (fun i hi => ?_) fun p hp hlt' => ?_
  · exact state?_set_ne (Nat.ne_of_lt hi)
  · obtain rfl | rfl : p = a.size ∨ p = a.size + 1 := by omega
    · exact .of_move hmove
    · exact .refl _

theorem drains_literal (text : String) : Drains (literal token ignoreCase text) := by
  intro a
  refine wp_bind.mpr (wp_newState.mpr (wp_bind.mpr ?_))
  have ext₁ := (Automaton.Extends.refl token a).addState (Nat.le_refl _)
  apply (wp_chain ext₁ (Nat.le_refl _) state?_addState_self).mono
  · intro exit a' hc
    apply wp_pure.mpr
    have hsize := hc.size_mono
    rw [size_addState] at hsize
    have hexit := lt_size hc.fresh_exit
    have hle : a.size ≤ exit := by
      cases hc.exit_mem with
      | inl heq => exact Nat.le_of_eq heq.2.symm
      | inr hnew =>
          rw [size_addState] at hnew
          omega
    refine ⟨by omega, hc.state_below, ⟨Nat.le_refl _, by simp only; omega⟩, ⟨hle, hexit⟩,
      fun p hp hlt => hc.reaches p ?_⟩
    rw [size_addState]
    omega
  · exact fun _ _ => id

/-! ### Patterns -/

section

variable {r : TokenRegistry} {resolving : List String} {p : Pattern}

/-- Of a pattern in which all is inhabited, builders meet classes with members, choices with
alternatives and faults. -/
theorem suits_inhabits {P : Build Fragment → Prop}
    (hranges : ∀ (k : CharacterClass) (c : Nat), Covers (k.orderedRanges ignoreCase) c →
      P (ranges token (k.orderedRanges ignoreCase)))
    (hliteral : ∀ text, P (literal token ignoreCase text)) (hfault : ∀ e, P (fault e)) :
    Suits r token ignoreCase P fun _ p => r.Inhabits ignoreCase p where
  inside h hq := h.enters (.inside hq)
  charClass h := by
    obtain ⟨c, hc⟩ := h _ .refl
    exact hranges _ c (CharacterClass.covers_orderedRanges.mpr hc)
  literal := hliteral
  empty h := absurd rfl (h _ .refl)
  inverted _ _ := hfault _
  recursive _ _ := hfault _
  undefined _ _ _ := hfault _
  reference h _ hq := h.enters (.reference hq)

theorem drains_inlined (h : r.Inhabits ignoreCase p) :
    Drains (inlined r token ignoreCase resolving p) := by
  refine composes_drains.inlined (suits_inhabits (fun k c hc => ?_) drains_literal fun e a => ?_) h
  · exact drains_ranges (.of_separated (k.separated_orderedRanges ignoreCase)) hc
  · exact wp_fault.mpr trivial

end

end Build

/-! ### States without characters -/

/-- A state with a successor moves to it on some character. -/
def State.IsSolid (s : State) : Prop := s.next ≠ none → s.ranges ≠ []

/-- Every state with a successor moves to it on some character. -/
def Automaton.Solid (a : Automaton) : Prop := ∀ p s, a.state? p = some s → s.IsSolid

namespace Automaton

variable {a : Automaton} {i : Nat} {s : State}

theorem Solid.addState (h : a.Solid) (token : Option Nat) : (a.addState token).Solid := by
  intro p t ht
  rw [state?_addState] at ht
  split at ht
  · obtain rfl := Option.some.inj ht
    exact fun hne => absurd rfl hne
  · exact h p t ht

theorem Solid.set (h : a.Solid) (hi : i < a.size) (hs : s.IsSolid) : (a.set i s).Solid := by
  intro p t ht
  rw [state?_set hi] at ht
  split at ht
  · exact Option.some.inj ht ▸ hs
  · exact h p t ht

end Automaton

theorem State.ranges_setCharMove_ne_nil (s : State) (c : Nat) (ignoreCase : Bool) :
    (s.setCharMove c ignoreCase).ranges ≠ [] := by
  intro hnil
  have hcovers : Covers (s.setCharMove c ignoreCase).ranges c :=
    State.covers_setCharMove.mpr (charVariant_self ignoreCase c)
  rw [hnil] at hcovers
  exact Covers.nil hcovers

namespace Build

open Automaton

variable {α : Type} {token i : Nat} {ignoreCase : Bool} {a : Automaton} {r : TokenRegistry}

/-- A builder that leaves no state with a successor and no character, even where it fails. -/
def KeepsSolid (b : Build α) : Prop :=
  ∀ a : Automaton, a.Solid → WP b (fun _ a' => a'.Solid) (fun _ a' => a'.Solid) a

/-- A change to one state is made if the state is there, or else nothing is changed. -/
theorem wp_change_update {post : Unit → Automaton → Prop} {fail : Failure → Automaton → Prop}
    {f : Automaton → Except Misuse Automaton} {g : State → Except Misuse State}
    (hf : ∀ a, f a = a.update i g)
    (hok : ∀ s s', a.state? i = some s → g s = .ok s' → post () (a.set i s'))
    (hfail : ∀ e, fail e a) : WP (change f) post fail a := by
  cases hfa : f a with
  | ok a' =>
      obtain ⟨s, s', hs, hg, rfl⟩ := Automaton.update_eq_ok.mp ((hf a).symm.trans hfa)
      exact (wp_change hfa).mpr (hok s s' hs hg)
  | error m =>
      rw [WP, change, hfa]
      exact hfail _

theorem keepsSolid_change {f : Automaton → Except Misuse Automaton}
    {g : State → Except Misuse State} (hf : ∀ a, f a = a.update i g)
    (hg : ∀ s s', s.IsSolid → g s = .ok s' → s'.IsSolid) : KeepsSolid (change f) := fun _ ha =>
  wp_change_update hf (fun s s' hs hs' => ha.set (lt_size hs) (hg s s' (ha i s hs) hs'))
    fun _ => ha

theorem compositional_keepsSolid : Compositional @KeepsSolid where
  pure _ _ ha := ha
  bind hb hk a ha := wp_bind.mpr ((hb a ha).mono (fun x a' ha' => hk x a' ha') fun _ _ => id)
  newState token _ ha := wp_newState.mpr (ha.addState (some token))
  link source target := by
    refine keepsSolid_change (fun _ => rfl) ?_
    rintro s s' hs ⟨⟩
    exact hs

theorem keepsSolid_ranges {l : List Interval} (hl : Ascending l) (hne : l ≠ []) :
    KeepsSolid (ranges token l) := fun a ha =>
  wp_ranges hl (((ha.addState _).addState _).set (by simp) fun _ => hne)

theorem keepsSolid_chain (cs : List Char) (current : Nat) :
    KeepsSolid (chain token ignoreCase current cs) := by
  induction cs generalizing current with
  | nil => exact fun _ ha => ha
  | cons c cs ih =>
      refine compositional_keepsSolid.bind (compositional_keepsSolid.newState token) fun next => ?_
      intro a ha
      -- the state has characters by the time it gets its successor
      refine wp_bind.mpr (wp_change_update (fun _ => rfl) (fun s s' hs hs' => ?_) fun _ => ha)
      have hranges : s'.ranges ≠ [] := Except.ok.inj hs' ▸ s.ranges_setCharMove_ne_nil _ _
      have ha' := ha.set (lt_size hs) fun _ => hranges
      refine wp_bind.mpr (wp_change_update (fun _ => rfl) (fun t t' ht ht' => ?_) fun _ => ha')
      obtain rfl := Option.some.inj ((state?_set_self (lt_size hs)).symm.trans ht)
      refine ih next _ (ha'.set (lt_size ht) fun _ => ?_)
      split at ht'
      · cases ht'
      · exact Except.ok.inj ht' ▸ hranges

theorem keepsSolid_literal (text : String) : KeepsSolid (literal token ignoreCase text) :=
  compositional_keepsSolid.bind (compositional_keepsSolid.newState token) fun entry =>
    compositional_keepsSolid.bind (keepsSolid_chain text.toList entry) fun _ =>
      compositional_keepsSolid.pure _

theorem keepsSolid_inlined {resolving : List String} {p : Pattern}
    (h : r.Inhabits ignoreCase p) : KeepsSolid (inlined r token ignoreCase resolving p) := by
  refine compositional_keepsSolid.composes.inlined
    (suits_inhabits (fun k c hc => ?_) keepsSolid_literal fun e a ha => ?_) h
  · refine keepsSolid_ranges (.of_separated (k.separated_orderedRanges ignoreCase)) fun hnil => ?_
    rw [hnil] at hc
    exact Covers.nil hc
  · exact wp_fault.mpr ha

/-! ### Tokens -/

variable {initial : Nat}

theorem keepsSolid_token (h : ∀ d, r.get? token = some d → r.Inhabits ignoreCase d.pattern) :
    KeepsSolid (Build.token r token ignoreCase initial) := by
  cases hd : r.get? token with
  | none =>
      rw [token_of_unknown hd]
      exact fun _ ha => wp_fault.mpr ha
  | some d =>
      rw [token_of_known hd]
      refine compositional_keepsSolid.bind (keepsSolid_inlined (h d hd)) fun f => ?_
      refine compositional_keepsSolid.bind (keepsSolid_change (i := f.exit) (fun _ => rfl) ?_)
        fun _ => compositional_keepsSolid.bind (compositional_keepsSolid.link _ _) fun _ =>
          compositional_keepsSolid.pure f
      rintro s s' hs ⟨⟩
      exact hs

/-- Every new state of a token leads to its final state. -/
theorem wp_token_reaches (h : ∀ d, r.get? token = some d → r.Inhabits ignoreCase d.pattern)
    (hi : initial < a.size) : WP (Build.token r token ignoreCase initial)
      (fun f a' => ∀ p, a.size ≤ p → p < a'.size → Path.Reaches a'.moves p f.exit)
      (fun _ _ => True) a := by
  cases hd : r.get? token with
  | none =>
      rw [token_of_unknown hd]
      exact wp_fault.mpr trivial
  | some d =>
      rw [token_of_known hd]
      refine wp_bind.mpr ((drains_inlined (h d hd) a).mono (fun f a₁ hf => ?_) fun _ _ => id)
      have hsize := hf.size_le
      refine wp_bind.mpr (wp_change_update (fun _ => rfl) (fun s s' hs hs' => ?_) fun _ => trivial)
      obtain rfl := Except.ok.inj hs'
      refine wp_bind.mpr (wp_link_gains (Nat.zero_le _) (by rw [size_set]; omega) fun a' hg _ => ?_)
      refine wp_pure.mpr fun p hp hlt => ?_
      rw [hg.size_eq, size_set] at hlt
      exact (hf.reaches p hp hlt).mono fun p o q hm => hg.moves p o q ((moves_setFinal hs).mpr hm)

end Build

end ScannerTables
