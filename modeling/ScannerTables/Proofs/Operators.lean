import ScannerTables.Proofs.Exactness
/-!
# What the operators of patterns pass on

Properties of builders are shown of the leaves of patterns and passed on by the operators. A
property that is passed on when builders run one after the other is `Compositional`, and every
operator passes it on; a property for which an operator needs an argument of its own is shown to be
passed on operator by operator (`Composes`). Either way it holds of whole patterns, with all
references inlined, if it holds of what inlining meets (`Suits`).

Proofs about inlining go by `TokenRegistry.inlining_induction`, which enters a reference if its
label is not being inlined.
-/

namespace ScannerTables

/-- A pattern is looked at directly inside another. The body of a repetition that allows no copy is
not looked at. -/
inductive Pattern.Encloses : Pattern → Pattern → Prop
  | unit {ps : List Pattern} {p : Pattern} (h : p ∈ ps) : Encloses (.sequence ps) p
  | alternative {ps : List Pattern} {p : Pattern} (h : p ∈ ps) : Encloses (.choice ps) p
  | zeroOrMore (p : Pattern) : Encloses (.zeroOrMore p) p
  | oneOrMore (p : Pattern) : Encloses (.oneOrMore p) p
  | zeroOrOne (p : Pattern) : Encloses (.zeroOrOne p) p
  | repetition {p : Pattern} {min : Nat} {max : Option Nat} (h : max ≠ some 0) :
      Encloses (.repetition p min max) p

/-- Induction along inlining: what is shown of a reference may be assumed of the pattern that it
stands for, with the label among those that are being inlined. -/
@[elab_as_elim] theorem TokenRegistry.inlining_induction (r : TokenRegistry)
    {motive : List String → Pattern → Prop}
    (charClass : ∀ resolving k, motive resolving (.charClass k))
    (literal : ∀ resolving text, motive resolving (.literal text))
    (sequence : ∀ resolving ps, (∀ p ∈ ps, motive resolving p) → motive resolving (.sequence ps))
    (choice : ∀ resolving ps, (∀ p ∈ ps, motive resolving p) → motive resolving (.choice ps))
    (zeroOrMore : ∀ resolving p, motive resolving p → motive resolving (.zeroOrMore p))
    (oneOrMore : ∀ resolving p, motive resolving p → motive resolving (.oneOrMore p))
    (zeroOrOne : ∀ resolving p, motive resolving p → motive resolving (.zeroOrOne p))
    (repetition : ∀ resolving p min max, motive resolving p →
      motive resolving (.repetition p min max))
    (reference : ∀ resolving label, (∀ q, label ∉ resolving → r.resolve? label = some q →
      motive (label :: resolving) q) → motive resolving (.reference label))
    (resolving : List String) (p : Pattern) : motive resolving p := by
  induction hn : r.unopened resolving using Nat.strongRecOn generalizing resolving p with
  | _ n ih =>
      induction p using Pattern.induction with
      | charClass k => exact charClass resolving k
      | literal text => exact literal resolving text
      | sequence ps ih => exact sequence resolving ps ih
      | choice ps ih => exact choice resolving ps ih
      | zeroOrMore p ih => exact zeroOrMore resolving p ih
      | oneOrMore p ih => exact oneOrMore resolving p ih
      | zeroOrOne p ih => exact zeroOrOne resolving p ih
      | repetition p min max ih => exact repetition resolving p min max ih
      | reference label =>
          refine reference resolving label fun q hl hq => ?_
          exact ih _ (hn ▸ unopened_cons_lt hq hl) (label :: resolving) q rfl

namespace Build

/-! ### Inlining pattern by pattern -/

section

variable {r : TokenRegistry} {token : Nat} {ignoreCase : Bool} {resolving : List String}
variable {p q : Pattern} {label : String}

theorem inlined_charClass (k : CharacterClass) :
    inlined r token ignoreCase resolving (.charClass k) =
      ranges token (k.orderedRanges ignoreCase) := by
  rw [inlined, pattern]

theorem inlined_literal (text : String) :
    inlined r token ignoreCase resolving (.literal text) = literal token ignoreCase text := by
  rw [inlined, pattern]

theorem inlined_sequence (ps : List Pattern) :
    inlined r token ignoreCase resolving (.sequence ps) =
      sequence token (ps.map (inlined r token ignoreCase resolving)) := by
  rw [inlined, pattern, patterns_eq_map]
  exact congrArg _ (List.map_congr_left fun p _ => inlined.eq_def .. |>.symm)

theorem inlined_choice (ps : List Pattern) :
    inlined r token ignoreCase resolving (.choice ps) =
      choice token (ps.map (inlined r token ignoreCase resolving)) := by
  rw [inlined, pattern, patterns_eq_map]
  exact congrArg _ (List.map_congr_left fun p _ => inlined.eq_def .. |>.symm)

theorem inlined_zeroOrMore : inlined r token ignoreCase resolving (.zeroOrMore p) =
    zeroOrMore token (inlined r token ignoreCase resolving p) := by
  rw [inlined, pattern, ← inlined]

theorem inlined_oneOrMore : inlined r token ignoreCase resolving (.oneOrMore p) =
    oneOrMore token (inlined r token ignoreCase resolving p) := by
  rw [inlined, pattern, ← inlined]

theorem inlined_zeroOrOne : inlined r token ignoreCase resolving (.zeroOrOne p) =
    zeroOrOne token (inlined r token ignoreCase resolving p) := by
  rw [inlined, pattern, ← inlined]

theorem inlined_repetition (min : Nat) (max : Option Nat) :
    inlined r token ignoreCase resolving (.repetition p min max) =
      repetition token min max (inlined r token ignoreCase resolving p) := by
  rw [inlined, pattern, ← inlined]

theorem inlined_of_mem (h : label ∈ resolving) :
    inlined r token ignoreCase resolving (.reference label) =
      fault (.recursiveReference label) := by
  rw [inlined, pattern, dif_pos h]

theorem inlined_of_unresolved (hl : label ∉ resolving) (h : r.resolve? label = none) :
    inlined r token ignoreCase resolving (.reference label) =
      fault (.undefinedReference label) := by
  rw [inlined, pattern, dif_neg hl]
  split
  · rfl
  · next q hq => exact absurd (hq.symm.trans h) (Option.some_ne_none q)

theorem inlined_of_resolved (hl : label ∉ resolving) (h : r.resolve? label = some q) :
    inlined r token ignoreCase resolving (.reference label) =
      inlined r token ignoreCase (label :: resolving) q := by
  rw [inlined, pattern, dif_neg hl]
  split
  · next hnone => exact absurd (h.symm.trans hnone) (Option.some_ne_none q)
  · next q' hq' => rw [Option.some.inj (h.symm.trans hq')]

end

/-! ### Properties that operators pass on -/

variable {α β : Type} {token min : Nat} {max : Option Nat} {ignoreCase : Bool} {r : TokenRegistry}
variable {part : Build Fragment} {parts : List (Build Fragment)}

/-- A property that every operator passes on from the builders of its parts, except that nothing is
said of a choice without alternatives. -/
structure Composes (token : Nat) (P : Build Fragment → Prop) : Prop where
  sequence : ∀ {parts}, (∀ part ∈ parts, P part) → P (Build.sequence token parts)
  choice : ∀ {parts}, parts ≠ [] → (∀ part ∈ parts, P part) → P (Build.choice token parts)
  zeroOrMore : ∀ {part}, P part → P (Build.zeroOrMore token part)
  oneOrMore : ∀ {part}, P part → P (Build.oneOrMore token part)
  zeroOrOne : ∀ {part}, P part → P (Build.zeroOrOne token part)

/-- What a property asks of the patterns that inlining meets, where `Q` is known of each of them
with the labels that are being inlined. -/
structure Suits (r : TokenRegistry) (token : Nat) (ignoreCase : Bool) (P : Build Fragment → Prop)
    (Q : List String → Pattern → Prop) : Prop where
  inside : ∀ {resolving p q}, Q resolving p → p.Encloses q → Q resolving q
  charClass : ∀ {resolving k}, Q resolving (.charClass k) →
    P (ranges token (k.orderedRanges ignoreCase))
  literal : ∀ text, P (Build.literal token ignoreCase text)
  empty : ∀ {resolving}, Q resolving (.choice []) → P (Build.choice token [])
  inverted : ∀ {resolving p min max}, Q resolving (.repetition p min (some max)) → max < min →
    P (fault (.invalidRepetition min max))
  recursive : ∀ {resolving label}, Q resolving (.reference label) → label ∈ resolving →
    P (fault (.recursiveReference label))
  undefined : ∀ {resolving label}, Q resolving (.reference label) → label ∉ resolving →
    r.resolve? label = none → P (fault (.undefinedReference label))
  reference : ∀ {resolving label q}, Q resolving (.reference label) → label ∉ resolving →
    r.resolve? label = some q → Q (label :: resolving) q

namespace Composes

variable {P : Build Fragment → Prop} {Q : List String → Pattern → Prop}

theorem repetition (h : Composes token P)
    (inverted : ∀ n ∈ max, n < min → P (fault (.invalidRepetition min n)))
    (hpart : max ≠ some 0 → P part) : P (Build.repetition token min max part) := by
  cases max with
  | none =>
      apply h.sequence
      have hpart := hpart (Option.some_ne_none 0).symm
      intro b hb
      cases List.mem_append.mp hb with
      | inl hb => exact (List.mem_replicate.mp hb).2 ▸ hpart
      | inr hb => exact List.mem_singleton.mp hb ▸ h.zeroOrMore hpart
  | some max =>
      rw [Build.repetition]
      split
      · next hlt => exact inverted max rfl hlt
      · next hle =>
        apply h.sequence
        intro b hb
        cases List.mem_append.mp hb with
        | inl hb =>
            obtain ⟨hne, rfl⟩ := List.mem_replicate.mp hb
            exact hpart (by rintro ⟨⟩; omega)
        | inr hb =>
            obtain ⟨hne, rfl⟩ := List.mem_replicate.mp hb
            exact h.zeroOrOne (hpart (by rintro ⟨⟩; omega))

/-- A property that operators pass on holds of a pattern with its references inlined if it suits all
that inlining meets. -/
theorem inlined (h : Composes token P) (hs : Suits r token ignoreCase P Q)
    {resolving : List String} {p : Pattern} (hp : Q resolving p) :
    P (Build.inlined r token ignoreCase resolving p) := by
  induction resolving, p using TokenRegistry.inlining_induction r with
  | charClass resolving k =>
      rw [inlined_charClass]
      exact hs.charClass hp
  | literal resolving text =>
      rw [inlined_literal]
      exact hs.literal text
  | sequence resolving ps ih =>
      rw [inlined_sequence]
      exact h.sequence (List.forall_mem_map.mpr fun p hmem => ih p hmem (hs.inside hp (.unit hmem)))
  | choice resolving ps ih =>
      rw [inlined_choice]
      by_cases hne : ps = []
      · subst hne
        exact hs.empty hp
      · refine h.choice (mt List.map_eq_nil_iff.mp hne) (List.forall_mem_map.mpr fun p hmem => ?_)
        exact ih p hmem (hs.inside hp (.alternative hmem))
  | zeroOrMore resolving p ih =>
      rw [inlined_zeroOrMore]
      exact h.zeroOrMore (ih (hs.inside hp (.zeroOrMore p)))
  | oneOrMore resolving p ih =>
      rw [inlined_oneOrMore]
      exact h.oneOrMore (ih (hs.inside hp (.oneOrMore p)))
  | zeroOrOne resolving p ih =>
      rw [inlined_zeroOrOne]
      exact h.zeroOrOne (ih (hs.inside hp (.zeroOrOne p)))
  | repetition resolving p min max ih =>
      rw [inlined_repetition]
      refine h.repetition (fun n hn hlt => ?_) fun hne => ih (hs.inside hp (.repetition hne))
      obtain rfl : max = some n := hn
      exact hs.inverted hp hlt
  | reference resolving label ih =>
      by_cases hl : label ∈ resolving
      · rw [inlined_of_mem hl]
        exact hs.recursive hp hl
      · cases hq : r.resolve? label with
        | none =>
            rw [inlined_of_unresolved hl hq]
            exact hs.undefined hp hl hq
        | some q =>
            rw [inlined_of_resolved hl hq]
            exact ih q hl hq (hs.reference hp hl hq)

end Composes

/-! ### Properties that are passed on from step to step -/

/-- A property of adding a state and of adding an epsilon move that builders have if all that they
run one after the other has it. -/
structure Compositional (P : ∀ {α : Type}, Build α → Prop) : Prop where
  pure : ∀ {α : Type} (x : α), P (pure x)
  bind : ∀ {α β : Type} {b : Build α} {k : α → Build β}, P b → (∀ x, P (k x)) → P (b >>= k)
  newState : ∀ token, P (newState token)
  link : ∀ source target, P (link source target)

namespace Compositional

variable {P : ∀ {α : Type}, Build α → Prop}

theorem forM (h : Compositional P) {γ : Type} {f : γ → Build PUnit} {l : List γ}
    (hf : ∀ x ∈ l, P (f x)) : P (l.forM f) := by
  induction l with
  | nil => exact h.pure _
  | cons x l ih =>
      rw [List.forall_mem_cons] at hf
      exact h.bind hf.1 fun _ => ih hf.2

/-- What is built between two new states. -/
theorem brackets (h : Compositional P) {k : Nat → Nat → Build β}
    (hk : ∀ entry exit, P (k entry exit)) : P (do
      let entry ← Build.newState token
      let exit ← Build.newState token
      k entry exit) :=
  h.bind (h.newState token) fun entry => h.bind (h.newState token) (hk entry)

/-- What follows an epsilon move. -/
theorem link_bind (h : Compositional P) {source target : Nat} {rest : Build β} (hrest : P rest) :
    P (Build.link source target >>= fun _ => rest) :=
  h.bind (h.link source target) fun _ => hrest

theorem sequenceFrom (h : Compositional P) {previous exit : Nat}
    (hparts : ∀ part ∈ parts, P part) : P (Build.sequenceFrom previous exit parts) := by
  induction parts generalizing previous with
  | nil => exact h.link previous exit
  | cons part parts ih =>
      rw [List.forall_mem_cons] at hparts
      exact h.bind hparts.1 fun f => h.link_bind (ih hparts.2)

theorem sequence (h : Compositional P) (hparts : ∀ part ∈ parts, P part) :
    P (Build.sequence token parts) := by
  rw [sequence.eq_def]
  split
  · next part => exact hparts part (List.mem_singleton_self part)
  · exact h.brackets fun entry exit => h.bind (h.sequenceFrom hparts) fun _ => h.pure _

theorem choice (h : Compositional P) (hparts : ∀ part ∈ parts, P part) :
    P (Build.choice token parts) := by
  rw [choice.eq_def]
  split
  · next part => exact hparts part (List.mem_singleton_self part)
  · refine h.brackets fun entry exit => h.bind (h.forM fun part hpart => ?_) fun _ => h.pure _
    exact h.bind (hparts part hpart) fun f => h.link_bind (h.link f.exit exit)

theorem zeroOrMore (h : Compositional P) (hpart : P part) : P (Build.zeroOrMore token part) := by
  refine h.brackets fun entry exit => h.bind hpart fun f => ?_
  exact h.link_bind (h.link_bind (h.link_bind (h.link_bind (h.pure _))))

theorem oneOrMore (h : Compositional P) (hpart : P part) : P (Build.oneOrMore token part) := by
  refine h.brackets fun entry exit => h.bind hpart fun f => ?_
  exact h.link_bind (h.link_bind (h.link_bind (h.pure _)))

theorem zeroOrOne (h : Compositional P) (hpart : P part) : P (Build.zeroOrOne token part) := by
  refine h.brackets fun entry exit => h.bind hpart fun f => ?_
  exact h.link_bind (h.link_bind (h.link_bind (h.pure _)))

theorem composes (h : Compositional P) : Composes token fun b => P b where
  sequence := h.sequence
  choice _ := h.choice
  zeroOrMore := h.zeroOrMore
  oneOrMore := h.oneOrMore
  zeroOrOne := h.zeroOrOne

end Compositional

end Build

end ScannerTables
