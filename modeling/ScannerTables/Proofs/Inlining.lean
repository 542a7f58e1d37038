import ScannerTables.Proofs.Operators
/-!
# Patterns that can be built

A builder fails for a fault of a definition or not at all, and whether it does is a matter of the
pattern and of the registry: `TokenRegistry.Inlines` says that every reference on the way can be
inlined and that every counted repetition has its bounds in order. Any other pattern has a fault
that inlining meets first, `TokenRegistry.FirstFault`, which is what the builder fails for. So a
token is built exactly if its pattern can be inlined, on top of whatever was built before, and then
a registry with more definitions builds it too, for the same language.
-/

namespace ScannerTables

/-! ### References that can be inlined -/

/-- A pattern that can be built while the labels in `resolving` are being inlined. The body of a
repetition that allows no copy is not looked at. -/
inductive TokenRegistry.Inlines (r : TokenRegistry) : List String → Pattern → Prop
  | charClass {resolving : List String} (k : CharacterClass) : Inlines r resolving (.charClass k)
  | literal {resolving : List String} (text : String) : Inlines r resolving (.literal text)
  | sequence {resolving : List String} {ps : List Pattern} (h : ∀ p ∈ ps, Inlines r resolving p) :
      Inlines r resolving (.sequence ps)
  | choice {resolving : List String} {ps : List Pattern} (h : ∀ p ∈ ps, Inlines r resolving p) :
      Inlines r resolving (.choice ps)
  | zeroOrMore {resolving : List String} {p : Pattern} (h : Inlines r resolving p) :
      Inlines r resolving (.zeroOrMore p)
  | oneOrMore {resolving : List String} {p : Pattern} (h : Inlines r resolving p) :
      Inlines r resolving (.oneOrMore p)
  | zeroOrOne {resolving : List String} {p : Pattern} (h : Inlines r resolving p) :
      Inlines r resolving (.zeroOrOne p)
  | repetition {resolving : List String} {p : Pattern} {min : Nat} {max : Option Nat}
      (hmax : ∀ n ∈ max, min ≤ n) (h : max ≠ some 0 → Inlines r resolving p) :
      Inlines r resolving (.repetition p min max)
  | reference {resolving : List String} {label : String} {p : Pattern} (hlabel : label ∉ resolving)
      (hp : r.resolve? label = some p) (h : Inlines r (label :: resolving) p) :
      Inlines r resolving (.reference label)

/-- The fault that inlining a pattern meets first, going from left to right and into every pattern
before going on, where the labels in `resolving` are being inlined. The bounds of a repetition are
looked at before its body. -/
inductive TokenRegistry.FirstFault (r : TokenRegistry) :
    List String → Pattern → DefinitionError → Prop
  | unit {resolving : List String} {before after : List Pattern} {p : Pattern}
      {e : DefinitionError} (hbefore : ∀ q ∈ before, r.Inlines resolving q)
      (h : FirstFault r resolving p e) : FirstFault r resolving (.sequence (before ++ p :: after)) e
  | alternative {resolving : List String} {before after : List Pattern} {p : Pattern}
      {e : DefinitionError} (hbefore : ∀ q ∈ before, r.Inlines resolving q)
      (h : FirstFault r resolving p e) : FirstFault r resolving (.choice (before ++ p :: after)) e
  | zeroOrMore {resolving : List String} {p : Pattern} {e : DefinitionError}
      (h : FirstFault r resolving p e) : FirstFault r resolving (.zeroOrMore p) e
  | oneOrMore {resolving : List String} {p : Pattern} {e : DefinitionError}
      (h : FirstFault r resolving p e) : FirstFault r resolving (.oneOrMore p) e
  | zeroOrOne {resolving : List String} {p : Pattern} {e : DefinitionError}
      (h : FirstFault r resolving p e) : FirstFault r resolving (.zeroOrOne p) e
  | bounds {resolving : List String} {min max : Nat} (p : Pattern) (h : max < min) :
      FirstFault r resolving (.repetition p min (some max)) (.invalidRepetition min max)
  | copy {resolving : List String} {p : Pattern} {min : Nat} {max : Option Nat}
      {e : DefinitionError} (hmax : ∀ n ∈ max, min ≤ n) (hne : max ≠ some 0)
      (h : FirstFault r resolving p e) : FirstFault r resolving (.repetition p min max) e
  | recursive {resolving : List String} {label : String} (h : label ∈ resolving) :
      FirstFault r resolving (.reference label) (.recursiveReference label)
  | undefined {resolving : List String} {label : String} (hlabel : label ∉ resolving)
      (h : r.resolve? label = none) :
      FirstFault r resolving (.reference label) (.undefinedReference label)
  | reference {resolving : List String} {label : String} {p : Pattern} {e : DefinitionError}
      (hlabel : label ∉ resolving) (hp : r.resolve? label = some p)
      (h : FirstFault r (label :: resolving) p e) : FirstFault r resolving (.reference label) e

/-- What stands inside a pattern that can be built can be built. -/
theorem TokenRegistry.Inlines.inside {r : TokenRegistry} {resolving : List String} {p q : Pattern}
    (h : r.Inlines resolving p) (hq : p.Encloses q) : r.Inlines resolving q := by
  cases hq with
  | unit hmem =>
      cases h with
      | sequence h => exact h q hmem
  | alternative hmem =>
      cases h with
      | choice h => exact h q hmem
  | zeroOrMore =>
      cases h with
      | zeroOrMore h => exact h
  | oneOrMore =>
      cases h with
      | oneOrMore h => exact h
  | zeroOrOne =>
      cases h with
      | zeroOrOne h => exact h
  | repetition hne =>
      cases h with
      | repetition _ h => exact h hne

/-- A token whose pattern can be built; its own label is being inlined from the start. -/
def TokenRegistry.Constructs (r : TokenRegistry) (token : Nat) : Prop :=
  ∃ d, r.get? token = some d ∧ r.Inlines d.label.toList d.pattern

/-- All members of a list have a property, or there is a first that has another. -/
theorem forall_or_exists_first {α : Type} {P Q : α → Prop} {l : List α}
    (h : ∀ x ∈ l, P x ∨ Q x) : (∀ x ∈ l, P x) ∨
      ∃ before x after, l = before ++ x :: after ∧ (∀ y ∈ before, P y) ∧ Q x := by
  induction l with
  | nil => exact .inl fun _ hx => absurd hx List.not_mem_nil
  | cons x l ih =>
      rw [List.forall_mem_cons] at h
      obtain ⟨hx, hl⟩ := h
      cases hx with
      | inr hq => exact .inr ⟨[], x, l, rfl, fun _ h => absurd h List.not_mem_nil, hq⟩
      | inl hp =>
          cases ih hl with
          | inl hall => exact .inl (List.forall_mem_cons.mpr ⟨hp, hall⟩)
          | inr hfirst =>
              obtain ⟨before, y, after, rfl, hbefore, hq⟩ := hfirst
              exact .inr ⟨x :: before, y, after, rfl, List.forall_mem_cons.mpr ⟨hp, hbefore⟩, hq⟩

/-- A pattern can be inlined, or there is a fault that inlining meets first. -/
theorem TokenRegistry.inlines_or_exists_firstFault (r : TokenRegistry) (resolving : List String)
    (p : Pattern) : r.Inlines resolving p ∨ ∃ e, r.FirstFault resolving p e := by
  induction resolving, p using inlining_induction r with
  | charClass resolving k => exact .inl (.charClass k)
  | literal resolving text => exact .inl (.literal text)
  | sequence resolving ps ih =>
      cases forall_or_exists_first ih with
      | inl hall => exact .inl (.sequence hall)
      | inr hfirst =>
          obtain ⟨before, p, after, rfl, hbefore, e, he⟩ := hfirst
          exact .inr ⟨e, .unit hbefore he⟩
  | choice resolving ps ih =>
      cases forall_or_exists_first ih with
      | inl hall => exact .inl (.choice hall)
      | inr hfirst =>
          obtain ⟨before, p, after, rfl, hbefore, e, he⟩ := hfirst
          exact .inr ⟨e, .alternative hbefore he⟩
  | zeroOrMore resolving p ih => exact ih.imp .zeroOrMore fun ⟨e, he⟩ => ⟨e, .zeroOrMore he⟩
  | oneOrMore resolving p ih => exact ih.imp .oneOrMore fun ⟨e, he⟩ => ⟨e, .oneOrMore he⟩
  | zeroOrOne resolving p ih => exact ih.imp .zeroOrOne fun ⟨e, he⟩ => ⟨e, .zeroOrOne he⟩
  | repetition resolving p min max ih =>
      by_cases hmax : ∀ n ∈ max, min ≤ n
      · by_cases hne : max = some 0
        · exact .inl (.repetition hmax fun h => absurd hne h)
        · exact ih.imp (fun h => .repetition hmax fun _ => h) fun ⟨e, he⟩ => ⟨e, .copy hmax hne he⟩
      · push Not at hmax
        obtain ⟨n, hn, hlt⟩ := hmax
        obtain rfl : max = some n := hn
        exact .inr ⟨_, .bounds p hlt⟩
  | reference resolving label ih =>
      by_cases hl : label ∈ resolving
      · exact .inr ⟨_, .recursive hl⟩
      · cases hq : r.resolve? label with
        | none => exact .inr ⟨_, .undefined hl hq⟩
        | some q =>
            exact (ih q hl hq).imp (.reference hl hq) fun ⟨e, he⟩ => ⟨e, .reference hl hq he⟩

namespace Build

variable {α β : Type} {b : Build α} {k : α → Build β} {a a' : Automaton} {token : Nat}
variable {part : Build Fragment} {parts : List (Build Fragment)} {ignoreCase : Bool}

/-! ### Builders without faults -/

/-- A builder that does not fail for a fault of a definition. -/
def Faultless (b : Build α) : Prop :=
  ∀ a, WP b (fun _ _ => True) (fun e _ => ∀ d, e ≠ .faulty d) a

theorem faultless_pure (x : α) : Faultless (pure x) := fun _ => wp_pure.mpr trivial

theorem faultless_bind (hb : Faultless b) (hk : ∀ x, Faultless (k x)) : Faultless (b >>= k) :=
  fun a => wp_bind.mpr ((hb a).mono (fun x a' _ => hk x a') fun _ _ => id)

theorem faultless_change (f : Automaton → Except Misuse Automaton) : Faultless (change f) := by
  intro a
  rw [WP, change]
  cases f a with
  | ok a' => trivial
  | error m => exact fun _ => Failure.noConfusion

/-- What follows a change of the automaton. -/
theorem faultless_change_bind {f : Automaton → Except Misuse Automaton} {rest : Build β}
    (h : Faultless rest) : Faultless (change f >>= fun _ => rest) :=
  faultless_bind (faultless_change f) fun _ => h

theorem compositional_faultless : Compositional @Faultless where
  pure := faultless_pure
  bind := faultless_bind
  newState _ _ := wp_newState.mpr trivial
  link _ _ := faultless_change _

theorem faultless_ranges (l : List Interval) : Faultless (ranges token l) := by
  refine compositional_faultless.brackets fun entry exit => faultless_bind ?_ fun _ => ?_
  · exact compositional_faultless.forM fun _ _ => faultless_change _
  · exact faultless_change_bind (faultless_pure _)

theorem faultless_chain (cs : List Char) (current : Nat) :
    Faultless (chain token ignoreCase current cs) := by
  induction cs generalizing current with
  | nil => exact faultless_pure _
  | cons c cs ih =>
      refine faultless_bind (compositional_faultless.newState token) fun next => ?_
      exact faultless_change_bind (faultless_change_bind (ih next))

theorem faultless_literal (text : String) : Faultless (literal token ignoreCase text) :=
  faultless_bind (compositional_faultless.newState token) fun _ =>
    faultless_bind (faultless_chain _ _) fun _ => faultless_pure _

/-! ### Builders with a fault -/

variable {e : DefinitionError} {before after : List (Build Fragment)}

/-- A builder that fails, and for no fault of a definition but the given one. -/
def Stops (e : DefinitionError) (b : Build α) : Prop :=
  ∀ a, WP b (fun _ _ => False) (fun e' _ => ∀ d, e' = .faulty d → d = e) a

theorem stops_fault (e : DefinitionError) : Stops e (fault e : Build α) := fun _ =>
  wp_fault.mpr fun _ heq => (Failure.faulty.inj heq).symm

/-- Nothing is done after a fault. -/
theorem Stops.bind (h : Stops e b) : Stops e (b >>= k) := fun a =>
  wp_bind.mpr ((h a).mono (fun _ _ => False.elim) fun _ _ => id)

/-- What is done before a fault is without one. -/
theorem Faultless.stops_bind (hb : Faultless b) (hk : ∀ x, Stops e (k x)) : Stops e (b >>= k) :=
  fun a => wp_bind.mpr
    ((hb a).mono (fun x a' _ => hk x a') fun _ _ hnone d hd => absurd hd (hnone d))

theorem stops_brackets {k : Nat → Nat → Build β} (hk : ∀ entry exit, Stops e (k entry exit)) :
    Stops e (do
      let entry ← newState token
      let exit ← newState token
      k entry exit) :=
  (compositional_faultless.newState token).stops_bind fun entry =>
    (compositional_faultless.newState token).stops_bind (hk entry)

theorem stops_forM {γ : Type} {f : γ → Build PUnit} {x : γ} {before after : List γ}
    (hbefore : ∀ y ∈ before, Faultless (f y)) (h : Stops e (f x)) :
    Stops e ((before ++ x :: after).forM f) := by
  induction before with
  | nil => exact h.bind
  | cons y before ih =>
      rw [List.forall_mem_cons] at hbefore
      exact hbefore.1.stops_bind fun _ => ih hbefore.2

theorem stops_sequenceFrom {previous exit : Nat} (hbefore : ∀ part ∈ before, Faultless part)
    (h : Stops e part) : Stops e (sequenceFrom previous exit (before ++ part :: after)) := by
  induction before generalizing previous with
  | nil => exact h.bind
  | cons b before ih =>
      rw [List.forall_mem_cons] at hbefore
      exact hbefore.1.stops_bind fun f => (faultless_change _).stops_bind fun _ => ih hbefore.2

/-- A part that is the only one stands for itself. -/
theorem eq_of_append_eq_singleton {part' : Build Fragment}
    (h : before ++ part :: after = [part']) : part = part' := by
  cases before with
  | nil => exact (List.cons.inj h).1
  | cons b before => exact absurd (List.cons.inj h).2 (by simp)

theorem stops_sequence (hbefore : ∀ part ∈ before, Faultless part) (h : Stops e part) :
    Stops e (sequence token (before ++ part :: after)) := by
  rw [sequence.eq_def]
  split
  · next part' heq => exact eq_of_append_eq_singleton heq ▸ h
  · exact stops_brackets fun entry exit => (stops_sequenceFrom hbefore h).bind

theorem stops_choice (hbefore : ∀ part ∈ before, Faultless part) (h : Stops e part) :
    Stops e (choice token (before ++ part :: after)) := by
  rw [choice.eq_def]
  split
  · next part' heq => exact eq_of_append_eq_singleton heq ▸ h
  · refine stops_brackets fun entry exit => Stops.bind (stops_forM (fun part hpart => ?_) ?_)
    · exact faultless_bind (hbefore part hpart) fun f => faultless_change_bind (faultless_change _)
    · exact h.bind

theorem stops_zeroOrMore (h : Stops e part) : Stops e (zeroOrMore token part) :=
  stops_brackets fun _ _ => h.bind

theorem stops_oneOrMore (h : Stops e part) : Stops e (oneOrMore token part) :=
  stops_brackets fun _ _ => h.bind

theorem stops_zeroOrOne (h : Stops e part) : Stops e (zeroOrOne token part) :=
  stops_brackets fun _ _ => h.bind

/-- The first copy of the body meets the fault. -/
theorem stops_repetition {min : Nat} {max : Option Nat} (hmax : ∀ n ∈ max, min ≤ n)
    (hne : max ≠ some 0) (h : Stops e part) : Stops e (repetition token min max part) := by
  have first : ∀ {first : Build Fragment} (after : List (Build Fragment)), Stops e first →
      Stops e (sequence token ([] ++ first :: after)) := fun after h =>
    stops_sequence (fun _ hmem => absurd hmem List.not_mem_nil) h
  cases min with
  | zero =>
      cases max with
      | none => exact first [] (stops_zeroOrMore h)
      | some max =>
          obtain ⟨max, rfl⟩ := Nat.exists_eq_succ_of_ne_zero (fun h => hne (congrArg some h))
          exact first _ (stops_zeroOrOne h)
  | succ min =>
      cases max with
      | none => exact first _ h
      | some max =>
          rw [repetition, if_neg (Nat.not_lt.mpr (hmax max rfl))]
          exact first _ h

/-! ### Patterns -/

section

variable {r : TokenRegistry} {resolving : List String} {p : Pattern}

/-- What can be built has none of the faults that inlining may meet. -/
theorem suits_faultless : Suits r token ignoreCase Faultless r.Inlines where
  inside := .inside
  charClass _ := faultless_ranges _
  literal := faultless_literal
  empty _ := compositional_faultless.choice fun _ h => absurd h List.not_mem_nil
  inverted h hlt := by
    cases h with
    | repetition hmax _ => exact absurd (hmax _ rfl) (Nat.not_le.mpr hlt)
  recursive h hl := by
    cases h with
    | reference hl' _ _ => exact absurd hl hl'
  undefined h _ hnone := by
    cases h with
    | reference _ hq _ => exact absurd (hq.symm.trans hnone) (Option.some_ne_none _)
  reference h _ hq := by
    cases h with
    | reference _ hq' h => exact Option.some.inj (hq'.symm.trans hq) ▸ h

/-- Inlining has no faults if every reference can be inlined. -/
theorem faultless_inlined (h : r.Inlines resolving p) :
    Faultless (inlined r token ignoreCase resolving p) :=
  compositional_faultless.composes.inlined suits_faultless h

/-- A pattern is not built if inlining meets a fault, and fails for the first one. -/
theorem stops_inlined (h : r.FirstFault resolving p e) :
    Stops e (inlined r token ignoreCase resolving p) := by
  induction h with
  | unit hbefore _ ih =>
      rw [inlined_sequence, List.map_append, List.map_cons]
      exact stops_sequence (List.forall_mem_map.mpr fun q hq => faultless_inlined (hbefore q hq)) ih
  | alternative hbefore _ ih =>
      rw [inlined_choice, List.map_append, List.map_cons]
      exact stops_choice (List.forall_mem_map.mpr fun q hq => faultless_inlined (hbefore q hq)) ih
  | zeroOrMore _ ih => exact inlined_zeroOrMore ▸ stops_zeroOrMore ih
  | oneOrMore _ ih => exact inlined_oneOrMore ▸ stops_oneOrMore ih
  | zeroOrOne _ ih => exact inlined_zeroOrOne ▸ stops_zeroOrOne ih
  | bounds p hlt =>
      rw [inlined_repetition, repetition, if_pos hlt]
      exact stops_fault _
  | copy hmax hne _ ih =>
      rw [inlined_repetition]
      exact stops_repetition hmax hne ih
  | recursive hl => exact inlined_of_mem hl ▸ stops_fault _
  | undefined hl hnone => exact inlined_of_unresolved hl hnone ▸ stops_fault _
  | reference hl hq _ ih => exact inlined_of_resolved hl hq ▸ ih

/-! ### Tokens -/

variable {initial : Nat} {d : TokenDefinition} {f : Fragment}

theorem token_of_unknown (hd : r.get? token = none) :
    Build.token r token ignoreCase initial = fault (.unknownToken token) := by
  rw [Build.token, hd]

theorem token_of_known (hd : r.get? token = some d) : Build.token r token ignoreCase initial = do
    let f ← inlined r token ignoreCase d.label.toList d.pattern
    change (·.setFinal f.exit)
    link initial f.entry
    return f := by
  rw [Build.token, hd]

/-- A token that was built has a pattern that can be built. -/
theorem constructs_of_eq_ok (h : Build.token r token ignoreCase initial a = .ok f a') :
    r.Constructs token := by
  cases hd : r.get? token with
  | none =>
      rw [token_of_unknown hd] at h
      exact absurd h Checked.run_throw_ne_ok
  | some d =>
      refine ⟨d, hd, (r.inlines_or_exists_firstFault _ _).resolve_right ?_⟩
      rintro ⟨e, he⟩
      rw [token_of_known hd] at h
      exact ((stops_inlined he).bind a).of_ok h

theorem faultless_token (h : r.Constructs token) :
    Faultless (Build.token r token ignoreCase initial) := by
  obtain ⟨d, hd, hinlines⟩ := h
  rw [token_of_known hd]
  refine faultless_bind (faultless_inlined hinlines) fun f => ?_
  exact faultless_change_bind (faultless_change_bind (faultless_pure _))

/-- A token whose pattern can be built is built on every automaton. -/
theorem exists_token_eq_ok (h : r.Constructs token) (hi : initial < a.size) :
    ∃ f a', Build.token r token ignoreCase initial a = .ok f a' := by
  cases htoken : Build.token r token ignoreCase initial a with
  | ok f a' => exact ⟨f, a', rfl⟩
  | error e a' =>
      obtain ⟨⟨d, rfl⟩, -⟩ := (wp_token hi).of_error htoken
      exact absurd rfl ((faultless_token h a).of_error htoken d)

end

end Build

/-! ### More definitions -/

namespace TokenRegistry

/-- A registry with the same definitions under their ordinals, and under their labels as far as
these were resolved, and with others besides. -/
structure Extends (r r' : TokenRegistry) : Prop where
  get?_eq : ∀ token d, r.get? token = some d → r'.get? token = some d
  resolve?_eq : ∀ label p, r.resolve? label = some p → r'.resolve? label = some p

variable {r r' : TokenRegistry} {token : Nat} {resolving : List String} {p : Pattern}

theorem resolve?_eq_some_iff {label : String} : r.resolve? label = some p ↔
    ∃ token d, r.byLabel? label = some token ∧ r.get? token = some d ∧ d.pattern = p := by
  rw [resolve?, Option.map_eq_some_iff]
  constructor
  · rintro ⟨d, hd, hpattern⟩
    obtain ⟨token, howner, hd⟩ := Option.bind_eq_some_iff.mp hd
    exact ⟨token, d, howner, hd, hpattern⟩
  · rintro ⟨token, d, howner, hd, hpattern⟩
    exact ⟨d, Option.bind_eq_some_iff.mpr ⟨token, howner, hd⟩, hpattern⟩

/-- A definition that is registered owns its label unless that has an owner. -/
theorem byLabel?_register {d : TokenDefinition} {label : String} :
    (r.register d).byLabel? label =
      if d.label = some label then some ((r.byLabel? label).getD r.size) else r.byLabel? label := by
  rw [byLabel?, register]
  cases d.label with
  | none => rfl
  | some own =>
      dsimp only
      rw [Claims.owner?_claim, Claims.ownerAfter]
      by_cases heq : label = own
      · rw [if_pos heq, if_pos (congrArg some heq.symm), heq, byLabel?]
      · rw [if_neg heq, if_neg fun h => heq (Option.some.inj h).symm, byLabel?]

/-- A registered definition gets a new ordinal, and its label only if nobody owns it. -/
theorem extends_register (d : TokenDefinition) : r.Extends (r.register d) := by
  have hget : ∀ token d', r.get? token = some d' → (r.register d).get? token = some d' := by
    intro token d' hd'
    obtain ⟨hlt, rfl⟩ := Array.getElem?_eq_some_iff.mp hd'
    exact Array.getElem?_push_lt hlt
  refine ⟨hget, fun label p hp => ?_⟩
  obtain ⟨token, d', howner, hd', hpattern⟩ := resolve?_eq_some_iff.mp hp
  have howner' : (r.register d).byLabel? label = some token := by
    rw [byLabel?_register, howner]
    exact ite_self _
  exact resolve?_eq_some_iff.mpr ⟨token, d', howner', hget token d' hd', hpattern⟩

/-- What can be built stays so when definitions are added. -/
theorem Inlines.mono (hr : r.Extends r') (h : r.Inlines resolving p) : r'.Inlines resolving p := by
  induction h with
  | charClass k => exact .charClass k
  | literal text => exact .literal text
  | sequence _ ih => exact .sequence ih
  | choice _ ih => exact .choice ih
  | zeroOrMore _ ih => exact .zeroOrMore ih
  | oneOrMore _ ih => exact .oneOrMore ih
  | zeroOrOne _ ih => exact .zeroOrOne ih
  | repetition hmax _ ih => exact .repetition hmax ih
  | reference hlabel hp _ ih => exact .reference hlabel (hr.resolve?_eq _ _ hp) ih

theorem Constructs.mono (hr : r.Extends r') (h : r.Constructs token) : r'.Constructs token := by
  obtain ⟨d, hd, hinlines⟩ := h
  exact ⟨d, hr.get?_eq token d hd, hinlines.mono hr⟩

/-- A pattern that can be built keeps its language, since the references on the way stay. -/
theorem language_eq_of_inlines (hr : r.Extends r') (h : r.Inlines resolving p)
    (ignoreCase : Bool) : r'.language ignoreCase p = r.language ignoreCase p := by
  induction h with
  | charClass k =>
      ext w
      rw [mem_language_charClass, mem_language_charClass]
  | literal text =>
      ext w
      rw [mem_language_literal, mem_language_literal]
  | @sequence _ ps _ ih =>
      rw [language_sequence, language_sequence, List.map_congr_left ih]
  | choice _ ih =>
      ext w
      rw [mem_language_choice, mem_language_choice]
      exact exists_congr fun p => and_congr_right fun hp => by rw [ih p hp]
  | zeroOrMore _ ih => rw [language_zeroOrMore, language_zeroOrMore, ih]
  | oneOrMore _ ih => rw [language_oneOrMore, language_oneOrMore, ih]
  | zeroOrOne _ ih => rw [language_zeroOrOne, language_zeroOrOne, ih]
  | @repetition _ p min max hmax _ ih =>
      ext w
      rw [mem_language_repetition, mem_language_repetition]
      by_cases hne : max = some 0
      · -- no copies are no copies of anything
        subst hne
        refine exists_congr fun k => and_congr_right fun _ => and_congr_right fun hk => ?_
        obtain rfl : k = 0 := Nat.le_zero.mp (hk 0 rfl)
        rw [pow_zero, pow_zero]
      · rw [ih hne]
  | reference _ hp _ ih =>
      rw [language_reference hp, language_reference (hr.resolve?_eq _ _ hp), ih]

/-- A token that can be built matches the same words when definitions are added. -/
theorem Constructs.matches_iff (hr : r.Extends r') (h : r.Constructs token) {d : TokenDefinition}
    (hd : r.get? token = some d) {ignoreCase : Bool} {w : List Nat} :
    r'.Matches ignoreCase d.pattern w ↔ r.Matches ignoreCase d.pattern w := by
  obtain ⟨d', hd', hinlines⟩ := h
  obtain rfl := Option.some.inj (hd.symm.trans hd')
  exact Set.ext_iff.mp (language_eq_of_inlines hr hinlines ignoreCase) w

end TokenRegistry

end ScannerTables
