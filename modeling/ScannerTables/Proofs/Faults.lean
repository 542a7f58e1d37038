import Mathlib
import ScannerTables.Proofs.Inlining
/-!
# Which definitions are faulty

Building a token inlines its references, and the labels being inlined are kept on a stack on which
none may be met again. What that comes to can be said without the stack: a token is built if it is
registered and its pattern unfolds (`TokenRegistry.Unfolds`), so that inlining comes to an end,
resolves every reference and finds every counted repetition with its bounds in order. A label that
is met again while it is being inlined leads from its pattern back into it, and then inlining does
not end; where it ends, no label is met again.

A token that is not built fails for the fault that inlining meets first, and there is only one.
-/

namespace ScannerTables

open Relation

namespace TokenRegistry

variable {r : TokenRegistry} {p q : Pattern} {resolving : List String} {token : Nat}

/-! ### Unfolding -/

/-- What inlining meets directly behind a pattern: what stands inside it, and for a reference the
pattern that it stands for. -/
inductive Enters (r : TokenRegistry) : Pattern → Pattern → Prop
  | inside {p q : Pattern} (h : p.Encloses q) : Enters r p q
  | reference {label : String} {q : Pattern} (h : r.resolve? label = some q) :
      Enters r (.reference label) q

/-- A pattern whose references can all be inlined. -/
structure Unfolds (r : TokenRegistry) (p : Pattern) : Prop where
  /-- Inlining does not go on for ever. -/
  finite : Acc (fun q p => r.Enters p q) p
  /-- Every reference that is met resolves. -/
  resolves : ∀ label, ReflTransGen r.Enters p (.reference label) →
    ∃ q, r.resolve? label = some q
  /-- Every counted repetition that is met allows as many copies as it demands. -/
  ordered : ∀ q min max, ReflTransGen r.Enters p (.repetition q min (some max)) → min ≤ max

theorem Unfolds.enters (h : r.Unfolds p) (hpq : r.Enters p q) : r.Unfolds q where
  finite := h.finite.inv hpq
  resolves label hlabel := h.resolves label (.head hpq hlabel)
  ordered q' min max hrep := h.ordered q' min max (.head hpq hrep)

theorem Unfolds.of_reaches (h : r.Unfolds p) (hreach : ReflTransGen r.Enters p q) :
    r.Unfolds q := by
  induction hreach with
  | refl => exact h
  | tail _ hlast ih => exact ih.enters hlast

/-- A pattern unfolds if what is met behind it does and nothing is wrong with the pattern itself. -/
theorem Unfolds.of_enters (hall : ∀ q, r.Enters p q → r.Unfolds q)
    (hlabel : ∀ label, p = .reference label → ∃ q, r.resolve? label = some q)
    (hbounds : ∀ q min max, p = .repetition q min (some max) → min ≤ max) : r.Unfolds p where
  finite := .intro p fun q hq => (hall q hq).finite
  resolves label hreach := by
    cases hreach.cases_head with
    | inl heq => exact hlabel label heq
    | inr hfirst =>
        obtain ⟨q, hq, hreach⟩ := hfirst
        exact (hall q hq).resolves label hreach
  ordered q min max hreach := by
    cases hreach.cases_head with
    | inl heq => exact hbounds q min max heq
    | inr hfirst =>
        obtain ⟨q', hq', hreach⟩ := hfirst
        exact (hall q' hq').ordered q min max hreach

/-- Where inlining ends, nothing leads back to itself. -/
theorem not_transGen_self (h : Acc (fun q p => r.Enters p q) p) : ¬ TransGen r.Enters p p := by
  induction h with
  | intro p _ ih =>
      intro hcycle
      obtain ⟨q, hpq, hqp⟩ := TransGen.head'_iff.mp hcycle
      exact ih q hpq (.tail' hqp hpq)

/-- What can be inlined unfolds, whatever is being inlined. -/
theorem Inlines.unfolds (h : r.Inlines resolving p) : r.Unfolds p := by
  -- a pattern that is no reference unfolds if all that stands inside it does
  have of_inside : ∀ {p}, (∀ label, p ≠ .reference label) →
      (∀ q min max, p = .repetition q min (some max) → min ≤ max) →
        (∀ q, p.Encloses q → r.Unfolds q) → r.Unfolds p := by
    intro p hlabel hbounds hinside
    refine .of_enters (fun q hq => ?_) (fun label heq => absurd heq (hlabel label)) hbounds
    cases hq with
    | inside hq => exact hinside q hq
    | reference _ => exact absurd rfl (hlabel _)
  induction h with
  | charClass k => exact of_inside nofun nofun fun _ hq => nomatch hq
  | literal text => exact of_inside nofun nofun fun _ hq => nomatch hq
  | sequence _ ih => exact of_inside nofun nofun fun q (.unit hmem) => ih q hmem
  | choice _ ih => exact of_inside nofun nofun fun q (.alternative hmem) => ih q hmem
  | zeroOrMore _ ih => exact of_inside nofun nofun fun _ (.zeroOrMore _) => ih
  | oneOrMore _ ih => exact of_inside nofun nofun fun _ (.oneOrMore _) => ih
  | zeroOrOne _ ih => exact of_inside nofun nofun fun _ (.zeroOrOne _) => ih
  | repetition hmax _ ih =>
      refine of_inside nofun ?_ fun _ (.repetition hne) => ih hne
      rintro q min max ⟨⟩
      exact hmax max rfl
  | reference hlabel hp _ ih =>
      refine .of_enters (fun q hq => ?_) ?_ nofun
      · cases hq with
        | inside hq => exact nomatch hq
        | reference hq => exact Option.some.inj (hp.symm.trans hq) ▸ ih
      · rintro label ⟨⟩
        exact ⟨_, hp⟩

/-! ### Where a fault is met -/

/-- A fault that inlining can meet behind a pattern: bounds in the wrong order, a reference that is
undefined, or a label that is met while it is being inlined, be it one of those in `resolving` or
one that was entered on the way. -/
inductive Reveals (r : TokenRegistry) (resolving : List String) (p : Pattern) :
    DefinitionError → Prop
  | bounds {q : Pattern} {min max : Nat}
      (hreach : ReflTransGen r.Enters p (.repetition q min (some max))) (hlt : max < min) :
      Reveals r resolving p (.invalidRepetition min max)
  | undefined {label : String} (hreach : ReflTransGen r.Enters p (.reference label))
      (hnone : r.resolve? label = none) : Reveals r resolving p (.undefinedReference label)
  | opened {label : String} (hreach : ReflTransGen r.Enters p (.reference label))
      (hmem : label ∈ resolving) : Reveals r resolving p (.recursiveReference label)
  | recurs {label : String} {q : Pattern} (hreach : ReflTransGen r.Enters p (.reference label))
      (hq : r.resolve? label = some q) (hback : ReflTransGen r.Enters q (.reference label)) :
      Reveals r resolving p (.recursiveReference label)

variable {e : DefinitionError} {label : String}

theorem Reveals.enters (h : r.Reveals resolving q e) (hpq : r.Enters p q) :
    r.Reveals resolving p e := by
  cases h with
  | bounds hreach hlt => exact .bounds (.head hpq hreach) hlt
  | undefined hreach hnone => exact .undefined (.head hpq hreach) hnone
  | opened hreach hmem => exact .opened (.head hpq hreach) hmem
  | recurs hreach hq hback => exact .recurs (.head hpq hreach) hq hback

/-- A reference reveals what its pattern does while the label is being inlined. -/
theorem Reveals.reference (h : r.Reveals (label :: resolving) q e)
    (hq : r.resolve? label = some q) : r.Reveals resolving (.reference label) e := by
  cases h with
  | opened hreach hmem =>
      cases List.mem_cons.mp hmem with
      | inl heq =>
          subst heq
          exact .recurs .refl hq hreach
      | inr hmem => exact .opened (.head (.reference hq) hreach) hmem
  | bounds hreach hlt => exact .bounds (.head (.reference hq) hreach) hlt
  | undefined hreach hnone => exact .undefined (.head (.reference hq) hreach) hnone
  | recurs hreach hq' hback => exact .recurs (.head (.reference hq) hreach) hq' hback

/-- The first fault is among those that can be met. -/
theorem FirstFault.reveals (h : r.FirstFault resolving p e) : r.Reveals resolving p e := by
  induction h with
  | unit _ _ ih => exact ih.enters (.inside (.unit List.mem_append_cons_self))
  | alternative _ _ ih => exact ih.enters (.inside (.alternative List.mem_append_cons_self))
  | zeroOrMore _ ih => exact ih.enters (.inside (.zeroOrMore _))
  | oneOrMore _ ih => exact ih.enters (.inside (.oneOrMore _))
  | zeroOrOne _ ih => exact ih.enters (.inside (.zeroOrOne _))
  | bounds p hlt => exact .bounds .refl hlt
  | copy _ hne _ ih => exact ih.enters (.inside (.repetition hne))
  | recursive hmem => exact .opened .refl hmem
  | undefined _ hnone => exact .undefined .refl hnone
  | reference _ hq _ ih => exact ih.reference hq

/-- What unfolds does not lead into a label that leads back to itself. -/
theorem Unfolds.not_recurs (h : r.Unfolds p) (hreach : ReflTransGen r.Enters p (.reference label))
    (hq : r.resolve? label = some q) (hback : ReflTransGen r.Enters q (.reference label)) :
    False :=
  not_transGen_self (h.of_reaches hreach).finite (.head' (.reference hq) hback)

/-- The only fault in what unfolds is a label that is taken for one that is being inlined. -/
theorem Unfolds.exists_opened (h : r.Unfolds p) (hfault : r.FirstFault resolving p e) :
    ∃ label ∈ resolving, e = .recursiveReference label ∧
      ReflTransGen r.Enters p (.reference label) := by
  cases hfault.reveals with
  | bounds hreach hlt => exact absurd (h.ordered _ _ _ hreach) (Nat.not_le.mpr hlt)
  | undefined hreach hnone =>
      obtain ⟨q, hq⟩ := h.resolves _ hreach
      exact absurd (hnone.symm.trans hq) (Option.some_ne_none q).symm
  | opened hreach hmem => exact ⟨_, hmem, rfl, hreach⟩
  | recurs hreach hq hback => exact (h.not_recurs hreach hq hback).elim

/-- The labels on the stack lead to the pattern that is being inlined. -/
def Leads (r : TokenRegistry) (resolving : List String) (p : Pattern) : Prop :=
  ∀ label ∈ resolving, ∃ q, r.resolve? label = some q ∧ ReflTransGen r.Enters q p

/-- Inlining meets no fault in what unfolds, where the labels that are being inlined lead to it. -/
theorem Unfolds.not_firstFault (h : r.Unfolds p) (hleads : r.Leads resolving p) :
    ¬ r.FirstFault resolving p e := by
  intro hfault
  obtain ⟨label, hmem, -, hreach⟩ := h.exists_opened hfault
  obtain ⟨q, hq, hback⟩ := hleads label hmem
  exact h.not_recurs hreach hq (hback.trans hreach)

/-! ### Tokens -/

/-- A token that is registered with a pattern that unfolds. -/
def Sound (r : TokenRegistry) (token : Nat) : Prop :=
  ∃ d, r.get? token = some d ∧ r.Unfolds d.pattern

/-- The fault for which a token is not built: it is not registered, or else the first fault of its
pattern, with the label of the token being inlined from the start. -/
inductive StoppedBy (r : TokenRegistry) (token : Nat) : DefinitionError → Prop
  | unknown (h : r.get? token = none) : StoppedBy r token (.unknownToken token)
  | pattern {d : TokenDefinition} {e : DefinitionError} (hd : r.get? token = some d)
      (h : r.FirstFault d.label.toList d.pattern e) : StoppedBy r token e

/-- The label of a token, if it has one, resolves to the token. -/
def OwnsLabel (r : TokenRegistry) (token : Nat) : Prop :=
  ∀ d label, r.get? token = some d → d.label = some label → r.byLabel? label = some token

theorem OwnsLabel.leads {d : TokenDefinition} (h : r.OwnsLabel token)
    (hd : r.get? token = some d) : r.Leads d.label.toList d.pattern := by
  intro label hlabel
  have howner := h d label hd (Option.mem_toList.mp hlabel)
  exact ⟨d.pattern, resolve?_eq_some_iff.mpr ⟨token, d, howner, hd, rfl⟩, .refl⟩

/-- The stack of labels finds out what does not unfold, and nothing else. -/
theorem constructs_iff_sound (h : r.OwnsLabel token) : r.Constructs token ↔ r.Sound token := by
  constructor
  · rintro ⟨d, hd, hinlines⟩
    exact ⟨d, hd, hinlines.unfolds⟩
  · rintro ⟨d, hd, hunfolds⟩
    refine ⟨d, hd, (r.inlines_or_exists_firstFault _ _).resolve_right ?_⟩
    rintro ⟨e, he⟩
    exact hunfolds.not_firstFault (h.leads hd) he

theorem exists_stoppedBy (h : ¬ r.Constructs token) : ∃ e, r.StoppedBy token e := by
  cases hd : r.get? token with
  | none => exact ⟨_, .unknown hd⟩
  | some d =>
      have hfault : ∃ e, r.FirstFault d.label.toList d.pattern e :=
        (r.inlines_or_exists_firstFault _ _).resolve_left fun hinlines => h ⟨d, hd, hinlines⟩
      obtain ⟨e, he⟩ := hfault
      exact ⟨e, .pattern hd he⟩

end TokenRegistry

namespace Build

variable {r : TokenRegistry} {token initial : Nat} {ignoreCase : Bool} {e : DefinitionError}
variable {a : Automaton} {resolving : List String} {p : Pattern}

/-- Inlining fails for the first fault. -/
theorem exists_inlined_eq_error (h : r.FirstFault resolving p e) :
    ∃ a', inlined r token ignoreCase resolving p a = .error (.faulty e) a' := by
  have hstops : Stops e (inlined r token ignoreCase resolving p) := stops_inlined h
  cases hrun : inlined r token ignoreCase resolving p a with
  | ok f a' => exact ((hstops a).of_ok hrun).elim
  | error e' a' =>
      obtain ⟨⟨d, rfl⟩, -⟩ := (recognizes_inlined r resolving p a).of_error hrun
      exact ⟨a', by rw [(hstops a).of_error hrun d rfl]⟩

theorem exists_token_eq_error (h : r.StoppedBy token e) :
    ∃ a', Build.token r token ignoreCase initial a = .error (.faulty e) a' := by
  cases h with
  | unknown hd =>
      rw [token_of_unknown hd]
      exact ⟨a, rfl⟩
  | @pattern d _ hd hfault =>
      have hinlined : ∃ a', inlined r token ignoreCase d.label.toList d.pattern a =
          .error (.faulty e) a' := exists_inlined_eq_error hfault
      obtain ⟨a', ha'⟩ := hinlined
      rw [token_of_known hd]
      exact ⟨a', Checked.run_bind_eq_error.mpr (.inl ha')⟩

/-- A build that fails for a fault of a definition fails for one of the pattern. -/
theorem stoppedBy_of_eq_error {a' : Automaton}
    (h : Build.token r token ignoreCase initial a = .error (.faulty e) a') :
    r.StoppedBy token e := by
  by_cases hconstructs : r.Constructs token
  · exact absurd rfl ((faultless_token hconstructs a).of_error h e)
  · obtain ⟨e', he'⟩ := TokenRegistry.exists_stoppedBy hconstructs
    have hfails : ∃ a'', Build.token r token ignoreCase initial a = .error (.faulty e') a'' :=
      exists_token_eq_error he'
    obtain ⟨a'', ha''⟩ := hfails
    obtain rfl := Failure.faulty.inj (EStateM.Result.error.inj (h.symm.trans ha'')).1
    exact he'

/-- A build answers exactly if the token is registered and its pattern unfolds. Otherwise it fails
for the fault that inlining meets first, of which there is one. -/
theorem token_sound_or_stopped (r : TokenRegistry) (token : Nat) (ignoreCase : Bool)
    (initial : Nat) (a : Automaton) (hlabel : r.OwnsLabel token) :
    (initial < a.size →
      ((∃ f a', Build.token r token ignoreCase initial a = .ok f a') ↔ r.Sound token)) ∧
    (¬ r.Sound token → ∃ e, r.StoppedBy token e ∧ (∀ e', r.StoppedBy token e' → e' = e) ∧
      ∃ a', Build.token r token ignoreCase initial a = .error (.faulty e) a') := by
  rw [← TokenRegistry.constructs_iff_sound hlabel]
  have fails : ∀ e, r.StoppedBy token e →
      ∃ a', Build.token r token ignoreCase initial a = .error (.faulty e) a' := fun e =>
    exists_token_eq_error
  refine ⟨fun hinitial => ⟨?_, fun h => exists_token_eq_ok h hinitial⟩, fun h => ?_⟩
  · rintro ⟨f, a', hok⟩
    exact constructs_of_eq_ok hok
  · obtain ⟨e, he⟩ := TokenRegistry.exists_stoppedBy h
    obtain ⟨a', ha'⟩ := fails e he
    refine ⟨e, he, fun e' he' => ?_, a', ha'⟩
    obtain ⟨a'', ha''⟩ := fails e' he'
    exact Failure.faulty.inj (EStateM.Result.error.inj (ha''.symm.trans ha')).1

/-- `A` is `BC`, where `B` is `b` or no copy of `A`, and `C` any number of copies of `A`: `B` is
built, for the copies of `A` in it are not looked at, and `A` fails for meeting itself in `C`. -/
theorem token_sound_or_stopped_cycle : ∃ r : TokenRegistry, r.OwnsLabel 1 ∧ r.OwnsLabel 2 ∧
    r.Sound 2 ∧ ¬ r.Sound 1 ∧ ∃ a', Build.token r 1 false 0 (Automaton.addState {} none) =
      .error (.faulty (.recursiveReference "A")) a' := by
  let r := ((TokenRegistry.new.register
    { label := some "A", pattern := .sequence [.reference "B", .reference "C"] }).register
    { label := some "B", pattern := .choice [.literal "b",
        .repetition (.reference "A") 0 (some 0)] }).register
    { label := some "C", pattern := .zeroOrMore (.reference "A") }
  have hA : r.OwnsLabel 1 := by
    rintro d label ⟨⟩ ⟨⟩
    decide
  have hB : r.OwnsLabel 2 := by
    rintro d label ⟨⟩ ⟨⟩
    decide
  obtain ⟨hbuilt, -⟩ := token_sound_or_stopped r 2 false 0 (Automaton.addState {} none) hB
  obtain ⟨hunbuilt, hstopped⟩ :=
    token_sound_or_stopped r 1 false 0 (Automaton.addState {} none) hA
  have hsound : ¬ r.Sound 1 := by
    intro hsound
    obtain ⟨f, a', hok⟩ := (hunbuilt (by decide)).mpr hsound
    have hfails : Checked.succeeds (Build.token r 1 false 0) (Automaton.addState {} none) = false :=
      by cbv
    exact absurd (Checked.succeeds_eq_true hok) (Bool.eq_false_iff.mp hfails)
  refine ⟨r, hA, hB, (hbuilt (by decide)).mp (Checked.exists_of_succeeds (by cbv)), hsound, ?_⟩
  obtain ⟨e, -, hunique, hfault⟩ := hstopped hsound
  have hbefore : r.Inlines ["A"] (.reference "B") := by
    refine .reference (by decide) rfl (.choice (List.forall_mem_cons.mpr ⟨.literal "b", ?_⟩))
    exact List.forall_mem_singleton.mpr (.repetition (by simp) fun h => absurd rfl h)
  have hfirst : r.FirstFault ["A"] (.sequence ([.reference "B"] ++ .reference "C" :: []))
      (.recursiveReference "A") := by
    refine .unit (List.forall_mem_singleton.mpr hbefore) (.reference (by decide) rfl ?_)
    exact .zeroOrMore (.recursive (by decide))
  rwa [← hunique _ (.pattern rfl hfirst)] at hfault

end Build

end ScannerTables
