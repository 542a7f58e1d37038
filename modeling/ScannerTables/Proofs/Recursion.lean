import ScannerTables.Proofs.Faults
import ScannerTables.Proofs.Relabelling
/-!
# What counts as recursion

A builder keeps the labels that it is inlining and fails for a reference to one of them. A label
that was entered stands for a token that has been met, so meeting it again means that references
lead back to that token. The label of the token that is built is different, for it is on the stack
from the start whether or not the token owns it: where another token carried it first, references to
it stand for that token and are refused all the same. `TokenRegistry.ComesBack` says that references
do lead back, `TokenRegistry.Shadowed` that the token meets its own label without owning it, and a
failure for recursion is one or the other.
-/

namespace ScannerTables

open Relation

variable {p q : Pattern} {label label' : String}

/-! ### References on the way -/

/-- A label that is referred to from inside a pattern is referred to by the pattern. -/
theorem Pattern.Refers.of_encloses (hpq : p.Encloses q) (h : q.Refers label) : p.Refers label := by
  cases hpq with
  | unit hmem => exact .sequence hmem h
  | alternative hmem => exact .choice hmem h
  | zeroOrMore => exact .zeroOrMore h
  | oneOrMore => exact .oneOrMore h
  | zeroOrOne => exact .zeroOrOne h
  | repetition hne => exact .repetition hne h

namespace TokenRegistry

variable {r : TokenRegistry} {token s t : Nat} {d d' : TokenDefinition} {e : DefinitionError}

/-- Inlining gets to every reference that stands in a pattern. -/
theorem reaches_of_refers (h : p.Refers label) : ReflTransGen r.Enters p (.reference label) := by
  induction h with
  | reference label => exact .refl
  | sequence hmem _ ih => exact .head (.inside (.unit hmem)) ih
  | choice hmem _ ih => exact .head (.inside (.alternative hmem)) ih
  | zeroOrMore _ ih => exact .head (.inside (.zeroOrMore _)) ih
  | oneOrMore _ ih => exact .head (.inside (.oneOrMore _)) ih
  | zeroOrOne _ ih => exact .head (.inside (.zeroOrOne _)) ih
  | repetition hne _ ih => exact .head (.inside (.repetition hne)) ih

theorem Meets.of_encloses (hpq : p.Encloses q) (h : r.Meets q label) : r.Meets p label := by
  induction h with
  | refers h => exact .refers (h.of_encloses hpq)
  | inlined _ hq hlabel ih => exact .inlined ih hq hlabel

/-- The labels that are met are those whose references inlining gets to. -/
theorem Meets.of_reaches (h : ReflTransGen r.Enters p (.reference label)) : r.Meets p label := by
  induction h using ReflTransGen.head_induction_on with
  | refl => exact .refers (.reference label)
  | head hpq _ ih =>
      cases hpq with
      | inside hpq => exact ih.of_encloses hpq
      | reference hq => exact .of_resolve? (.reference _) hq ih

/-! ### Tokens that refer to each other -/

/-- The pattern of a token refers to a label that stands for another token, or for the same. -/
def RefersTo (r : TokenRegistry) (s t : Nat) : Prop :=
  ∃ d label, r.get? s = some d ∧ d.pattern.Refers label ∧ r.byLabel? label = some t

/-- Whatever token is met is met along references from token to token. -/
theorem Meets.transGen_refersTo (h : r.Meets d.pattern label) (hd : r.get? token = some d)
    (ht : r.byLabel? label = some t) : TransGen r.RefersTo token t := by
  induction h generalizing t with
  | refers h => exact .single ⟨d, _, hd, h, ht⟩
  | inlined _ hq hlabel ih =>
      obtain ⟨s, d', hs, hd', rfl⟩ := resolve?_eq_some_iff.mp hq
      exact .tail (ih hs) ⟨d', _, hd', hlabel, ht⟩

theorem RefersTo.exists_definition (h : r.RefersTo s t) : ∃ d, r.get? s = some d := by
  obtain ⟨d, -, hd, -⟩ := h
  exact ⟨d, hd⟩

/-- Inlining gets from the pattern of a token to those of the tokens that it refers to. -/
theorem RefersTo.transGen_enters (h : r.RefersTo s t) (hs : r.get? s = some d)
    (ht : r.get? t = some d') : TransGen r.Enters d.pattern d'.pattern := by
  obtain ⟨d, label, hd, hlabel, howner⟩ := h
  obtain rfl := Option.some.inj (hd.symm.trans hs)
  have hresolve : r.resolve? label = some d'.pattern :=
    resolve?_eq_some_iff.mpr ⟨t, d', howner, ht, rfl⟩
  exact .tail' (reaches_of_refers hlabel) (.reference hresolve)

theorem transGen_enters (h : TransGen r.RefersTo s t) (hs : r.get? s = some d)
    (ht : r.get? t = some d') : TransGen r.Enters d.pattern d'.pattern := by
  induction h generalizing d' with
  | single href => exact href.transGen_enters hs ht
  | tail _ href ih =>
      obtain ⟨d₀, hd₀⟩ := href.exists_definition
      exact (ih hd₀).trans (href.transGen_enters hd₀ ht)

/-- Following references from a token comes to the token that a label stands for, or starts there,
and comes back to it. -/
def ComesBack (r : TokenRegistry) (token : Nat) (label : String) : Prop :=
  ∃ t, r.byLabel? label = some t ∧ ReflTransGen r.RefersTo token t ∧ TransGen r.RefersTo t t

/-- A token that meets its own label without owning it. -/
def Shadowed (r : TokenRegistry) (token : Nat) (label : String) : Prop :=
  ∃ d, r.get? token = some d ∧ d.label = some label ∧ r.byLabel? label ≠ some token ∧
    r.Meets d.pattern label

/-- What unfolds does not come back to anything. -/
theorem Unfolds.not_comesBack (h : r.Unfolds d.pattern) (hd : r.get? token = some d) :
    ¬ r.ComesBack token label := by
  rintro ⟨t, -, hreach, hcycle⟩
  obtain ⟨_, hfirst, -⟩ := TransGen.head'_iff.mp hcycle
  obtain ⟨d', hd'⟩ := hfirst.exists_definition
  have hunfolds : r.Unfolds d'.pattern := by
    cases reflTransGen_iff_eq_or_transGen.mp hreach with
    | inl heq =>
        subst heq
        obtain rfl := Option.some.inj (hd.symm.trans hd')
        exact h
    | inr hreach => exact h.of_reaches (transGen_enters hreach hd hd').to_reflTransGen
  exact not_transGen_self hunfolds.finite (transGen_enters hcycle hd' hd')

/-- A label that is met while it is being inlined stands for a token that references lead back to,
unless it is the one that the token itself bears without owning it. -/
theorem comesBack_or_shadowed (hd : r.get? token = some d)
    (h : r.Reveals d.label.toList d.pattern (.recursiveReference label)) :
    r.ComesBack token label ∨ r.Shadowed token label := by
  cases h with
  | opened hreach hmem =>
      have hlabel : d.label = some label := Option.mem_toList.mp hmem
      have hmeets : r.Meets d.pattern label := .of_reaches hreach
      by_cases howner : r.byLabel? label = some token
      · exact .inl ⟨token, howner, .refl, hmeets.transGen_refersTo hd howner⟩
      · exact .inr ⟨d, hd, hlabel, howner, hmeets⟩
  | recurs hreach hq hback =>
      obtain ⟨t, d', ht, hd', rfl⟩ := resolve?_eq_some_iff.mp hq
      have hmeets : r.Meets d.pattern label := .of_reaches hreach
      have hagain : r.Meets d'.pattern label := .of_reaches hback
      exact .inl ⟨t, ht, (hmeets.transGen_refersTo hd ht).to_reflTransGen,
        hagain.transGen_refersTo hd' ht⟩

/-- A token that meets its own label cannot be built. -/
theorem not_constructs_of_meets (hd : r.get? token = some d) (hlabel : d.label = some label)
    (hmeets : r.Meets d.pattern label) : ¬ r.Constructs token := by
  rintro ⟨d', hd', hinlines⟩
  obtain rfl := Option.some.inj (hd.symm.trans hd')
  obtain ⟨resolving, hsubset, href⟩ := hinlines.of_meets hmeets
  exact href.exists_resolve?.1 (hsubset (Option.mem_toList.mpr hlabel))

end TokenRegistry

/-! ### Failures for recursion -/

namespace Build

variable {r : TokenRegistry} {token initial : Nat} {ignoreCase : Bool} {a : Automaton}

/-- Where references come to an end, meeting the label of the token is the only fault there is. -/
theorem exists_eq_recursiveReference {d : TokenDefinition} (hd : r.get? token = some d)
    (hunfolds : r.Unfolds d.pattern) (hlabel : d.label = some label)
    (hmeets : r.Meets d.pattern label) : ∃ a', Build.token r token ignoreCase initial a =
      .error (.faulty (.recursiveReference label)) a' := by
  obtain ⟨e, he⟩ := TokenRegistry.exists_stoppedBy
    (TokenRegistry.not_constructs_of_meets hd hlabel hmeets)
  have hfails : ∃ a', Build.token r token ignoreCase initial a = .error (.faulty e) a' :=
    exists_token_eq_error he
  cases he with
  | unknown hnone => exact absurd (hd.symm.trans hnone) (Option.some_ne_none d)
  | pattern hd' hfault =>
      obtain rfl := Option.some.inj (hd.symm.trans hd')
      obtain ⟨l, hmem, rfl, -⟩ := hunfolds.exists_opened hfault
      obtain rfl := Option.some.inj (hlabel.symm.trans (Option.mem_toList.mp hmem))
      exact hfails

/-- A build that fails for recursion has met a label that stands for a token to which references
lead back, or the token meets its own label without owning it. Where references come to an end the
first is not so, and it is the second that decides: a token that meets its own label is refused
although nothing leads back to it. -/
theorem token_recursive (r : TokenRegistry) (token : Nat) (ignoreCase : Bool) (initial : Nat)
    (a : Automaton) (label : String) :
    (∀ a', Build.token r token ignoreCase initial a =
        .error (.faulty (.recursiveReference label)) a' →
      r.ComesBack token label ∨ r.Shadowed token label) ∧
    (∀ d, r.get? token = some d → r.Unfolds d.pattern → ¬ r.ComesBack token label ∧
      ((∃ a', Build.token r token ignoreCase initial a =
          .error (.faulty (.recursiveReference label)) a') ↔ r.Shadowed token label)) := by
  have hfirst : ∀ a', Build.token r token ignoreCase initial a =
      .error (.faulty (.recursiveReference label)) a' →
        r.ComesBack token label ∨ r.Shadowed token label := by
    intro a' herror
    cases stoppedBy_of_eq_error herror with
    | pattern hd hfault => exact TokenRegistry.comesBack_or_shadowed hd hfault.reveals
  refine ⟨hfirst, fun d hd hunfolds => ⟨hunfolds.not_comesBack hd, ?_, ?_⟩⟩
  · rintro ⟨a', herror⟩
    exact (hfirst a' herror).resolve_left (hunfolds.not_comesBack hd)
  · rintro ⟨d', hd', hlabel, -, hmeets⟩
    obtain rfl := Option.some.inj (hd.symm.trans hd')
    exact exists_eq_recursiveReference hd hunfolds hlabel hmeets

/-- Of two tokens with the label `X` the first owns it and is the letter `a`; the second refers to
`X`, which comes to an end there, and is refused as recursive. -/
theorem token_recursive_shadowed : ∃ r : TokenRegistry, r.byLabel? "X" = some 1 ∧
    r.resolve? "X" = some (.literal "a") ∧ ¬ r.ComesBack 2 "X" ∧ r.Shadowed 2 "X" ∧
      ∃ a', Build.token r 2 false 0 (Automaton.addState {} none) =
        .error (.faulty (.recursiveReference "X")) a' := by
  let r := (TokenRegistry.new.register { label := some "X", pattern := .literal "a" }).register
    { label := some "X", pattern := .reference "X" }
  have hinlines : r.Inlines [] (.reference "X") :=
    .reference List.not_mem_nil rfl (.literal "a")
  have hshadowed : r.Shadowed 2 "X" := ⟨_, rfl, rfl, by decide, .refers (.reference "X")⟩
  obtain ⟨-, hexact⟩ := token_recursive r 2 false 0 (Automaton.addState {} none) "X"
  obtain ⟨hends, hfails⟩ := hexact _ rfl hinlines.unfolds
  exact ⟨r, by decide, rfl, hends, hshadowed, hfails.mpr hshadowed⟩

end Build

end ScannerTables
