import ScannerTables.Proofs.Evolution
import ScannerTables.Proofs.Retry
/-!
# Labels and references

Labelling gives every definition an identifier for a label. References are resolved by label, so
what they stand for can change: a label that is no identifier is given up, and a definition that is
named after its ordinal must not be met while its own pattern is inlined. `TokenRegistry.Meets` says
which references are met; if they keep clear of these labels the builders are the same as before,
and if they do not the token can no longer be built.
-/

namespace ScannerTables

open Checked Unicode

/-! ### Identifiers -/

/-- The label of a token that is named after its ordinal. -/
def numberedLabel (token : Nat) : String := s!"_TOKEN_{token}"

section

variable {u : IdentifierClasses}

/-- The name of an ordinal consists of characters that the law of the classes speaks of. -/
theorem isIdentifier_numberedLabel (token : Nat) : u.isIdentifier (numberedLabel token) = true := by
  have hlist : (numberedLabel token).toList =
      '_' :: ("TOKEN_".toList ++ Nat.toDigits 10 token) := by
    simp [numberedLabel]
    rfl
  have hcontinue : ∀ c ∈ "TOKEN_".toList ++ Nat.toDigits 10 token, u.isContinue c = true := by
    intro c hc
    refine u.isContinue_of_ascii c ?_
    rcases List.mem_append.mp hc with hc | hc
    · simp at hc
      rcases hc with rfl | rfl | rfl | rfl | rfl | rfl <;> decide
    · exact .inr (.inl (Nat.isDigit_of_mem_toDigits (by decide) (by decide) hc))
  rw [IdentifierClasses.isIdentifier, hlist]
  dsimp only
  rw [beq_self_eq_true, Bool.true_or, Bool.true_or, Bool.true_and, List.all_eq_true]
  intro c hc
  rw [hcontinue c hc, Bool.or_true]

theorem isIdentifier_generatedLabel (d : TokenDefinition) (used : List String) :
    u.isIdentifier (d.generatedLabel u used) = true := by
  rw [TokenDefinition.generatedLabel]
  split
  · next label hlabel =>
    have h := (Option.filter_eq_some_iff.mp hlabel).2
    rw [Bool.and_eq_true] at h
    exact h.1
  · exact isIdentifier_numberedLabel d.ordinal

/-- A definition that is no literal is named after its ordinal. -/
theorem generatedLabel_of_image?_eq_none {d : TokenDefinition} (h : d.image? = none)
    (used : List String) : d.generatedLabel u used = numberedLabel d.ordinal := by
  rw [TokenDefinition.generatedLabel, h]
  rfl

end

namespace Claims

variable {c : Claims} {name name' : String} {token : Nat}

/-- Of the names that a test keeps each has the same owner. -/
theorem owner?_filter (keep : String → Bool) :
    owner? (c.filter fun entry => keep entry.1) name =
      if keep name then c.owner? name else none := by
  induction c with
  | nil => simp
  | cons entry c ih =>
      obtain ⟨name', token⟩ := entry
      simp only [owner?] at ih ⊢
      rw [List.filter_cons]
      by_cases hname : name = name'
      · rw [hname]
        rw [hname] at ih
        cases hkeep : keep name' <;> simp [hkeep, ih]
      · have hbeq : (name == name') = false := beq_eq_false_iff_ne.mpr hname
        cases keep name' <;> simp [List.lookup_cons, hbeq, ih]

theorem owner?_release : (c.release name token).owner? name' =
    if name' = name ∧ c.owner? name = some token then none else c.owner? name' := by
  rw [release]
  split
  · next howner =>
    rw [owner?_filter (· ≠ name)]
    by_cases hname : name' = name <;> simp [hname, howner]
  · next howner => rw [if_neg fun h => howner h.2]

end Claims

namespace TokenRegistry

variable {u : IdentifierClasses} {r r' : TokenRegistry} {token : Nat} {label : String}
variable {d : TokenDefinition}

theorem get?_eq_some_getElem (h : token < r.definitions.toList.length) :
    r.get? token = some r.definitions.toList[token] := by
  rw [get?, ← Array.getElem?_toList, List.getElem?_eq_getElem h]

/-- Definitions that bear their ordinals bear all of them, in order. -/
theorem map_ordinal_definitions (h : ∀ token d, r.get? token = some d → d.ordinal = token) :
    r.definitions.toList.map (·.ordinal) = List.range r.size := by
  refine List.ext_getElem (by simp [size]) fun i hi _ => ?_
  rw [List.getElem_map, List.getElem_range, h i _ (get?_eq_some_getElem (by simpa using hi))]

/-! ### Changing one label -/

theorem get?_relabel {t : Nat} : (r.relabel token label).get? t =
    (r.get? t).map fun d => if t = token then { d with label := some label } else d := by
  rw [relabel]
  split
  · next hnone =>
    by_cases ht : t = token
    · rw [ht, hnone, Option.map_none]
    · simp [ht]
  · next d hd =>
    rw [get?, modify]
    dsimp only
    rw [Array.getElem?_modify]
    by_cases ht : t = token
    · rw [if_pos ht.symm, ht]
      simp [get?]
    · rw [if_neg (Ne.symm ht)]
      simp [ht, get?]

/-- The index without the label that a definition gives up, which it does if that was its own. -/
def freedLabels (r : TokenRegistry) (token : Nat) (d : TokenDefinition) : Claims :=
  match d.label with
  | some old => r.labels.release old token
  | none => r.labels

theorem owner?_freedLabels {l : String} : (r.freedLabels token d).owner? l =
    if d.label = some l ∧ r.byLabel? l = some token then none else r.byLabel? l := by
  rw [freedLabels]
  cases d.label with
  | none => simp [byLabel?]
  | some old =>
      dsimp only
      rw [Claims.owner?_release, byLabel?]
      by_cases hl : old = l
      · simp [hl]
      · rw [if_neg fun h => hl h.1.symm, if_neg fun h => hl (Option.some.inj h.1)]

theorem byLabel?_relabel (hd : r.get? token = some d) {l : String} :
    (r.relabel token label).byLabel? l =
      if l = label then some (((r.freedLabels token d).owner? label).getD token)
      else (r.freedLabels token d).owner? l := by
  have heq : (r.relabel token label).labels = (r.freedLabels token d).claim label token := by
    rw [relabel, hd]
    rfl
  rw [byLabel?, heq, Claims.owner?_claim, Claims.ownerAfter]

/-- Every label of the index is the label of its owner. -/
def Indexed (r : TokenRegistry) : Prop :=
  ∀ label token, r.byLabel? label = some token → ∃ d, r.get? token = some d ∧ d.label = some label

/-- What a definition does not give up belongs to another one. -/
theorem Indexed.get?_relabel_of_owner? (h : r.Indexed) (hd : r.get? token = some d) {l : String}
    {t : Nat} (ht : (r.freedLabels token d).owner? l = some t) :
    ∃ d', (r.relabel token label).get? t = some d' ∧ d'.label = some l := by
  rw [owner?_freedLabels] at ht
  split at ht
  · exact absurd ht.symm (Option.some_ne_none t)
  · next hfreed =>
    obtain ⟨d', hd', hlabel⟩ := h l t ht
    refine ⟨d', ?_, hlabel⟩
    rw [get?_relabel, hd', Option.map_some, if_neg]
    rintro rfl
    obtain rfl := Option.some.inj (hd.symm.trans hd')
    exact hfreed ⟨hlabel, ht⟩

theorem Indexed.relabel (h : r.Indexed) (hd : r.get? token = some d) (label : String) :
    (r.relabel token label).Indexed := by
  intro l t ht
  rw [byLabel?_relabel hd] at ht
  split at ht
  · next hl =>
    rw [← hl] at ht ⊢
    cases howner : (r.freedLabels token d).owner? l with
    | none =>
        rw [howner] at ht
        obtain rfl : token = t := Option.some.inj ht
        exact ⟨_, by rw [get?_relabel, hd, Option.map_some, if_pos rfl], rfl⟩
    | some t' =>
        rw [howner] at ht
        obtain rfl : t' = t := Option.some.inj ht
        exact h.get?_relabel_of_owner? hd howner
  · exact h.get?_relabel_of_owner? hd ht

theorem Indexed.new : TokenRegistry.new.Indexed := by
  intro label token howner
  obtain ⟨-, heq⟩ := List.mem_singleton.mp (Claims.mem_of_owner? howner)
  exact ⟨_, rfl, rfl⟩

theorem Indexed.register (h : r.Indexed) (d : TokenDefinition) : (r.register d).Indexed := by
  have hself : (r.register d).get? r.size = some { d with ordinal := r.size } :=
    Array.getElem?_push_size
  have hold : ∀ label token, r.byLabel? label = some token →
      ∃ d', (r.register d).get? token = some d' ∧ d'.label = some label := by
    intro label token howner
    obtain ⟨d', hd', hlabel⟩ := h label token howner
    exact ⟨d', (extends_register d).get?_eq token d' hd', hlabel⟩
  intro label token howner
  rw [byLabel?_register] at howner
  split at howner
  · next hlabel =>
    cases hown : r.byLabel? label with
    | none =>
        rw [hown] at howner
        obtain rfl := Option.some.inj howner
        exact ⟨_, hself, hlabel⟩
    | some t =>
        rw [hown] at howner
        obtain rfl := Option.some.inj howner
        exact hold label t hown
  · exact hold label token howner

/-- The same labels with the same owners, while definitions may differ in everything else. -/
structure SameLabels (r r' : TokenRegistry) : Prop where
  labels_eq : r'.labels = r.labels
  label_eq : ∀ token, (r'.get? token).map (·.label) = (r.get? token).map (·.label)

theorem SameLabels.refl : r.SameLabels r := ⟨rfl, fun _ => rfl⟩

theorem SameLabels.symm (h : r.SameLabels r') : r'.SameLabels r :=
  ⟨h.labels_eq.symm, fun token => (h.label_eq token).symm⟩

theorem SameLabels.modify {f : TokenDefinition → TokenDefinition}
    (hf : ∀ d, (f d).label = d.label) : r.SameLabels (r.modify token f) where
  labels_eq := rfl
  label_eq t := by
    rw [get?, get?, TokenRegistry.modify, Array.getElem?_modify]
    split
    · rw [Option.map_map]
      exact congrArg (fun g => Option.map g r.definitions[t]?) (funext hf)
    · rfl

theorem SameLabels.exists_label_eq (h : r.SameLabels r') (hd : r.get? token = some d) :
    ∃ d', r'.get? token = some d' ∧ d'.label = d.label := by
  have hlabel := h.label_eq token
  rw [hd] at hlabel
  exact Option.map_eq_some_iff.mp hlabel

theorem Indexed.of_sameLabels (h : r.Indexed) (hr : r.SameLabels r') : r'.Indexed := by
  intro label token howner
  rw [byLabel?, hr.labels_eq] at howner
  obtain ⟨d, hd, hlabel⟩ := h label token howner
  obtain ⟨d', hd', heq⟩ := hr.exists_label_eq hd
  exact ⟨d', hd', heq.trans hlabel⟩

/-- The owner of an identifier stays if the definition that gets another label has none. -/
theorem byLabel?_relabel_of_isIdentifier (hd : r.get? token = some d)
    (hlabel : d.label.any u.isIdentifier = false) {l : String} {t : Nat}
    (hl : u.isIdentifier l = true) (ht : r.byLabel? l = some t) :
    (r.relabel token label).byLabel? l = some t := by
  have hkept : (r.freedLabels token d).owner? l = some t := by
    rw [owner?_freedLabels, if_neg, ht]
    rintro ⟨heq, -⟩
    rw [heq, Option.any_some, hl] at hlabel
    exact Bool.noConfusion hlabel
  rw [byLabel?_relabel hd]
  split
  · next heq => rw [← heq, hkept, Option.getD_some]
  · exact hkept

/-- Every identifier that some definition has for a label has an owner. -/
def CoversIdentifiers (u : IdentifierClasses) (r : TokenRegistry) : Prop :=
  ∀ token d label, r.get? token = some d → d.label = some label → u.isIdentifier label = true →
    ∃ owner, r.byLabel? label = some owner

theorem CoversIdentifiers.relabel (h : r.CoversIdentifiers u) (hd : r.get? token = some d)
    (hlabel : d.label.any u.isIdentifier = false) (label : String) :
    (r.relabel token label).CoversIdentifiers u := by
  intro t d' l hd' hl hident
  rw [get?_relabel] at hd'
  obtain ⟨d₀, hd₀, rfl⟩ := Option.map_eq_some_iff.mp hd'
  split at hl
  · obtain rfl := Option.some.inj hl
    exact ⟨_, by rw [byLabel?_relabel hd, if_pos rfl]⟩
  · obtain ⟨owner, howner⟩ := h t d₀ l hd₀ hl hident
    exact ⟨owner, byLabel?_relabel_of_isIdentifier hd hlabel hident howner⟩

/-! ### Labels for all definitions -/

/-- The same definitions but for labels that were no identifiers, for which others were made, with
the owners of identifiers; and the definitions of some tokens do have an identifier. -/
structure Relabels (u : IdentifierClasses) (r r' : TokenRegistry) (tokens : List Nat) : Prop where
  size_eq : r'.size = r.size
  definition : ∀ token d, r.get? token = some d → ∃ label, r'.get? token = some { d with label } ∧
    (label = d.label ∨ d.label.any u.isIdentifier = false ∧
      ∃ used, label = some (d.generatedLabel u used))
  owner : ∀ label token, u.isIdentifier label = true → r.byLabel? label = some token →
    r'.byLabel? label = some token
  indexed : r.Indexed → r'.Indexed
  covers : r.CoversIdentifiers u → r'.CoversIdentifiers u
  labelled : ∀ token ∈ tokens, ∀ d, r'.get? token = some d → d.label.any u.isIdentifier = true

namespace Relabels

variable {r'' : TokenRegistry} {tokens tokens' : List Nat}

theorem refl
    (h : ∀ token ∈ tokens, ∀ d, r.get? token = some d → d.label.any u.isIdentifier = true) :
    r.Relabels u r tokens where
  size_eq := rfl
  definition _ d hd := ⟨d.label, hd, .inl rfl⟩
  owner _ _ _ := id
  indexed := id
  covers := id
  labelled := h

theorem relabel (hd : r.get? token = some d) (hlabel : d.label.any u.isIdentifier = false)
    (used : List String) : r.Relabels u (r.relabel token (d.generatedLabel u used)) [token] where
  size_eq := by
    rw [TokenRegistry.relabel, hd]
    exact Array.size_modify
  definition t d' hd' := by
    rw [get?_relabel, hd', Option.map_some]
    split
    · next ht =>
      rw [ht] at hd'
      obtain rfl := Option.some.inj (hd.symm.trans hd')
      exact ⟨_, rfl, .inr ⟨hlabel, used, rfl⟩⟩
    · exact ⟨d'.label, rfl, .inl rfl⟩
  owner _ _ := byLabel?_relabel_of_isIdentifier hd hlabel
  indexed h := h.relabel hd _
  covers h := h.relabel hd hlabel _
  labelled t ht d' hd' := by
    obtain rfl := List.mem_singleton.mp ht
    rw [get?_relabel, hd, Option.map_some, if_pos rfl] at hd'
    obtain rfl := Option.some.inj hd'
    exact isIdentifier_generatedLabel d used

/-- Labels that are identifiers are not changed again. -/
theorem trans (h : r.Relabels u r' tokens) (h' : r'.Relabels u r'' tokens') :
    r.Relabels u r'' (tokens ++ tokens') where
  size_eq := h'.size_eq.trans h.size_eq
  definition token d hd := by
    obtain ⟨label, hd', hlabel⟩ := h.definition token d hd
    obtain ⟨label', hd'', hlabel'⟩ := h'.definition token _ hd'
    refine ⟨label', hd'', ?_⟩
    rcases hlabel' with rfl | ⟨hnone, used, rfl⟩
    · exact hlabel
    · rcases hlabel with rfl | ⟨-, used', rfl⟩
      · exact .inr ⟨hnone, used, rfl⟩
      · rw [Option.any_some, isIdentifier_generatedLabel] at hnone
        exact absurd hnone Bool.noConfusion
  owner label token hl ht := h'.owner label token hl (h.owner label token hl ht)
  indexed := h'.indexed ∘ h.indexed
  covers := h'.covers ∘ h.covers
  labelled token htoken d'' hd'' := by
    rcases List.mem_append.mp htoken with htoken | htoken
    · have hlt : token < r'.size := h'.size_eq ▸ get?_isSome.mp (Option.isSome_of_eq_some hd'')
      obtain ⟨d', hd'⟩ := Option.isSome_iff_exists.mp (get?_isSome.mpr hlt)
      have hlabelled := h.labelled token htoken d' hd'
      obtain ⟨label, heq, rfl | ⟨hnone, -⟩⟩ := h'.definition token d' hd'
      · obtain rfl := Option.some.inj (hd''.symm.trans heq)
        exact hlabelled
      · exact absurd (hlabelled.symm.trans hnone) Bool.noConfusion
    · exact h'.labelled token htoken d'' hd''

theorem newLabels {ds : List TokenDefinition} (used : List String)
    (hds : ∀ d ∈ ds, r.get? d.ordinal = some d) (hnodup : (ds.map (·.ordinal)).Nodup) :
    r.Relabels u ((TokenRegistry.newLabels u ds used).foldl
      (fun r (token, label) => r.relabel token label) r) (ds.map (·.ordinal)) := by
  induction ds generalizing r used with
  | nil => exact .refl fun _ h => absurd h List.not_mem_nil
  | cons d ds ih =>
      rw [List.map_cons, List.nodup_cons] at hnodup
      rw [List.forall_mem_cons] at hds
      rw [TokenRegistry.newLabels]
      split
      · next hlabel =>
        have hrefl : r.Relabels u r [d.ordinal] := by
          refine .refl fun token htoken d' hd' => ?_
          obtain rfl := List.mem_singleton.mp htoken
          obtain rfl := Option.some.inj (hds.1.symm.trans hd')
          exact hlabel
        exact hrefl.trans (ih used hds.2 hnodup.2)
      · next hlabel =>
        have hone := Relabels.relabel hds.1 (Bool.eq_false_iff.mpr hlabel) used
        refine hone.trans (ih _ (fun d' hd' => ?_) hnodup.2)
        have hne : d'.ordinal ≠ d.ordinal := fun heq =>
          hnodup.1 (heq ▸ List.mem_map_of_mem hd')
        rw [get?_relabel, hds.2 d' hd', Option.map_some, if_neg hne]

/-- Labelling gives every definition an identifier. -/
theorem ensureLabels (h : ∀ token d, r.get? token = some d → d.ordinal = token) :
    r.Relabels u (r.ensureLabels u) (List.range r.size) := by
  have hordinals := map_ordinal_definitions h
  rw [TokenRegistry.ensureLabels, ← hordinals]
  refine newLabels _ (fun d hd => ?_) (hordinals ▸ List.nodup_range)
  obtain ⟨i, hi, rfl⟩ := List.getElem_of_mem hd
  rw [h i _ (get?_eq_some_getElem hi), get?_eq_some_getElem hi]

/-- Labelling leaves no definition without an identifier for a label. -/
theorem any_isIdentifier (h : r.Relabels u r' (List.range r.size)) (hd : r'.get? token = some d) :
    d.label.any u.isIdentifier = true := by
  have hlt : token < r.size := h.size_eq ▸ get?_isSome.mp (Option.isSome_of_eq_some hd)
  exact h.labelled token (List.mem_range.mpr hlt) d hd

end Relabels

end TokenRegistry

/-! ### References that are met -/

/-- A pattern refers to a label, not counting bodies that are repeated no times. -/
inductive Pattern.Refers : Pattern → String → Prop
  | reference (label : String) : Refers (.reference label) label
  | sequence {ps : List Pattern} {p : Pattern} {label : String} (hp : p ∈ ps)
      (h : Refers p label) : Refers (.sequence ps) label
  | choice {ps : List Pattern} {p : Pattern} {label : String} (hp : p ∈ ps)
      (h : Refers p label) : Refers (.choice ps) label
  | zeroOrMore {p : Pattern} {label : String} (h : Refers p label) : Refers (.zeroOrMore p) label
  | oneOrMore {p : Pattern} {label : String} (h : Refers p label) : Refers (.oneOrMore p) label
  | zeroOrOne {p : Pattern} {label : String} (h : Refers p label) : Refers (.zeroOrOne p) label
  | repetition {p : Pattern} {min : Nat} {max : Option Nat} {label : String} (hmax : max ≠ some 0)
      (h : Refers p label) : Refers (.repetition p min max) label

/-- The labels that are met while a pattern is inlined: those that it refers to, and those that are
referred to in turn. -/
inductive TokenRegistry.Meets (r : TokenRegistry) (p : Pattern) : String → Prop
  | refers {label : String} (h : p.Refers label) : Meets r p label
  | inlined {label label' : String} {q : Pattern} (h : Meets r p label)
      (hq : r.resolve? label = some q) (hlabel : q.Refers label') : Meets r p label'

namespace TokenRegistry

variable {r r' : TokenRegistry} {resolving resolving' : List String} {p q : Pattern}
variable {label label' : String}

/-- What is met in a pattern that is inlined is met on the way. -/
theorem Meets.of_resolve? (hlabel : p.Refers label) (hq : r.resolve? label = some q)
    (h : r.Meets q label') : r.Meets p label' := by
  induction h with
  | refers h => exact .inlined (.refers hlabel) hq h
  | inlined _ hq' hlabel' ih => exact .inlined ih hq' hlabel'

theorem Meets.exists_refers (h : r.Meets p label) : ∃ label', p.Refers label' := by
  induction h with
  | refers h => exact ⟨_, h⟩
  | inlined _ _ _ ih => exact ih

/-- A pattern can be inlined only if what it refers to can. -/
theorem Inlines.of_refers (h : r.Inlines resolving p) (hlabel : p.Refers label) :
    r.Inlines resolving (.reference label) := by
  induction hlabel with
  | reference label => exact h
  | sequence hp _ ih =>
      cases h with
      | sequence hps => exact ih (hps _ hp)
  | choice hp _ ih =>
      cases h with
      | choice hps => exact ih (hps _ hp)
  | zeroOrMore _ ih =>
      cases h with
      | zeroOrMore h => exact ih h
  | oneOrMore _ ih =>
      cases h with
      | oneOrMore h => exact ih h
  | zeroOrOne _ ih =>
      cases h with
      | zeroOrOne h => exact ih h
  | repetition hmax _ ih =>
      cases h with
      | repetition _ h => exact ih (h hmax)

theorem Inlines.exists_resolve? (h : r.Inlines resolving (.reference label)) :
    label ∉ resolving ∧ ∃ q, r.resolve? label = some q ∧ r.Inlines (label :: resolving) q := by
  cases h with
  | reference hlabel hq h => exact ⟨hlabel, _, hq, h⟩

/-- Whatever is met can be inlined, with more labels on the way to it. -/
theorem Inlines.of_meets (h : r.Inlines resolving p) (hlabel : r.Meets p label) :
    ∃ resolving', resolving ⊆ resolving' ∧ r.Inlines resolving' (.reference label) := by
  induction hlabel with
  | refers hlabel => exact ⟨resolving, List.Subset.refl _, h.of_refers hlabel⟩
  | inlined _ hq hlabel ih =>
      obtain ⟨resolving', hsubset, href⟩ := ih
      obtain ⟨-, q', hq', hinlines⟩ := href.exists_resolve?
      obtain rfl := Option.some.inj (hq.symm.trans hq')
      exact ⟨_, List.subset_cons_of_subset _ hsubset, hinlines.of_refers hlabel⟩

end TokenRegistry

namespace Build

variable {r r' : TokenRegistry} {token : Nat} {ignoreCase : Bool} {p : Pattern}
variable {resolving resolving' : List String} {refer refer' : String → Build Fragment}

/-- A builder depends on the references of its pattern alone. -/
theorem pattern_congr (h : ∀ label, p.Refers label → refer label = refer' label) :
    pattern token ignoreCase refer p = pattern token ignoreCase refer' p := by
  induction p using Pattern.induction with
  | charClass k => rfl
  | literal text => rfl
  | sequence ps ih =>
      rw [pattern, pattern, patterns_eq_map, patterns_eq_map,
        List.map_congr_left fun p hp => ih p hp fun label hl => h label (.sequence hp hl)]
  | choice ps ih =>
      rw [pattern, pattern, patterns_eq_map, patterns_eq_map,
        List.map_congr_left fun p hp => ih p hp fun label hl => h label (.choice hp hl)]
  | zeroOrMore p ih => rw [pattern, pattern, ih fun label hl => h label (.zeroOrMore hl)]
  | oneOrMore p ih => rw [pattern, pattern, ih fun label hl => h label (.oneOrMore hl)]
  | zeroOrOne p ih => rw [pattern, pattern, ih fun label hl => h label (.zeroOrOne hl)]
  | repetition p min max ih =>
      rw [pattern, pattern]
      by_cases hmax : max = some 0
      · -- the body is not built, or it is a fault to repeat it no times
        subst hmax
        cases min <;> rfl
      · rw [ih fun label hl => h label (.repetition hmax hl)]
  | reference label => exact h label (.reference label)

/-- A builder stays the same when labels change, if all that it meets is resolved as before and no
label on the way to it is met. -/
theorem inlined_congr (h : r.Inlines resolving p) (hmeets : ∀ label, r.Meets p label →
      label ∉ resolving' ∧ r'.resolve? label = r.resolve? label) :
    inlined r' token ignoreCase resolving' p = inlined r token ignoreCase resolving p := by
  induction hn : r.unopened resolving using Nat.strongRecOn generalizing resolving resolving' p with
  | _ n ih =>
      rw [inlined, inlined]
      refine pattern_congr fun label hlabel => ?_
      obtain ⟨hnew, q, hq, hinlines⟩ := (h.of_refers hlabel).exists_resolve?
      obtain ⟨hnew', hresolve⟩ := hmeets label (.refers hlabel)
      rw [dif_neg hnew, dif_neg hnew']
      have hlt := TokenRegistry.unopened_cons_lt hq hnew
      have hrest : inlined r' token ignoreCase (label :: resolving') q =
          inlined r token ignoreCase (label :: resolving) q := by
        refine ih _ (hn ▸ hlt) hinlines (fun label' hlabel' => ?_) rfl
        obtain ⟨hnew', hresolve'⟩ := hmeets label' (.of_resolve? hlabel hq hlabel')
        obtain ⟨resolving'', hsubset, href⟩ := hinlines.of_meets hlabel'
        have hne : label' ≠ label := by
          rintro rfl
          exact href.exists_resolve?.1 (hsubset List.mem_cons_self)
        exact ⟨fun hmem => (List.mem_cons.mp hmem).elim hne hnew', hresolve'⟩
      split
      · next hnone => exact absurd ((hresolve.trans hq).symm.trans hnone) (Option.some_ne_none q)
      · next q' hq' =>
        obtain rfl := Option.some.inj ((hresolve.trans hq).symm.trans hq')
        split
        · next hnone => exact absurd (hq.symm.trans hnone) (Option.some_ne_none _)
        · next q'' hq'' =>
          obtain rfl := Option.some.inj (hq.symm.trans hq'')
          exact hrest

end Build

/-! ### Labelled registries -/

namespace TokenRegistry

variable {u : IdentifierClasses} {r r' : TokenRegistry} {tokens : List Nat} {label : String}
variable {d : TokenDefinition} {token : Nat}

/-- A definition whose references survive labelling: they name identifiers, and if the definition
has none for a label they do not name the one that it gets for its ordinal. -/
def KeepsReferences (u : IdentifierClasses) (r : TokenRegistry) (d : TokenDefinition) : Prop :=
  ∀ label, r.Meets d.pattern label → u.isIdentifier label = true ∧
    (d.label.any u.isIdentifier = false → label ≠ numberedLabel d.ordinal)

namespace Relabels

/-- An identifier stands for the same pattern as before. -/
theorem resolve?_eq (h : r.Relabels u r' tokens) (hlabel : u.isIdentifier label = true)
    {q : Pattern} (hq : r.resolve? label = some q) : r'.resolve? label = some q := by
  obtain ⟨token, d, howner, hd, rfl⟩ := resolve?_eq_some_iff.mp hq
  obtain ⟨label', hd', -⟩ := h.definition token d hd
  exact resolve?_eq_some_iff.mpr ⟨token, _, h.owner label token hlabel howner, hd', rfl⟩

/-- Where all definitions have identifiers, nothing else stands for a pattern. -/
theorem isIdentifier_of_resolve? (h : r.Relabels u r' (List.range r.size)) (hindexed : r.Indexed)
    {q : Pattern} (hq : r'.resolve? label = some q) : u.isIdentifier label = true := by
  obtain ⟨token, d, howner, -⟩ := resolve?_eq_some_iff.mp hq
  obtain ⟨d', hd', hlabel⟩ := h.indexed hindexed label token howner
  have hlabelled := h.any_isIdentifier hd'
  rwa [hlabel] at hlabelled

/-- A definition whose pattern refers to something keeps its label or is named after its ordinal. -/
theorem exists_label (h : r.Relabels u r' (List.range r.size)) (hd : r.get? token = some d)
    (hlabel : r.Meets d.pattern label) : ∃ l, r'.get? token = some { d with label := some l } ∧
      (d.label = some l ∨ d.label.any u.isIdentifier = false ∧ l = numberedLabel d.ordinal) := by
  have himage : d.image? = none := by
    cases himage : d.image? with
    | none => rfl
    | some image =>
        obtain ⟨_, hrefers⟩ := hlabel.exists_refers
        rw [TokenDefinition.image?_eq_some.mp himage] at hrefers
        cases hrefers
  obtain ⟨label', hd', hcases⟩ := h.definition token d hd
  have hlabelled := h.any_isIdentifier hd'
  rcases hcases with rfl | ⟨hnone, used, rfl⟩
  · obtain ⟨l, hl, -⟩ := (Option.any_eq_true _ _).mp hlabelled
    exact ⟨l, by rw [hd', ← hl], .inl hl⟩
  · exact ⟨_, hd', .inr ⟨hnone, generatedLabel_of_image?_eq_none himage used⟩⟩

/-- A token is built as before if its references survive. -/
theorem token_eq (h : r.Relabels u r' (List.range r.size)) (hd : r.get? token = some d)
    (hinlines : r.Inlines d.label.toList d.pattern) (hkeeps : r.KeepsReferences u d)
    (ignoreCase : Bool) (initial : Nat) :
    Build.token r' token ignoreCase initial = Build.token r token ignoreCase initial := by
  obtain ⟨label', hd', -⟩ := h.definition token d hd
  have hinlined : Build.inlined r' token ignoreCase label'.toList d.pattern =
      Build.inlined r token ignoreCase d.label.toList d.pattern := by
    refine Build.inlined_congr hinlines fun label hlabel => ?_
    obtain ⟨hident, hne⟩ := hkeeps label hlabel
    obtain ⟨resolving, hsubset, href⟩ := hinlines.of_meets hlabel
    obtain ⟨hnew, q, hq, -⟩ := href.exists_resolve?
    refine ⟨fun hmem => ?_, by rw [h.resolve?_eq hident hq, hq]⟩
    obtain ⟨l, hl, hcases⟩ := h.exists_label hd hlabel
    obtain rfl : label' = some l :=
      congrArg TokenDefinition.label (Option.some.inj (hd'.symm.trans hl))
    obtain rfl : label = l := by simpa using hmem
    rcases hcases with heq | ⟨hnone, heq⟩
    · exact hnew (hsubset (by rw [heq]; exact List.mem_singleton_self label))
    · exact hne hnone heq
  rw [Build.token, Build.token, hd, hd']
  dsimp only
  rw [hinlined]

/-- What was met before is met again by a pattern that can still be built. -/
theorem meets (h : r.Relabels u r' (List.range r.size)) (hindexed : r.Indexed)
    {resolving : List String} {p : Pattern} (hinlines : r'.Inlines resolving p)
    (hlabel : r.Meets p label) : r'.Meets p label := by
  induction hlabel with
  | refers hlabel => exact .refers hlabel
  | inlined _ hq hlabel ih =>
      obtain ⟨_, -, href⟩ := hinlines.of_meets ih
      obtain ⟨-, q', hq', -⟩ := href.exists_resolve?
      exact .inlined ih (h.resolve?_eq (h.isIdentifier_of_resolve? hindexed hq') hq) hlabel

/-- If a token can still be built, its references have survived. -/
theorem keepsReferences (h : r.Relabels u r' (List.range r.size)) (hindexed : r.Indexed)
    (hd : r.get? token = some d) (hconstructs : r'.Constructs token) : r.KeepsReferences u d := by
  intro label hlabel
  obtain ⟨d', hd', hinlines⟩ := hconstructs
  obtain ⟨l, hl, hcases⟩ := h.exists_label hd hlabel
  obtain rfl := Option.some.inj (hd'.symm.trans hl)
  obtain ⟨resolving, hsubset, href⟩ := hinlines.of_meets (h.meets hindexed hinlines hlabel)
  obtain ⟨hnew, q, hq, -⟩ := href.exists_resolve?
  refine ⟨h.isIdentifier_of_resolve? hindexed hq, fun hnone heq => ?_⟩
  rcases hcases with hident | ⟨-, rfl⟩
  · have hlabelled := h.any_isIdentifier hd'
    rw [Option.any_some] at hlabelled
    rw [hident, Option.any_some, hlabelled] at hnone
    exact Bool.noConfusion hnone
  · exact hnew (hsubset (heq ▸ List.mem_singleton_self _))

end Relabels

end TokenRegistry

namespace LexicalState

variable {u : IdentifierClasses} {s : LexicalState} {r r' : TokenRegistry} {config : Config}
variable {tokens : List Nat}

/-- Labels have no part in what is to be built. -/
theorem plan_relabels (h : r.Relabels u r' tokens) : s.plan r' config = s.plan r config := by
  have hget : ∀ token, r.get? token = none ∧ r'.get? token = none ∨
      ∃ d label, r.get? token = some d ∧ r'.get? token = some { d with label } := by
    intro token
    cases hd : r.get? token with
    | none =>
        refine .inl ⟨rfl, ?_⟩
        rw [← Option.not_isSome_iff_eq_none, TokenRegistry.get?_isSome, h.size_eq,
          ← TokenRegistry.get?_isSome, hd]
        exact Bool.false_ne_true
    | some d =>
        obtain ⟨label, hd', -⟩ := h.definition token d hd
        exact .inr ⟨d, label, rfl, hd'⟩
  have himplicit : s.implicitStep? r' config = s.implicitStep? r config := by
    funext token
    rw [implicitStep?, implicitStep?]
    rcases hget token with ⟨hd, hd'⟩ | ⟨d, label, hd, hd'⟩
    · rw [hd, hd']
    · rw [hd, hd']
      rfl
  have hspec : s.specStep? r' = s.specStep? r := by
    funext inherited spec
    rw [specStep?, specStep?]
    rcases hget spec.token with ⟨hd, hd'⟩ | ⟨d, label, hd, hd'⟩
    · rw [hd, hd']
    · rw [hd, hd']
      rfl
  have hproduction : s.productionSteps r' config = s.productionSteps r config := by
    funext p
    rw [productionSteps, productionSteps, hspec]
  rw [plan, plan, himplicit, hproduction]

theorem process_relabels (h : r.Relabels u r' tokens)
    (hbuild : ∀ token ignoreCase, s.Builds r config token ignoreCase → ∀ initial,
      Build.token r' token ignoreCase initial = Build.token r token ignoreCase initial) :
    process r' config s = process r config s := by
  have hstep : ∀ step ∈ s.plan r config, runStep r' step = runStep r step := by
    intro step hmem
    cases step with
    | unknown ordinal => rfl
    | token ordinal ignoreCase switch =>
        have hbuilds : s.Builds r config ordinal ignoreCase :=
          mem_plan_iff.mp (List.mem_filterMap.mpr ⟨_, hmem, rfl⟩)
        funext t
        rw [runStep, runStep, hbuild ordinal ignoreCase hbuilds]
  rw [process_eq, process_eq, run_get_bind, run_get_bind, plan_relabels h, forM_congr hstep]

end LexicalState

namespace Lexer

variable {u : IdentifierClasses} {lx lx' labelled : Lexer} {d : TokenDefinition}

theorem sameLabels_recordTargets : lx.registry.SameLabels lx.recordTargets where
  labels_eq := by
    obtain ⟨definitions, -, heq⟩ := lx.recordTargets_eq
    rw [heq]
  label_eq token := by
    rw [get?_recordTargets, Option.map_map]
    refine congrArg (fun g => Option.map g (lx.registry.get? token)) (funext fun d => ?_)
    rw [Function.comp_apply]
    cases lx.targetsOf token <;> rfl

/-- A command adds a definition, labels all of them, or leaves labels and owners alone. -/
theorem Command.labels_cases (c : Command) (lx : Lexer) :
    (∃ d, (c.run lx).registry = lx.registry.register d) ∨
      (∃ u, (c.run lx).registry = lx.registry.ensureLabels u) ∨
        lx.registry.SameLabels (c.run lx).registry := by
  cases c with
  | addLexicalState name =>
      rw [run, final_addLexicalState]
      split <;> exact .inr (.inr .refl)
  | addDefinition d => exact .inl ⟨d, rfl⟩
  | addTokenProduction p =>
      rw [run, registry_addTokenProduction]
      exact .inr (.inr .refl)
  | addImplicitLiteral state image =>
      rcases @registry_addImplicitLiteral lx state image with heq | heq <;> rw [run, heq]
      · exact .inr (.inr .refl)
      · exact .inl ⟨_, rfl⟩
  | setOverridden token => exact .inr (.inr (.modify fun _ => rfl))
  | ensureLabels u => exact .inr (.inl ⟨u, rfl⟩)
  | build =>
      rw [run]
      rcases @registry_build lx with heq | ⟨lx', hregistry, -, heq⟩ <;> rw [heq]
      · exact .inr (.inr .refl)
      · exact .inr (.inr (hregistry ▸ sameLabels_recordTargets))

theorem Reachable.indexed (h : lx.Reachable) : lx.registry.Indexed := by
  induction h with
  | new config => exact .new
  | run h c ih =>
      rcases c.labels_cases _ with ⟨d, heq⟩ | ⟨u, heq⟩ | hsame
      · exact heq ▸ ih.register d
      · have hrelabels := TokenRegistry.Relabels.ensureLabels (u := u) fun _ _ => h.ordinal_eq
        exact heq ▸ hrelabels.indexed ih
      · exact ih.of_sameLabels hsame

/-- The definition of a token that some lexical state has yet to build. -/
def Awaits (lx : Lexer) (d : TokenDefinition) : Prop :=
  ∃ (i : Nat) (s : LexicalState) (ignoreCase : Bool), lx.states[i]? = some s ∧
    s.isProcessed = false ∧ s.Builds lx.registry lx.config d.ordinal ignoreCase ∧
      lx.registry.get? d.ordinal = some d

theorem Reachable.relabels (h : lx.Reachable) :
    lx.registry.Relabels u (lx.ensureLabels u).registry (List.range lx.registry.size) :=
  .ensureLabels fun _ _ => h.ordinal_eq

/-- A lexical state is processed as before if the definitions that it awaits keep their
references. -/
theorem process_ensureLabels (h : lx.Reachable) {i : Nat} {s s' : LexicalState}
    (hs : lx.states[i]? = some s) (hok : LexicalState.process lx.registry lx.config s = .ok () s')
    (hkeeps : ∀ d, lx.Awaits d → lx.registry.KeepsReferences u d) :
    LexicalState.process (lx.ensureLabels u).registry lx.config s = .ok () s' := by
  cases hdispatch : s.dispatch with
  | some dispatch =>
      rw [LexicalState.process_eq, run_get_bind, LexicalState.isProcessed, hdispatch] at hok ⊢
      exact hok
  | none =>
      obtain ⟨L, hL⟩ := (h.called hs).kept.assembled hdispatch
      have hpossible := (LexicalState.exists_process_iff hdispatch hL).mp ⟨s', hok⟩
      rw [LexicalState.process_relabels h.relabels fun token ignoreCase hbuilds initial => ?_]
      · exact hok
      · obtain ⟨d, hd, hinlines⟩ := LexicalState.constructs_of_possible hpossible _
          (LexicalState.mem_plan_iff.mpr hbuilds)
        obtain rfl := h.ordinal_eq hd
        have hprocessed : s.isProcessed = false := by rw [LexicalState.isProcessed, hdispatch]; rfl
        have hawaits : lx.Awaits d := ⟨i, s, ignoreCase, hs, hprocessed, hbuilds, hd⟩
        exact h.relabels.token_eq hd hinlines (hkeeps d hawaits) ignoreCase initial

/-- Labelling makes no difference to a build if the definitions that are awaited keep their
references. -/
theorem exists_build_ensureLabels (h : lx.Reachable) (hok : build lx = .ok () lx')
    (hkeeps : ∀ d, lx.Awaits d → lx.registry.KeepsReferences u d) :
    ∃ labelled, build (lx.ensureLabels u) = .ok () labelled ∧
      ∀ text, labelled.tokenize text = lx'.tokenize text := by
  obtain ⟨hchecked, states, hall, rfl⟩ := build_eq_ok.mp hok
  have hall' : List.Forall₂ (fun s s' =>
      LexicalState.process (lx.ensureLabels u).registry lx.config s = .ok () s')
      lx.states.toList states := by
    refine List.forall₂_iff_get.mpr ⟨hall.length_eq, fun i hi hi' => ?_⟩
    have hs : lx.states[i]? = some (lx.states.toList.get ⟨i, hi⟩) := by
      rw [← Array.getElem?_toList, List.getElem?_eq_getElem hi, List.get_eq_getElem]
    exact process_ensureLabels h hs (hall.get hi hi') hkeeps
  refine ⟨_, build_eq_ok.mpr ⟨hchecked, states, hall', rfl⟩, fun text => ?_⟩
  -- the lexical states and the productions are the same
  refine tokenizeFrom_congr ?_ ?_ ?_ ?_ 0 0 text.toList
  · exact fun _ _ => rfl
  · exact fun _ _ => rfl
  · exact fun _ => rfl
  · rfl

/-- If a build still succeeds, the definitions that are awaited keep their references. -/
theorem keepsReferences_of_build (h : lx.Reachable)
    (hok : build (lx.ensureLabels u) = .ok () labelled) (hd : lx.Awaits d) :
    lx.registry.KeepsReferences u d := by
  obtain ⟨i, s, ignoreCase, hs, hprocessed, hbuilds, hd⟩ := hd
  have hdispatch : s.dispatch = none :=
    Option.isNone_iff_eq_none.mp (Option.isSome_eq_false_iff.mp hprocessed)
  obtain ⟨s', -, hok'⟩ := exists_process_of_build hok hs
  obtain ⟨L, hL⟩ := (h.called hs).kept.assembled hdispatch
  have hpossible := (LexicalState.exists_process_iff hdispatch hL).mp ⟨s', hok'⟩
  rw [LexicalState.plan_relabels h.relabels] at hpossible
  exact h.relabels.keepsReferences h.indexed hd
    (LexicalState.constructs_of_possible hpossible _ (LexicalState.mem_plan_iff.mpr hbuilds))

/-- Labelling does not change the language, as far as references outlast it. A build that would
succeed still does if the definitions that it awaits keep their references; and if it does, all that
these refer to is named by identifiers, and every text is split into the same tokens. -/
theorem build_ensureLabels (lx lx' : Lexer) (h : lx.Reachable) (hok : build lx = .ok () lx') :
    ((∀ d, lx.Awaits d → lx.registry.KeepsReferences u d) →
      ∃ labelled, build (lx.ensureLabels u) = .ok () labelled) ∧
    ∀ labelled, build (lx.ensureLabels u) = .ok () labelled →
      (∀ d, lx.Awaits d → ∀ label, lx.registry.Meets d.pattern label →
        u.isIdentifier label = true) ∧
      ∀ text, labelled.tokenize text = lx'.tokenize text := by
  refine ⟨fun hkeeps => ?_, fun labelled hlabelled => ?_⟩
  · obtain ⟨labelled, hlabelled, -⟩ := exists_build_ensureLabels h hok hkeeps
    exact ⟨labelled, hlabelled⟩
  · have hkeeps : ∀ d, lx.Awaits d → lx.registry.KeepsReferences u d :=
      fun d => keepsReferences_of_build h hlabelled
    refine ⟨fun d hd label hlabel => (hkeeps d hd label hlabel).1, ?_⟩
    obtain ⟨labelled', hlabelled', htokens⟩ := exists_build_ensureLabels h hok hkeeps
    obtain ⟨-, rfl⟩ := EStateM.Result.ok.inj (hlabelled.symm.trans hlabelled')
    exact htokens

/-- A definition that is named by an identifier can be referred to from a token that has no label
yet, and gets one for its ordinal. -/
theorem build_ensureLabels_identifier : ∃ lx lx' labelled : Lexer,
    lx.Reachable ∧ build lx = .ok () lx' ∧ build (lx.ensureLabels .ascii) = .ok () labelled ∧
      (∀ d, lx.Awaits d → lx.registry.KeepsReferences .ascii d) ∧
        labelled.tokenize "xy" = lx'.tokenize "xy" ∧
          (lx'.tokenize "xy").tokens.map (·.token) = [2] ∧
            lx'.tokenName? 2 = none ∧ labelled.tokenName? 2 = some "_TOKEN_2" := by
  let part : TokenDefinition := { label := some "D", pattern := .literal "x", isPrivate := true }
  let whole : TokenDefinition := { pattern := .sequence [.reference "D", .literal "y"] }
  let lx := [Command.addDefinition part, .addDefinition whole,
    .addTokenProduction { specs := [{ token := 2 }] }].foldl Command.run (new {})
  have hreachable : lx.Reachable := (Reachable.new {}).foldl _
  have hdefinitions : lx.registry.definitions.toList =
      [{ label := some "EOF", pattern := .sequence [] }, { part with ordinal := 1 },
        { whole with ordinal := 2 }] := rfl
  obtain ⟨hsucceeds, hmatched, hunnamed, hnamed⟩ : succeeds build lx = true ∧
      ((final build lx).tokenize "xy").tokens.map (·.token) = [2] ∧
      (final build lx).tokenName? 2 = none ∧
      (final build (lx.ensureLabels .ascii)).tokenName? 2 = some "_TOKEN_2" := by
    dsimp only [lx, part, whole]
    cbv
  obtain ⟨⟨⟩, hok⟩ := eq_ok_of_succeeds hsucceeds
  have hrefers : ∀ label, whole.pattern.Refers label → label = "D" := by
    rintro label (_ | ⟨hp, h⟩)
    rcases List.mem_pair.mp hp with rfl | rfl <;> cases h
    rfl
  have hmeets : ∀ label, lx.registry.Meets whole.pattern label → label = "D" := by
    intro label hlabel
    induction hlabel with
    | refers h => exact hrefers _ h
    | inlined _ hq h ih =>
        subst ih
        obtain rfl := Option.some.inj hq
        cases h
  have hkeeps : ∀ d, lx.Awaits d → lx.registry.KeepsReferences .ascii d := by
    rintro d ⟨i, s, ignoreCase, -, -, -, hd⟩ label hlabel
    have hmem := List.mem_of_getElem? (Array.getElem?_toList.trans hd)
    rw [hdefinitions] at hmem
    simp only [List.mem_cons, List.not_mem_nil, or_false] at hmem
    obtain ⟨label', hrefers'⟩ := hlabel.exists_refers
    rcases hmem with rfl | rfl | rfl
    · rcases hrefers' with _ | ⟨hp, -⟩
      exact absurd hp List.not_mem_nil
    · cases hrefers'
    · obtain rfl := hmeets label hlabel
      exact ⟨by decide, fun _ heq => absurd heq (by cbv)⟩
  obtain ⟨⟨labelled, hlabelled⟩, htokens⟩ := (build_ensureLabels lx _ hreachable hok).imp
    (fun h => h hkeeps) id
  rw [final_eq_of_eq_ok hlabelled] at hnamed
  exact ⟨lx, _, labelled, hreachable, hok, hlabelled, hkeeps,
    (htokens labelled hlabelled).2 "xy", hmatched, hunnamed, hnamed⟩

/-- A label that is no identifier is given up, and what refers to it can then not be built. -/
theorem build_ensureLabels_freed :
    let lx := [
      Command.addDefinition { label := some "a-b", pattern := .literal "x", isPrivate := true },
      .addDefinition { pattern := .reference "a-b" },
      .addTokenProduction { specs := [{ token := 2 }] }].foldl Command.run (new {})
    succeeds build lx = true ∧ ((final build lx).tokenize "x").tokens.map (·.token) = [2] ∧
      succeeds build (lx.ensureLabels .ascii) = false := by
  cbv

end Lexer

end ScannerTables
