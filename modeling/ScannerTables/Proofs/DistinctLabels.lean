import ScannerTables.Proofs.Relabelling
/-!
# Labels that two tokens share

A definition without an identifier for a label takes its upper-cased image if that is an identifier
which is not in use, and the name of its ordinal otherwise. The image is looked up among the labels
in use; the name of the ordinal is not. So if definitions share no identifiers to begin with, there
is one way for two of them to have one label in the end: one takes the name of its ordinal, and the
other has this name for an identifier, or has taken it for its image before.

`TokenRegistry.inUse` follows the labels in use from token to token, and `get?_ensureLabels` says
what labelling comes to in terms of them.
-/

namespace ScannerTables

open Unicode

/-! ### Labels that are made -/

theorem numberedLabel_injective : Function.Injective numberedLabel := fun _ _ h =>
  Nat.repr_inj.mp ((String.append_right_inj "_TOKEN_").mp h)

namespace TokenDefinition

variable {u : IdentifierClasses} {d : TokenDefinition} {used : List String} {label : String}

/-- A label that is made is the name of the ordinal, or an image that is not in use. -/
theorem generatedLabel_cases (u : IdentifierClasses) (d : TokenDefinition)
    (used : List String) : d.generatedLabel u used = numberedLabel d.ordinal ∨
      d.image?.map upperText = some (d.generatedLabel u used) ∧ d.generatedLabel u used ∉ used := by
  rw [generatedLabel]
  split
  · next label hlabel =>
    obtain ⟨himage, hkeep⟩ := Option.filter_eq_some_iff.mp hlabel
    rw [Bool.and_eq_true, decide_eq_true_eq] at hkeep
    exact .inr ⟨himage, hkeep.2⟩
  · exact .inl rfl

theorem generatedLabel_of_notMem (himage : d.image?.map upperText = some label)
    (hident : u.isIdentifier label = true) (hfree : label ∉ used) :
    d.generatedLabel u used = label := by
  have hfilter : (d.image?.map upperText).filter
      (fun label => u.isIdentifier label && label ∉ used) = some label := by
    refine Option.filter_eq_some_iff.mpr ⟨himage, ?_⟩
    rw [hident, Bool.true_and, decide_eq_true hfree]
  rw [generatedLabel, hfilter]

end TokenDefinition

namespace TokenRegistry

/-! ### Distinct labels -/

section

variable (u : IdentifierClasses)

/-- No two definitions have one identifier for a label. -/
def DistinctIdentifiers (r : TokenRegistry) : Prop :=
  ∀ s t d d' label, r.get? s = some d → r.get? t = some d' → d.label = some label →
    d'.label = some label → u.isIdentifier label = true → s = t

/-- No two definitions have one label. -/
def DistinctLabels (r : TokenRegistry) : Prop :=
  ∀ s t d d', r.get? s = some d → r.get? t = some d' → d.label = d'.label → s = t

/-- A token without an identifier for a label, which gets the name of its ordinal. -/
def NamedByOrdinal (r : TokenRegistry) (token : Nat) : Prop :=
  ∃ d d', r.get? token = some d ∧ d.label.any u.isIdentifier = false ∧
    (r.ensureLabels u).get? token = some d' ∧ d'.label = some (numberedLabel token)

/-- The name of the ordinal of `t` is the label of `s`, or the upper-cased image of `s`, which is
labelled before `t` and has no identifier for a label. -/
def Anticipates (r : TokenRegistry) (s t : Nat) : Prop :=
  ∃ d, r.get? s = some d ∧ (d.label = some (numberedLabel t) ∨
    s < t ∧ d.label.any u.isIdentifier = false ∧
      d.image?.map upperText = some (numberedLabel t))

end

variable {u : IdentifierClasses} {r : TokenRegistry} {token n s t : Nat} {d d' : TokenDefinition}
variable {label : String}

/-! ### Labels in use -/

/-- The labels in use when labelling comes to a token: all identifiers that definitions carry, and
what was made for the tokens before. -/
def inUse (u : IdentifierClasses) (r : TokenRegistry) : Nat → List String
  | 0 => (r.definitions.toList.filterMap (·.label)).filter u.isIdentifier
  | token + 1 =>
    match r.get? token with
    | none => inUse u r token
    | some d =>
      if d.label.any u.isIdentifier then inUse u r token
      else d.generatedLabel u (inUse u r token) :: inUse u r token

/-- The label that a definition has when all of them are labelled. -/
def finalLabel (u : IdentifierClasses) (r : TokenRegistry) (token : Nat) (d : TokenDefinition) :
    Option String :=
  if d.label.any u.isIdentifier then d.label else some (d.generatedLabel u (r.inUse u token))

theorem finalLabel_of_isIdentifier (h : d.label.any u.isIdentifier = true) :
    r.finalLabel u token d = d.label := if_pos h

theorem finalLabel_of_not_isIdentifier (h : d.label.any u.isIdentifier = false) :
    r.finalLabel u token d = some (d.generatedLabel u (r.inUse u token)) :=
  if_neg (Bool.eq_false_iff.mp h)

theorem mem_inUse_zero : label ∈ r.inUse u 0 ↔
    ∃ t d, r.get? t = some d ∧ d.label = some label ∧ u.isIdentifier label = true := by
  rw [inUse, List.mem_filter, List.mem_filterMap]
  constructor
  · rintro ⟨⟨d, hd, hlabel⟩, hident⟩
    obtain ⟨t, ht, rfl⟩ := List.getElem_of_mem hd
    exact ⟨t, _, get?_eq_some_getElem ht, hlabel, hident⟩
  · rintro ⟨t, d, hd, hlabel, hident⟩
    exact ⟨⟨d, List.mem_of_getElem? (Array.getElem?_toList.trans hd), hlabel⟩, hident⟩

theorem mem_inUse_succ : label ∈ r.inUse u (token + 1) ↔ label ∈ r.inUse u token ∨
    ∃ d, r.get? token = some d ∧ d.label.any u.isIdentifier = false ∧
      r.finalLabel u token d = some label := by
  rw [inUse]
  cases hd : r.get? token with
  | none => simp
  | some d =>
      dsimp only
      split
      · next hident => simp [hident]
      · next hident =>
        have hnone := Bool.eq_false_iff.mpr hident
        rw [List.mem_cons, or_comm]
        refine or_congr_right ⟨?_, ?_⟩
        · rintro rfl
          exact ⟨d, rfl, hnone, finalLabel_of_not_isIdentifier hnone⟩
        · rintro ⟨_, ⟨⟩, -, hlabel⟩
          exact Option.some.inj (hlabel.symm.trans (finalLabel_of_not_isIdentifier hnone))

/-- What is in use is the final label of a token before, or of one with an identifier. -/
theorem mem_inUse : label ∈ r.inUse u token ↔ ∃ t d, r.get? t = some d ∧
    r.finalLabel u t d = some label ∧ (d.label.any u.isIdentifier = true ∨ t < token) := by
  induction token with
  | zero =>
      rw [mem_inUse_zero]
      constructor
      · rintro ⟨t, d, hd, hlabel, hident⟩
        have hany : d.label.any u.isIdentifier = true := by rw [hlabel, Option.any_some, hident]
        exact ⟨t, d, hd, (finalLabel_of_isIdentifier hany).trans hlabel, .inl hany⟩
      · rintro ⟨t, d, hd, hlabel, hany | hlt⟩
        · rw [finalLabel_of_isIdentifier hany] at hlabel
          rw [hlabel, Option.any_some] at hany
          exact ⟨t, d, hd, hlabel, hany⟩
        · exact absurd hlt (Nat.not_lt_zero t)
  | succ token ih =>
      rw [mem_inUse_succ, ih]
      constructor
      · rintro (⟨t, d, hd, hlabel, hcases⟩ | ⟨d, hd, -, hlabel⟩)
        · exact ⟨t, d, hd, hlabel, hcases.imp_right Nat.lt_succ_of_lt⟩
        · exact ⟨token, d, hd, hlabel, .inr (Nat.lt_succ_self token)⟩
      · rintro ⟨t, d, hd, hlabel, hcases⟩
        cases hident : d.label.any u.isIdentifier with
        | true => exact .inl ⟨t, d, hd, hlabel, .inl hident⟩
        | false =>
            have hlt := hcases.resolve_left (Bool.eq_false_iff.mp hident)
            cases Nat.lt_succ_iff_lt_or_eq.mp hlt with
            | inl hlt => exact .inl ⟨t, d, hd, hlabel, .inr hlt⟩
            | inr heq =>
                subst heq
                exact .inr ⟨d, hd, hident, hlabel⟩

/-! ### What labelling comes to -/

theorem lookup_eq_none_of_notMem {entries : List (Nat × String)}
    (h : token ∉ entries.map (·.1)) : entries.lookup token = none := by
  rw [List.lookup_eq_none_iff]
  intro entry hentry
  exact bne_iff_ne.mpr fun heq => h (List.mem_map.mpr ⟨entry, hentry, heq.symm⟩)

theorem get?_foldl_relabel {entries : List (Nat × String)}
    (hnodup : (entries.map (·.1)).Nodup) :
    (entries.foldl (fun r (token, label) => r.relabel token label) r).get? token =
      (r.get? token).map fun d => { d with label := (entries.lookup token).or d.label } := by
  induction entries generalizing r with
  | nil => simp
  | cons entry entries ih =>
      obtain ⟨t, label⟩ := entry
      rw [List.map_cons, List.nodup_cons] at hnodup
      rw [List.foldl_cons, ih hnodup.2, get?_relabel, Option.map_map, List.lookup_cons]
      refine congrArg (fun f => Option.map f (r.get? token)) (funext fun d => ?_)
      by_cases ht : token = t
      · subst ht
        simp [lookup_eq_none_of_notMem hnodup.1]
      · simp [ht, beq_eq_false_iff_ne.mpr ht]

theorem sublist_map_newLabels (ds : List TokenDefinition) (used : List String) :
    ((newLabels u ds used).map (·.1)).Sublist (ds.map (·.ordinal)) := by
  induction ds generalizing used with
  | nil => exact .slnil
  | cons d ds ih =>
      rw [newLabels]
      split
      · exact (ih used).cons _
      · exact (ih _).cons_cons _

theorem drop_definitions (hd : r.get? n = some d) :
    r.definitions.toList.drop n = d :: r.definitions.toList.drop (n + 1) := by
  have hd' : r.definitions.toList[n]? = some d := Array.getElem?_toList.trans hd
  obtain ⟨hn, rfl⟩ := List.getElem?_eq_some_iff.mp hd'
  exact List.drop_eq_getElem_cons hn

section

variable (h : ∀ token d, r.get? token = some d → d.ordinal = token)
include h

/-- What is made for a token is made when the tokens before it have their labels. -/
theorem lookup_newLabels_drop (hn : n ≤ token) :
    (newLabels u r.definitions.toList (r.inUse u 0)).lookup token =
      (newLabels u (r.definitions.toList.drop n) (r.inUse u n)).lookup token := by
  induction n with
  | zero => rw [List.drop_zero]
  | succ n ih =>
      rw [ih (Nat.le_of_succ_le hn), inUse]
      cases hd : r.get? n with
      | none =>
          have hle : r.definitions.toList.length ≤ n :=
            List.getElem?_eq_none_iff.mp (Array.getElem?_toList.trans hd)
          rw [List.drop_of_length_le hle, List.drop_of_length_le (Nat.le_succ_of_le hle)]
      | some d =>
          rw [drop_definitions hd, newLabels]
          dsimp only
          split
          · rfl
          · rw [List.lookup_cons, h n d hd, beq_eq_false_iff_ne.mpr (Nat.ne_of_gt hn)]

theorem lookup_newLabels (hd : r.get? token = some d) :
    (newLabels u r.definitions.toList (r.inUse u 0)).lookup token =
      if d.label.any u.isIdentifier then none else some (d.generatedLabel u (r.inUse u token)) := by
  rw [lookup_newLabels_drop h (Nat.le_refl token), drop_definitions hd, newLabels]
  split
  · -- what is made now is for the tokens behind this one
    refine lookup_eq_none_of_notMem fun hmem => ?_
    have hbehind := (sublist_map_newLabels _ _).mem hmem
    rw [List.map_drop, map_ordinal_definitions h, List.range_eq_range', List.drop_range'] at hbehind
    have hlt := (List.mem_range'_1.mp hbehind).1
    omega
  · rw [List.lookup_cons, h token d hd, beq_self_eq_true]

/-- Labelling changes nothing but labels, and gives each definition its final one. -/
theorem get?_ensureLabels : (r.ensureLabels u).get? token =
    (r.get? token).map fun d => { d with label := r.finalLabel u token d } := by
  have hnodup : ((newLabels u r.definitions.toList (r.inUse u 0)).map (·.1)).Nodup := by
    refine List.Nodup.sublist (sublist_map_newLabels _ _) ?_
    rw [map_ordinal_definitions h]
    exact List.nodup_range
  have hrelabelled : (r.ensureLabels u).get? token = (r.get? token).map fun d => { d with
      label := ((newLabels u r.definitions.toList (r.inUse u 0)).lookup token).or d.label } :=
    get?_foldl_relabel hnodup
  rw [hrelabelled]
  cases hd : r.get? token with
  | none => rfl
  | some d =>
      rw [Option.map_some, Option.map_some, lookup_newLabels h hd, finalLabel]
      split <;> rfl

/-! ### Labels in the end -/

theorem distinctLabels_ensureLabels : (r.ensureLabels u).DistinctLabels ↔
    ∀ s t d d', r.get? s = some d → r.get? t = some d' →
      r.finalLabel u s d = r.finalLabel u t d' → s = t := by
  constructor
  · intro hdistinct s t d d' hd hd' heq
    have hs : (r.ensureLabels u).get? s = some { d with label := r.finalLabel u s d } := by
      rw [get?_ensureLabels h, hd, Option.map_some]
    have ht : (r.ensureLabels u).get? t = some { d' with label := r.finalLabel u t d' } := by
      rw [get?_ensureLabels h, hd', Option.map_some]
    exact hdistinct s t _ _ hs ht heq
  · intro hdistinct s t e e' he he' heq
    rw [get?_ensureLabels h] at he he'
    obtain ⟨d, hd, rfl⟩ := Option.map_eq_some_iff.mp he
    obtain ⟨d', hd', rfl⟩ := Option.map_eq_some_iff.mp he'
    exact hdistinct s t d d' hd hd' heq

theorem namedByOrdinal_iff : r.NamedByOrdinal u token ↔
    ∃ d, r.get? token = some d ∧ d.label.any u.isIdentifier = false ∧
      r.finalLabel u token d = some (numberedLabel token) := by
  constructor
  · rintro ⟨d, d', hd, hnone, hd', hlabel⟩
    rw [get?_ensureLabels h, hd] at hd'
    obtain rfl := Option.some.inj hd'
    exact ⟨d, hd, hnone, hlabel⟩
  · rintro ⟨d, hd, hnone, hlabel⟩
    exact ⟨d, _, hd, hnone, by rw [get?_ensureLabels h, hd, Option.map_some], hlabel⟩

/-- What is made for a token although it is in use is the name of its ordinal. -/
theorem generatedLabel_eq_of_finalLabel (hd : r.get? s = some d) (hd' : r.get? t = some d')
    (heq : r.finalLabel u t d' = some (d.generatedLabel u (r.inUse u s)))
    (hcases : d'.label.any u.isIdentifier = true ∨ t < s) :
    d.generatedLabel u (r.inUse u s) = numberedLabel s := by
  rcases d.generatedLabel_cases u (r.inUse u s) with hnumbered | ⟨-, hfree⟩
  · rw [hnumbered, h s d hd]
  · exact absurd (mem_inUse.mpr ⟨t, d', hd', heq, hcases⟩) hfree

/-- Two tokens with one label in the end: one is named by its ordinal, and the other one has this
name before. -/
theorem anticipates_of_finalLabel_eq (hdistinct : r.DistinctIdentifiers u)
    (hd : r.get? s = some d) (hd' : r.get? t = some d') (hlt : s < t)
    (heq : r.finalLabel u s d = r.finalLabel u t d') :
    r.NamedByOrdinal u t ∧ r.Anticipates u s t ∨ r.NamedByOrdinal u s ∧ r.Anticipates u t s := by
  cases hident' : d'.label.any u.isIdentifier with
  | true =>
      rw [finalLabel_of_isIdentifier hident'] at heq
      cases hident : d.label.any u.isIdentifier with
      | true =>
          rw [finalLabel_of_isIdentifier hident] at heq
          obtain ⟨label, hlabel, hl⟩ := (Option.any_eq_true _ _).mp hident
          have hst := hdistinct s t d d' label hd hd' hlabel (heq ▸ hlabel) hl
          exact absurd hst (Nat.ne_of_lt hlt)
      | false =>
          rw [finalLabel_of_not_isIdentifier hident] at heq
          have hnumbered := generatedLabel_eq_of_finalLabel h hd hd'
            ((finalLabel_of_isIdentifier hident').trans heq.symm) (.inl hident')
          rw [hnumbered] at heq
          refine .inr ⟨(namedByOrdinal_iff h).mpr ⟨d, hd, hident, ?_⟩, d', hd', .inl heq.symm⟩
          rw [finalLabel_of_not_isIdentifier hident, hnumbered]
  | false =>
      rw [finalLabel_of_not_isIdentifier hident'] at heq
      have hnumbered := generatedLabel_eq_of_finalLabel h hd' hd heq (.inr hlt)
      rw [hnumbered] at heq
      refine .inl ⟨(namedByOrdinal_iff h).mpr ⟨d', hd', hident', ?_⟩, d, hd, ?_⟩
      · rw [finalLabel_of_not_isIdentifier hident', hnumbered]
      · cases hident : d.label.any u.isIdentifier with
        | true => exact .inl ((finalLabel_of_isIdentifier hident).symm.trans heq)
        | false =>
            rw [finalLabel_of_not_isIdentifier hident] at heq
            rcases d.generatedLabel_cases u (r.inUse u s) with hself | ⟨himage, -⟩
            · rw [hself, h s d hd, Option.some.injEq] at heq
              exact absurd (numberedLabel_injective heq) (Nat.ne_of_lt hlt)
            · exact .inr ⟨hlt, rfl, himage.trans heq⟩

/-- A token that is named by its ordinal shares the name with whatever token has it before. -/
theorem not_distinctLabels (hnamed : r.NamedByOrdinal u t) (hbefore : r.Anticipates u s t) :
    ¬ (r.ensureLabels u).DistinctLabels := by
  rw [distinctLabels_ensureLabels h]
  intro hdistinct
  obtain ⟨d', hd', hnone, hlabel'⟩ := (namedByOrdinal_iff h).mp hnamed
  -- no token but `t` has the label, and `t` had no identifier
  have honly : ∀ v d, r.get? v = some d → r.finalLabel u v d = some (numberedLabel t) →
      v = t ∧ d.label.any u.isIdentifier = false := by
    intro v d hd hlabel
    obtain rfl := hdistinct v t d d' hd hd' (hlabel.trans hlabel'.symm)
    obtain rfl := Option.some.inj (hd.symm.trans hd')
    exact ⟨rfl, hnone⟩
  obtain ⟨d, hd, hlabel | ⟨hlt, hident, himage⟩⟩ := hbefore
  · have hident : d.label.any u.isIdentifier = true := by
      rw [hlabel, Option.any_some, isIdentifier_numberedLabel]
    have hfinal := (honly s d hd ((finalLabel_of_isIdentifier hident).trans hlabel)).2
    exact absurd (hident.symm.trans hfinal) Bool.noConfusion
  · by_cases hmem : numberedLabel t ∈ r.inUse u s
    · obtain ⟨v, e, he, hfinal, hcases⟩ := mem_inUse.mp hmem
      obtain ⟨rfl, hnone⟩ := honly v e he hfinal
      rcases hcases with hident | hlt'
      · exact absurd (hident.symm.trans hnone) Bool.noConfusion
      · exact absurd hlt' (Nat.lt_asymm hlt)
    · have hgenerated := TokenDefinition.generatedLabel_of_notMem (u := u) himage
        (isIdentifier_numberedLabel t) hmem
      have hfinal := (finalLabel_of_not_isIdentifier hident).trans (congrArg some hgenerated)
      exact absurd (honly s d hd hfinal).1 (Nat.ne_of_lt hlt)

end

end TokenRegistry

namespace Lexer

/-- Labelling gives distinct labels, if no two definitions share an identifier before, except where
a token is named by its ordinal and another has this name already, for an identifier or for its
image. -/
theorem distinctLabels_ensureLabels_iff (u : IdentifierClasses) (lx : Lexer) (h : lx.Reachable)
    (hdistinct : lx.registry.DistinctIdentifiers u) :
    (lx.ensureLabels u).registry.DistinctLabels ↔
      ∀ s t, lx.registry.NamedByOrdinal u t → ¬ lx.registry.Anticipates u s t := by
  have hordinal : ∀ token d, lx.registry.get? token = some d → d.ordinal = token :=
    fun _ _ => h.ordinal_eq
  constructor
  · intro hlabels s t hnamed hbefore
    exact TokenRegistry.not_distinctLabels hordinal hnamed hbefore hlabels
  · intro hnone
    refine (TokenRegistry.distinctLabels_ensureLabels hordinal).mpr fun s t d d' hd hd' heq => ?_
    have of_lt : ∀ {s t : Nat} {d d' : TokenDefinition}, lx.registry.get? s = some d →
        lx.registry.get? t = some d' →
          lx.registry.finalLabel u s d = lx.registry.finalLabel u t d' → ¬ s < t := by
      intro s t d d' hd hd' heq hlt
      rcases TokenRegistry.anticipates_of_finalLabel_eq hordinal hdistinct hd hd' hlt heq with
        ⟨hnamed, hbefore⟩ | ⟨hnamed, hbefore⟩
      · exact hnone s t hnamed hbefore
      · exact hnone t s hnamed hbefore
    exact Nat.le_antisymm (Nat.not_lt.mp (of_lt hd' hd heq.symm)) (Nat.not_lt.mp (of_lt hd hd' heq))

/-- Tokens 3 and 4 are named by their ordinals, and so is token 1 by the grammar, and token 2 for
its image. -/
theorem distinctLabels_ensureLabels_iff_shared : ∃ lx : Lexer, lx.Reachable ∧
    lx.registry.DistinctIdentifiers .ascii ∧ lx.registry.Anticipates .ascii 1 3 ∧
      lx.registry.Anticipates .ascii 2 4 ∧
      ¬ (lx.ensureLabels .ascii).registry.DistinctLabels ∧
        (List.range 5).map (lx.ensureLabels .ascii).tokenName? =
          [some "EOF", some "_TOKEN_3", some "_TOKEN_4", some "_TOKEN_3", some "_TOKEN_4"] := by
  let digit : Pattern := .choice [.literal "0", .literal "1"]
  let lx := [Command.addDefinition { label := some "_TOKEN_3", pattern := digit },
    .addDefinition (.ofLiteral "_token_4"), .addDefinition { pattern := digit },
    .addDefinition { pattern := digit }].foldl Command.run (new {})
  have h : lx.Reachable := (Reachable.new {}).foldl _
  have hlabels : ∀ t d label, lx.registry.get? t = some d → d.label = some label →
      t = 0 ∧ label = "EOF" ∨ t = 1 ∧ label = "_TOKEN_3" := by
    rintro (_ | _ | _ | _ | _ | t) d label hd hlabel <;> cases hd <;> cases hlabel
    · exact .inl ⟨rfl, rfl⟩
    · exact .inr ⟨rfl, rfl⟩
  have hdistinct : lx.registry.DistinctIdentifiers .ascii := by
    intro s t d d' label hd hd' hlabel hlabel' _
    rcases hlabels s d label hd hlabel with ⟨rfl, rfl⟩ | ⟨rfl, rfl⟩ <;>
      rcases hlabels t d' _ hd' hlabel' with ⟨rfl, heq⟩ | ⟨rfl, heq⟩
    · rfl
    · exact absurd heq (by decide)
    · exact absurd heq (by decide)
    · rfl
  have hlabel : lx.registry.Anticipates .ascii 1 3 := ⟨_, rfl, .inl (by decide)⟩
  have himage : lx.registry.Anticipates .ascii 2 4 := ⟨_, rfl, .inr ⟨by decide, rfl, by cbv⟩⟩
  have hnamed : lx.registry.NamedByOrdinal .ascii 3 := ⟨_, _, rfl, rfl, rfl, by cbv⟩
  refine ⟨lx, h, hdistinct, hlabel, himage, fun hlabels => ?_, by cbv⟩
  exact (distinctLabels_ensureLabels_iff .ascii lx h hdistinct).mp hlabels 1 3 hnamed hlabel

end Lexer

end ScannerTables
