import Mathlib.Computability.Language
import ScannerTables.Automaton.State
import ScannerTables.Token.Registry
/-!
# The languages of patterns

What a pattern means, without an automaton: `TokenRegistry.Matches` says which words of code points
it matches, where a reference stands for the pattern that the registry resolves it to and case is
ignored or not throughout. The relation is the least one that its rules allow, so a reference that
leads back to itself adds no words.

`TokenRegistry.language` is the same thing as a language, for which each operator of patterns has an
equation in terms of the languages of its parts.
-/

namespace ScannerTables

open Unicode Computability

/-! ### Characters -/

namespace Unicode

theorem CaseSpan.mem_points {s : CaseSpan} {c : Nat} (h : s.covers c = true) : c ∈ s.points := by
  simp only [CaseSpan.covers, Bool.and_eq_true, decide_eq_true_eq, beq_iff_eq] at h
  obtain ⟨⟨hfirst, hlast⟩, hmod⟩ := h
  refine List.mem_range'.mpr ⟨(c - s.first) / s.step, ?_, ?_⟩
  · exact Nat.lt_succ_of_le (Nat.div_le_div_right (by omega))
  · have hdiv := Nat.div_add_mod (c - s.first) s.step
    omega

/-- A mapping takes the image of a span that covers the code point, if there is one. -/
theorem mapBy_cases (spans : List CaseSpan) (c : Nat) :
    (∃ s ∈ spans, s.covers c = true ∧ mapBy spans c = s.image c) ∨
      (∀ s ∈ spans, s.covers c = false) ∧ mapBy spans c = c := by
  rw [mapBy]
  split
  · next s hs =>
    have hc : s.covers c = true := List.find?_some (p := (CaseSpan.covers · c)) hs
    exact .inl ⟨s, List.mem_of_find?_eq_some hs, hc, rfl⟩
  · next hnone =>
    exact .inr ⟨fun s hs => Bool.eq_false_iff.mpr (List.find?_eq_none.mp hnone s hs), rfl⟩

theorem mem_points_of_mapBy_ne {spans : List CaseSpan} {c : Nat} (h : mapBy spans c ≠ c) :
    c ∈ spans.flatMap CaseSpan.points := by
  obtain ⟨s, hs, hc, -⟩ | ⟨-, heq⟩ := mapBy_cases spans c
  · exact List.mem_flatMap.mpr ⟨s, hs, CaseSpan.mem_points hc⟩
  · exact absurd heq h

end Unicode

/-- Case expansion adds the upper-case and lower-case form of every member and nothing else. -/
theorem IntervalSet.mem_withCase {s : IntervalSet} {c : Nat} :
    c ∈ s.withCase ↔ c ∈ s ∨ ∃ d ∈ s, c = upper d ∨ c = lower d := by
  simp only [withCase, mem_insertAll, List.mem_map, List.mem_filter, decide_eq_true_eq]
  constructor
  · rintro (⟨d, ⟨-, hd⟩, rfl⟩ | ⟨d, ⟨-, hd⟩, rfl⟩ | hc)
    · exact .inr ⟨d, hd, .inr rfl⟩
    · exact .inr ⟨d, hd, .inl rfl⟩
    · exact .inl hc
  · rintro (hc | ⟨d, hd, rfl | rfl⟩)
    · exact .inr (.inr hc)
    · by_cases h : upper d = d
      · exact .inr (.inr (by rwa [h]))
      · exact .inr (.inl ⟨d, ⟨mem_points_of_mapBy_ne h, hd⟩, rfl⟩)
    · by_cases h : lower d = d
      · exact .inr (.inr (by rwa [h]))
      · exact .inl ⟨d, ⟨mem_points_of_mapBy_ne h, hd⟩, rfl⟩

namespace CharacterClass

/-- A code point of the ranges or, if case is ignored, the upper-case or lower-case form of one. -/
def InBase (k : CharacterClass) (ignoreCase : Bool) (c : Nat) : Prop :=
  Covers k.ranges c ∨
    ignoreCase = true ∧ ∃ d, Covers k.ranges d ∧ (c = upper d ∨ c = lower d)

/-- The code points that a class stands for; negation comes after case expansion and is taken within
the code points of Unicode. -/
def Contains (k : CharacterClass) (ignoreCase : Bool) (c : Nat) : Prop :=
  if k.negated then c < codePointLimit ∧ ¬ k.InBase ignoreCase c else k.InBase ignoreCase c

theorem mem_base {k : CharacterClass} {ignoreCase : Bool} {c : Nat} :
    c ∈ k.base ignoreCase ↔ k.InBase ignoreCase c := by
  cases ignoreCase <;> simp [base, InBase, IntervalSet.mem_withCase]

theorem mem_members {k : CharacterClass} {ignoreCase : Bool} {c : Nat} :
    c ∈ k.members ignoreCase ↔ k.Contains ignoreCase c := by
  rw [members, Contains]
  split
  · rw [IntervalSet.mem_complement, mem_base]
  · exact mem_base

theorem covers_orderedRanges {k : CharacterClass} {ignoreCase : Bool} {c : Nat} :
    Covers (k.orderedRanges ignoreCase) c ↔ k.Contains ignoreCase c :=
  mem_members

end CharacterClass

/-- The code points that a character of a literal stands for: itself and, if case is ignored, its
upper-case and lower-case form. -/
def CharVariant (ignoreCase : Bool) (c d : Nat) : Prop :=
  d = c ∨ ignoreCase = true ∧ (d = upper c ∨ d = lower c)

@[simp] theorem charVariant_self (ignoreCase : Bool) (c : Nat) : CharVariant ignoreCase c c :=
  .inl rfl

theorem State.mem_caseVariants {c d : Nat} : d ∈ State.caseVariants c ↔ CharVariant true c d := by
  simp only [State.caseVariants, IntervalSet.mem_toList, IntervalSet.mem_ofList, List.mem_cons,
    List.not_mem_nil, or_false, CharVariant, true_and]
  rw [← or_assoc, or_comm]

/-! ### Words -/

namespace TokenRegistry

/-- The words that a pattern matches. A choice of no alternatives matches none, a sequence of no
units the empty word; `*`, `+` and counted repetitions match words put together from words of the
body, as many as the operator allows. -/
inductive Matches (r : TokenRegistry) (ignoreCase : Bool) : Pattern → List Nat → Prop
  | charClass {k : CharacterClass} {c : Nat} (hc : k.Contains ignoreCase c) :
      Matches r ignoreCase (.charClass k) [c]
  | literal {text : String} {w : List Nat}
      (hw : List.Forall₂ (CharVariant ignoreCase) (text.toList.map Char.toNat) w) :
      Matches r ignoreCase (.literal text) w
  | sequence {ps : List Pattern} {ws : List (List Nat)}
      (hws : List.Forall₂ (Matches r ignoreCase) ps ws) :
      Matches r ignoreCase (.sequence ps) ws.flatten
  | choice {ps : List Pattern} {p : Pattern} {w : List Nat} (hp : p ∈ ps)
      (hw : Matches r ignoreCase p w) : Matches r ignoreCase (.choice ps) w
  | zeroOrMore {p : Pattern} {ws : List (List Nat)} (hws : ∀ w ∈ ws, Matches r ignoreCase p w) :
      Matches r ignoreCase (.zeroOrMore p) ws.flatten
  | oneOrMore {p : Pattern} {ws : List (List Nat)} (hne : ws ≠ [])
      (hws : ∀ w ∈ ws, Matches r ignoreCase p w) : Matches r ignoreCase (.oneOrMore p) ws.flatten
  | nothing {p : Pattern} : Matches r ignoreCase (.zeroOrOne p) []
  | one {p : Pattern} {w : List Nat} (hw : Matches r ignoreCase p w) :
      Matches r ignoreCase (.zeroOrOne p) w
  | repetition {p : Pattern} {min : Nat} {max : Option Nat} {ws : List (List Nat)}
      (hmin : min ≤ ws.length) (hmax : ∀ n ∈ max, ws.length ≤ n)
      (hws : ∀ w ∈ ws, Matches r ignoreCase p w) :
      Matches r ignoreCase (.repetition p min max) ws.flatten
  | reference {label : String} {p : Pattern} {w : List Nat} (hp : r.resolve? label = some p)
      (hw : Matches r ignoreCase p w) : Matches r ignoreCase (.reference label) w

/-- The language of a pattern. -/
def language (r : TokenRegistry) (ignoreCase : Bool) (p : Pattern) : Language Nat :=
  {w | r.Matches ignoreCase p w}

variable {r : TokenRegistry} {ignoreCase : Bool} {p : Pattern} {w : List Nat}

theorem mem_language_charClass {k : CharacterClass} :
    w ∈ r.language ignoreCase (.charClass k) ↔ ∃ c, k.Contains ignoreCase c ∧ w = [c] := by
  constructor
  · rintro ⟨hc⟩
    exact ⟨_, hc, rfl⟩
  · rintro ⟨c, hc, rfl⟩
    exact .charClass hc

theorem mem_language_literal {text : String} : w ∈ r.language ignoreCase (.literal text) ↔
    List.Forall₂ (CharVariant ignoreCase) (text.toList.map Char.toNat) w := by
  constructor
  · rintro (_ | hw)
    exact hw
  · exact .literal

theorem language_sequence_nil : r.language ignoreCase (.sequence []) = 1 := by
  ext w
  rw [Language.mem_one]
  constructor
  · intro h
    cases h with
    | sequence hws => cases hws; rfl
  · rintro rfl
    exact .sequence .nil

theorem language_sequence_cons {ps : List Pattern} :
    r.language ignoreCase (.sequence (p :: ps)) =
      r.language ignoreCase p * r.language ignoreCase (.sequence ps) := by
  ext w
  rw [Language.mem_mul]
  constructor
  · intro h
    cases h with
    | sequence hws =>
        cases hws with
        | cons hw hws => exact ⟨_, hw, _, .sequence hws, rfl⟩
  · rintro ⟨u, hu, v, hv, rfl⟩
    cases hv with
    | sequence hws => exact @Matches.sequence r ignoreCase (p :: ps) (u :: _) (.cons hu hws)

theorem language_sequence (ps : List Pattern) :
    r.language ignoreCase (.sequence ps) = (ps.map (r.language ignoreCase)).prod := by
  induction ps with
  | nil => exact language_sequence_nil
  | cons p ps ih => rw [language_sequence_cons, ih, List.map_cons, List.prod_cons]

theorem mem_language_choice {ps : List Pattern} :
    w ∈ r.language ignoreCase (.choice ps) ↔ ∃ p ∈ ps, w ∈ r.language ignoreCase p := by
  constructor
  · intro h
    cases h with
    | choice hp hw => exact ⟨_, hp, hw⟩
  · rintro ⟨p, hp, hw⟩
    exact .choice hp hw

theorem language_zeroOrMore :
    r.language ignoreCase (.zeroOrMore p) = (r.language ignoreCase p)∗ := by
  ext w
  rw [Language.mem_kstar]
  constructor
  · intro h
    cases h with
    | zeroOrMore hws => exact ⟨_, rfl, hws⟩
  · rintro ⟨ws, rfl, hws⟩
    exact .zeroOrMore hws

theorem language_oneOrMore : r.language ignoreCase (.oneOrMore p) =
    r.language ignoreCase p * (r.language ignoreCase p)∗ := by
  ext w
  rw [Language.mem_mul]
  constructor
  · intro h
    cases h with
    | @oneOrMore _ ws hne hws =>
        obtain ⟨u, us, rfl⟩ := List.exists_cons_of_ne_nil hne
        rw [List.forall_mem_cons] at hws
        exact ⟨u, hws.1, us.flatten, Language.join_mem_kstar hws.2, rfl⟩
  · rintro ⟨u, hu, v, ⟨us, rfl, hus⟩, rfl⟩
    exact @Matches.oneOrMore r ignoreCase p (u :: us) (List.cons_ne_nil _ _)
      (List.forall_mem_cons.mpr ⟨hu, hus⟩)

theorem language_zeroOrOne :
    r.language ignoreCase (.zeroOrOne p) = 1 + r.language ignoreCase p := by
  ext w
  rw [Language.mem_add, Language.mem_one]
  constructor
  · intro h
    cases h with
    | nothing => exact .inl rfl
    | one hw => exact .inr hw
  · rintro (rfl | hw)
    · exact .nothing
    · exact .one hw

theorem mem_language_repetition {min : Nat} {max : Option Nat} :
    w ∈ r.language ignoreCase (.repetition p min max) ↔
      ∃ k, min ≤ k ∧ (∀ n ∈ max, k ≤ n) ∧ w ∈ r.language ignoreCase p ^ k := by
  constructor
  · intro h
    cases h with
    | repetition hmin hmax hws =>
        exact ⟨_, hmin, hmax, Language.mem_pow.mpr ⟨_, rfl, rfl, hws⟩⟩
  · rintro ⟨k, hmin, hmax, hw⟩
    obtain ⟨ws, rfl, rfl, hws⟩ := Language.mem_pow.mp hw
    exact .repetition hmin hmax hws

theorem language_reference {label : String} (hp : r.resolve? label = some p) :
    r.language ignoreCase (.reference label) = r.language ignoreCase p := by
  ext w
  constructor
  · intro h
    cases h with
    | reference hq hw =>
        obtain rfl : p = _ := Option.some.inj (hp.symm.trans hq)
        exact hw
  · exact .reference hp

end TokenRegistry

/-! ### Powers -/

namespace Language

variable {L : Language Nat} {w : List Nat}

/-- At most `n` words of a language, one after the other. -/
theorem mem_one_add_pow {n : Nat} : w ∈ (1 + L) ^ n ↔ ∃ k ≤ n, w ∈ L ^ k := by
  induction n generalizing w with
  | zero => simp
  | succ n ih =>
      rw [pow_succ', add_mul, one_mul, Language.mem_add]
      constructor
      · rintro (h | h)
        · obtain ⟨k, hk, hw⟩ := ih.mp h
          exact ⟨k, Nat.le_succ_of_le hk, hw⟩
        · obtain ⟨u, hu, v, hv, rfl⟩ := Language.mem_mul.mp h
          obtain ⟨k, hk, hv⟩ := ih.mp hv
          exact ⟨k + 1, Nat.succ_le_succ hk, pow_succ' L k ▸ Language.append_mem_mul hu hv⟩
      · rintro ⟨k, hk, hw⟩
        cases k with
        | zero => exact .inl (ih.mpr ⟨0, Nat.zero_le _, hw⟩)
        | succ k =>
            rw [pow_succ'] at hw
            obtain ⟨u, hu, v, hv, rfl⟩ := Language.mem_mul.mp hw
            exact .inr (Language.append_mem_mul hu (ih.mpr ⟨k, Nat.le_of_succ_le_succ hk, hv⟩))

/-- From `min` to `max` words: as many as must be, then any number of those left. -/
theorem mem_pow_mul_one_add_pow {min max : Nat} (h : min ≤ max) :
    w ∈ L ^ min * (1 + L) ^ (max - min) ↔ ∃ k, min ≤ k ∧ k ≤ max ∧ w ∈ L ^ k := by
  rw [Language.mem_mul]
  constructor
  · rintro ⟨u, hu, v, hv, rfl⟩
    obtain ⟨k, hk, hv⟩ := mem_one_add_pow.mp hv
    exact ⟨min + k, by omega, by omega, pow_add L min k ▸ Language.append_mem_mul hu hv⟩
  · rintro ⟨k, hmin, hmax, hw⟩
    rw [← Nat.add_sub_cancel' hmin, pow_add] at hw
    obtain ⟨u, hu, v, hv, rfl⟩ := Language.mem_mul.mp hw
    exact ⟨u, hu, v, mem_one_add_pow.mpr ⟨k - min, by omega, hv⟩, rfl⟩

/-- At least `min` words: as many as must be, then any number. -/
theorem mem_pow_mul_kstar {min : Nat} : w ∈ L ^ min * L∗ ↔ ∃ k, min ≤ k ∧ w ∈ L ^ k := by
  rw [Language.mem_mul]
  constructor
  · rintro ⟨u, hu, v, hv, rfl⟩
    rw [Language.kstar_eq_iSup_pow, Language.mem_iSup] at hv
    obtain ⟨k, hv⟩ := hv
    exact ⟨min + k, by omega, pow_add L min k ▸ Language.append_mem_mul hu hv⟩
  · rintro ⟨k, hmin, hw⟩
    rw [← Nat.add_sub_cancel' hmin, pow_add] at hw
    obtain ⟨u, hu, v, hv, rfl⟩ := Language.mem_mul.mp hw
    refine ⟨u, hu, v, ?_, rfl⟩
    rw [Language.kstar_eq_iSup_pow, Language.mem_iSup]
    exact ⟨k - min, hv⟩

end Language

end ScannerTables
