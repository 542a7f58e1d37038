import Mathlib
import ScannerTables.Automaton.Fragment
import ScannerTables.Proofs.Language
/-!
# Counted repetitions

A counted repetition is expanded into the copies that it demands and, behind them, an optional copy
for each further one that it allows, or one unbounded repetition. The optional copies do not depend
on each other: one of them may be used where the one before it is not, and if the body matches the
empty word, to use one and to leave it out is the same. All that remains of a match is how many
words of the body are put together, and the expansion allows every number within the bounds.

So the expansion matches what the repetition matches, and building it is building the repetition
(`language_expandRepetition`).
-/

namespace ScannerTables

open Computability

/-- A repetition whose bounds are in order is built as its expansion is. -/
theorem Build.pattern_expandRepetition {token min : Nat} {ignoreCase : Bool} {max : Option Nat}
    {refer : String → Build Fragment} {p : Pattern} (h : ∀ n ∈ max, min ≤ n) :
    pattern token ignoreCase refer (p.expandRepetition min max) =
      pattern token ignoreCase refer (.repetition p min max) := by
  cases max with
  | none =>
      simp only [Pattern.expandRepetition, pattern, repetition, patterns_eq_map, List.map_append,
        List.map_replicate, List.map_singleton]
  | some max =>
      have hle : ¬ max < min := Nat.not_lt_of_le (h max rfl)
      simp only [Pattern.expandRepetition, pattern, repetition, patterns_eq_map, List.map_append,
        List.map_replicate, if_neg hle]

namespace TokenRegistry

variable {r : TokenRegistry} {ignoreCase : Bool} {p : Pattern} {min max : Nat}

/-- An expansion is a sequence of copies, followed by some more units. -/
theorem language_sequence_replicate_append (n : Nat) (units : List Pattern) :
    r.language ignoreCase (.sequence (List.replicate n p ++ units)) =
      r.language ignoreCase p ^ n * (units.map (r.language ignoreCase)).prod := by
  rw [language_sequence, List.map_append, List.map_replicate, List.prod_append,
    List.prod_replicate]

/-- With an upper bound: the copies that must be, then optional ones. -/
theorem language_expandRepetition_some :
    r.language ignoreCase (p.expandRepetition min (some max)) =
      r.language ignoreCase p ^ min * (1 + r.language ignoreCase p) ^ (max - min) := by
  apply (language_sequence_replicate_append min _).trans
  rw [List.map_replicate, List.prod_replicate, language_zeroOrOne]

/-- Without an upper bound: the copies that must be, then any number. -/
theorem language_expandRepetition_none :
    r.language ignoreCase (p.expandRepetition min none) =
      r.language ignoreCase p ^ min * (r.language ignoreCase p)∗ := by
  apply (language_sequence_replicate_append min _).trans
  rw [List.map_singleton, List.prod_singleton, language_zeroOrMore]

/-- A repetition whose bounds are in order and its expansion match the same words. -/
theorem language_repetition {max : Option Nat} (h : ∀ n ∈ max, min ≤ n) :
    r.language ignoreCase (.repetition p min max) =
      r.language ignoreCase (p.expandRepetition min max) := by
  ext w
  apply mem_language_repetition.trans
  cases max with
  | none =>
      rw [language_expandRepetition_none, Language.mem_pow_mul_kstar]
      simp only [Option.not_mem_none, false_implies, implies_true, true_and]
  | some max =>
      rw [language_expandRepetition_some, Language.mem_pow_mul_one_add_pow (h max rfl)]
      simp only [Option.mem_some_iff, forall_eq']

/-- Expanding a repetition keeps its meaning, also where the body matches the empty word: the words
of the expansion are those put together from `k` words of the body, for every `k` from `min` to
`max`, or from `min` on if there is no upper bound. So are the words of the repetition, and it is
built as its expansion is. -/
theorem language_expandRepetition (r : TokenRegistry) (ignoreCase : Bool) (p : Pattern)
    (min : Nat) :
    (∀ max, min ≤ max →
      r.language ignoreCase (p.expandRepetition min (some max)) =
        ⨆ k ∈ Set.Icc min max, r.language ignoreCase p ^ k) ∧
    (r.language ignoreCase (p.expandRepetition min none) =
      ⨆ k ∈ Set.Ici min, r.language ignoreCase p ^ k) ∧
    ∀ max : Option Nat, (∀ n ∈ max, min ≤ n) →
      r.language ignoreCase (.repetition p min max) =
          r.language ignoreCase (p.expandRepetition min max) ∧
        ∀ (token : Nat) (refer : String → Build Fragment),
          Build.pattern token ignoreCase refer (p.expandRepetition min max) =
            Build.pattern token ignoreCase refer (.repetition p min max) := by
  refine ⟨fun max h => ?_, ?_, fun max h =>
    ⟨language_repetition h, fun _ _ => Build.pattern_expandRepetition h⟩⟩
  · ext w
    rw [language_expandRepetition_some, Language.mem_pow_mul_one_add_pow h]
    simp only [Language.mem_iSup, Set.mem_Icc, exists_prop, and_assoc]
  · ext w
    rw [language_expandRepetition_none, Language.mem_pow_mul_kstar]
    simp only [Language.mem_iSup, Set.mem_Ici, exists_prop]

/-- One or two times an optional `a`: nothing at all, and `aa`. -/
theorem language_expandRepetition_nullable :
    let p : Pattern := .zeroOrOne (.literal "a")
    1 ≤ 2 ∧
      TokenRegistry.new.language false (p.expandRepetition 1 (some 2)) =
        ⨆ k ∈ Set.Icc 1 2, TokenRegistry.new.language false p ^ k ∧
      [] ∈ TokenRegistry.new.language false (p.expandRepetition 1 (some 2)) ∧
      [97, 97] ∈ TokenRegistry.new.language false (p.expandRepetition 1 (some 2)) := by
  intro p
  obtain ⟨hbounded, -, -⟩ := language_expandRepetition TokenRegistry.new false p 1
  have hle : 1 ≤ 2 := by decide
  have hnil : [] ∈ TokenRegistry.new.language false p := Matches.nothing
  have ha : [97] ∈ TokenRegistry.new.language false p :=
    Matches.one (.literal (.cons (charVariant_self false 97) .nil))
  refine ⟨hle, hbounded 2 hle, ?_, ?_⟩ <;>
    simp only [hbounded 2 hle, Language.mem_iSup, Set.mem_Icc, exists_prop]
  · exact ⟨1, by decide, (pow_one (TokenRegistry.new.language false p)).symm ▸ hnil⟩
  · refine ⟨2, by decide, ?_⟩
    rw [pow_two]
    exact Language.append_mem_mul ha ha

end TokenRegistry
end ScannerTables
