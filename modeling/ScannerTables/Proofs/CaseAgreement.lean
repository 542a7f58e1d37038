import ScannerTables.Proofs.Inlining
import ScannerTables.Proofs.MoveRanges
import ScannerTables.Proofs.NormalForm
/-!
# Literals and classes treat case alike

A character of a literal takes its upper-case and lower-case form from the mappings, a class those
of its members that tables list, which end at a limit. Behind the limit the mappings change nothing,
so that the tables miss nothing, and a literal has the language of the classes of its characters.
-/

namespace ScannerTables

open Unicode Checked

/-! ### States -/

namespace State

/-- Adds ranges, one after the other. -/
def addRanges (s : State) (l : List Interval) : Except Misuse State :=
  l.foldlM (fun s i => s.addRange i.lo i.hi) s

/-- Ascending ranges are all added, behind the ranges that are there. -/
theorem addRanges_eq_ok {s : State} {l : List Interval} (h : Ascending (s.ranges ++ l)) :
    s.addRanges l = .ok { s with ranges := s.ranges ++ l } := by
  induction l generalizing s with
  | nil => rw [List.append_nil]; rfl
  | cons i l ih =>
      obtain ⟨-, hright, below⟩ := Ascending.append_iff.mp h
      obtain ⟨hi, -, -⟩ := Ascending.cons_iff.mp hright
      have hadd : s.addRange i.lo i.hi = .ok { s with ranges := s.ranges ++ [i] } :=
        addRange_eq_ok.mpr ⟨fun last hlast =>
          below last (List.mem_of_getLast? hlast) i List.mem_cons_self, hi, rfl⟩
      rw [List.append_cons] at h
      rw [addRanges, List.foldlM_cons, hadd, ok_bind]
      exact (ih h).trans (by rw [List.append_assoc, List.singleton_append])

end State

/-- A class of one code point stands for its variants, as a character of a literal does. -/
theorem CharacterClass.contains_single {ignoreCase : Bool} {c d : Nat} :
    Contains { ranges := [.single c] } ignoreCase d ↔ CharVariant ignoreCase c d := by
  simp [Contains, InBase, CharVariant]

/-! ### Patterns -/

namespace Pattern

/-- The classes of the characters of a text, one after the other. -/
def charClasses (text : String) : Pattern :=
  .sequence (text.toList.map fun c => .charClass { ranges := [.single c.toNat] })

end Pattern

namespace TokenRegistry

/-- The words of a sequence of classes take a code point of each. -/
theorem mem_language_charClasses {r : TokenRegistry} {ignoreCase : Bool} {cs : List Char}
    {w : List Nat} :
    w ∈ r.language ignoreCase
        (.sequence (cs.map fun c => .charClass { ranges := [.single c.toNat] })) ↔
      List.Forall₂ (CharVariant ignoreCase) (cs.map Char.toNat) w := by
  induction cs generalizing w with
  | nil =>
      rw [List.map_nil, language_sequence_nil, Language.mem_one, List.map_nil,
        List.forall₂_nil_left_iff]
  | cons c cs ih =>
      rw [List.map_cons, language_sequence_cons, Language.mem_mul, List.map_cons,
        List.forall₂_cons_left_iff]
      simp only [mem_language_charClass, CharacterClass.contains_single, ih]
      constructor
      · rintro ⟨_, ⟨d, hd, rfl⟩, v, hv, rfl⟩
        exact ⟨d, v, hd, hv, rfl⟩
      · rintro ⟨d, v, hd, hv, rfl⟩
        exact ⟨[d], ⟨d, hd, rfl⟩, v, hv, rfl⟩

theorem language_literal_eq (r : TokenRegistry) (ignoreCase : Bool) (text : String) :
    r.language ignoreCase (.literal text) = r.language ignoreCase (.charClasses text) := by
  ext w
  rw [mem_language_literal, Pattern.charClasses, mem_language_charClasses]

end TokenRegistry

namespace Build

/-- A pattern that can be inlined is built, for its language. -/
theorem exists_inlined_eq_ok {r : TokenRegistry} {resolving : List String} {p : Pattern}
    (h : r.Inlines resolving p) (token : Nat) (ignoreCase : Bool) (a : Automaton) :
    ∃ f a', inlined r token ignoreCase resolving p a = .ok f a' ∧
      ∀ w, Path a'.moves f.entry w f.exit ↔ w ∈ r.language ignoreCase p := by
  have hrecognizes : Recognizes token (r.language ignoreCase p)
      (inlined r token ignoreCase resolving p) := recognizes_inlined r resolving p
  cases hrun : inlined r token ignoreCase resolving p a with
  | ok f a' => exact ⟨f, a', rfl, ((hrecognizes a).of_ok hrun).path_iff⟩
  | error e a' =>
      obtain ⟨⟨d, rfl⟩, -⟩ := (hrecognizes a).of_error hrun
      exact absurd rfl ((faultless_inlined h a).of_error hrun d)

end Build

/-! ### Agreement -/

/-- The state of a class of one code point, by its ranges in normal form, accepts what the state of
the character in a literal accepts. -/
theorem State.addRanges_orderedRanges (s : State) (c : Nat) (ignoreCase : Bool) : ∃ t,
    State.addRanges { s with ranges := [] }
      (({ ranges := [.single c] } : CharacterClass).orderedRanges ignoreCase) = .ok t ∧
        ∀ d, t.accepts d = (s.setCharMove c ignoreCase).accepts d := by
  let k : CharacterClass := { ranges := [.single c] }
  have hascending : Ascending (k.orderedRanges ignoreCase) :=
    .of_separated (k.separated_orderedRanges ignoreCase)
  refine ⟨_, State.addRanges_eq_ok hascending, fun d => ?_⟩
  rw [Bool.eq_iff_iff, State.accepts_iff hascending,
    State.accepts_iff (State.ascending_setCharMove s c ignoreCase), State.covers_setCharMove]
  exact CharacterClass.covers_orderedRanges.trans CharacterClass.contains_single

/-- A character of a literal and the class of that character alike: their states accept the same
code points, whether the normal form of the class is computed on words or not; a literal and the
sequence of the classes of its characters have the same language, and the automata built for them
the same words. -/
theorem literal_agrees_with_classes (ignoreCase : Bool) :
    (∀ (c : Char) (s : State), ∃ l t,
      PackedSet.orderedIntervals [.single c.val] false ignoreCase = .ok l ∧
      l.map Interval32.toInterval =
        ({ ranges := [.single c.toNat] } : CharacterClass).orderedRanges ignoreCase ∧
      State.addRanges { s with ranges := [] } (l.map Interval32.toInterval) = .ok t ∧
      ∀ d, t.accepts d = (s.setCharMove c.toNat ignoreCase).accepts d) ∧
    (∀ (r : TokenRegistry) (text : String),
      r.language ignoreCase (.literal text) = r.language ignoreCase (.charClasses text)) ∧
    ∀ (r : TokenRegistry) (token : Nat) (resolving : List String) (text : String) (a : Automaton),
      ∃ f₁ a₁ f₂ a₂, Build.inlined r token ignoreCase resolving (.literal text) a = .ok f₁ a₁ ∧
        Build.inlined r token ignoreCase resolving (.charClasses text) a = .ok f₂ a₂ ∧
        ∀ w, Path a₁.moves f₁.entry w f₁.exit ↔ Path a₂.moves f₂.entry w f₂.exit := by
  refine ⟨fun c s => ?_, fun r text => r.language_literal_eq ignoreCase text,
    fun r token resolving text a => ?_⟩
  · obtain ⟨l, hl, heq⟩ := PackedSet.orderedIntervals_returns [.single c.val] false ignoreCase
    obtain ⟨t, ht, haccepts⟩ := s.addRanges_orderedRanges c.toNat ignoreCase
    exact ⟨l, t, hl, heq, heq ▸ ht, haccepts⟩
  · have hclasses : r.Inlines resolving (.charClasses text) := by
      refine .sequence fun p hp => ?_
      obtain ⟨c, -, rfl⟩ := List.mem_map.mp hp
      exact .charClass _
    have hliteral : r.Inlines resolving (.literal text) := .literal text
    obtain ⟨f₁, a₁, hok₁, hpath₁⟩ := Build.exists_inlined_eq_ok hliteral token ignoreCase a
    obtain ⟨f₂, a₂, hok₂, hpath₂⟩ := Build.exists_inlined_eq_ok hclasses token ignoreCase a
    refine ⟨f₁, a₁, f₂, a₂, hok₁, hok₂, fun w => ?_⟩
    rw [hpath₁, hpath₂, r.language_literal_eq]

end ScannerTables
