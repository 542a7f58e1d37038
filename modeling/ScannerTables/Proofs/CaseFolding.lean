import ScannerTables.Proofs.Inlining
import ScannerTables.Proofs.Literals
/-!
# Literals whose case is ignored

Such a literal goes by two notions of case. The table of owners knows it by the full upper-case form
of its text, and its automaton takes for each character the simple upper-case and lower-case form.
The two agree on texts of regular characters: those whose forms all have one and the same character
for their upper-case form, and which are among the forms of that character. For every character that
is not regular there is a literal on which they disagree.
-/

namespace ScannerTables

namespace Unicode

variable {c d : Nat} {u v : List Nat}

/-! ### Code points of characters -/

/-- Spans whose images lie on one side of the surrogates. -/
def CaseSpan.Valid (s : CaseSpan) : Prop :=
  0 ≤ s.first + s.shift ∧ s.last + s.shift < 0xD800 ∨
    0xDFFF < s.first + s.shift ∧ s.last + s.shift < 0x110000

instance : DecidablePred CaseSpan.Valid := fun _ => inferInstanceAs (Decidable (_ ∨ _))

/-- What a mapping changes it maps to a character. -/
theorem isValidChar_mapBy_of_ne {spans : List CaseSpan} (hspans : ∀ s ∈ spans, s.Valid)
    (h : mapBy spans c ≠ c) : (mapBy spans c).isValidChar := by
  obtain ⟨s, hs, hcovers, heq⟩ | ⟨-, heq⟩ := mapBy_cases spans c
  · have hvalid := hspans s hs
    simp only [CaseSpan.covers, Bool.and_eq_true, decide_eq_true_eq] at hcovers
    rw [CaseSpan.Valid] at hvalid
    rw [heq, CaseSpan.image, Nat.isValidChar]
    omega
  · exact absurd heq h

theorem isValidChar_upper_of_ne (h : upper c ≠ c) : (upper c).isValidChar :=
  isValidChar_mapBy_of_ne (by decide +kernel) h

theorem isValidChar_lower_of_ne (h : lower c ≠ c) : (lower c).isValidChar :=
  isValidChar_mapBy_of_ne (by decide +kernel) h

theorem isValidChar_upper (hc : c.isValidChar) : (upper c).isValidChar := by
  by_cases h : upper c = c
  · rwa [h]
  · exact isValidChar_upper_of_ne h

theorem isValidChar_lower (hc : c.isValidChar) : (lower c).isValidChar := by
  by_cases h : lower c = c
  · rwa [h]
  · exact isValidChar_lower_of_ne h

theorem isValidChar_of_charVariant {ignoreCase : Bool} (hc : c.isValidChar)
    (hd : CharVariant ignoreCase c d) : d.isValidChar := by
  rcases hd with rfl | ⟨-, rfl | rfl⟩
  · exact hc
  · exact isValidChar_upper hc
  · exact isValidChar_lower hc

/-- An expansion has several characters, each of them its own upper-case form. -/
theorem of_mem_upperExpansions {l : List Nat} (h : (c, l) ∈ upperExpansions) :
    2 ≤ l.length ∧ l.flatMap upperFull = l ∧ ∀ d ∈ l, d.isValidChar := by
  have hall : ∀ e ∈ upperExpansions,
      2 ≤ e.2.length ∧ e.2.flatMap upperFull = e.2 ∧ ∀ d ∈ e.2, d.isValidChar := by
    decide +kernel
  exact hall _ h

theorem upperFull_cases (c : Nat) :
    (c, upperFull c) ∈ upperExpansions ∨ upperFull c = [upper c] := by
  rw [upperFull]
  cases h : upperExpansions.lookup c with
  | none => exact .inr rfl
  | some l =>
      obtain ⟨l₁, l₂, heq, -⟩ := List.lookup_eq_some_iff.mp h
      exact .inl (by simp [heq])

theorem isValidChar_of_mem_upperFull (hc : c.isValidChar) (hd : d ∈ upperFull c) :
    d.isValidChar := by
  rcases upperFull_cases c with hmem | heq
  · exact (of_mem_upperExpansions hmem).2.2 d hd
  · rw [heq, List.mem_singleton] at hd
    exact hd ▸ isValidChar_upper hc

theorem map_toNat_ofNat (hu : ∀ c ∈ u, c.isValidChar) : u.map (Char.toNat ∘ Char.ofNat) = u := by
  have hid : ∀ c ∈ u, (Char.toNat ∘ Char.ofNat) c = id c := by
    intro c hc
    rw [Function.comp_apply, Char.ofNat, dif_pos (hu c hc)]
    rfl
  rw [List.map_congr_left hid, List.map_id]

/-- The code points of a text in upper case are those of its characters in upper case. -/
theorem map_toNat_upperText (text : String) : (upperText text).toList.map Char.toNat =
    (text.toList.map Char.toNat).flatMap upperFull := by
  rw [upperText, String.toList_ofList, List.map_flatMap, List.flatMap_map]
  refine List.flatMap_congr fun c _ => ?_
  rw [List.map_map]
  exact map_toNat_ofNat fun d hd => isValidChar_of_mem_upperFull c.valid hd

theorem upperText_eq_iff {text text' : String} : upperText text = upperText text' ↔
    (text.toList.map Char.toNat).flatMap upperFull =
      (text'.toList.map Char.toNat).flatMap upperFull := by
  rw [← map_toNat_upperText, ← map_toNat_upperText]
  exact ⟨fun h => by rw [h], LexicalState.eq_of_map_toNat_eq⟩

/-! ### Regular characters -/

/-- A code point whose forms all have the same upper-case form, a single character of which it is a
form itself. -/
def Regular (c : Nat) : Prop :=
  (∀ d, CharVariant true c d → upperFull d = [upper c]) ∧ CharVariant true (upper c) c

theorem regular_iff : Regular c ↔
    (upperFull c = [upper c] ∧ upperFull (upper c) = [upper c] ∧ upperFull (lower c) = [upper c]) ∧
      (c = upper c ∨ c = upper (upper c) ∨ c = lower (upper c)) := by
  simp only [Regular, CharVariant, true_and, forall_eq_or_imp, forall_eq]

instance : DecidablePred Regular := fun _ => decidable_of_iff' _ regular_iff

namespace Regular

theorem upper_upper (h : Regular c) : upper (upper c) = upper c := by
  have hkey : upperFull (upper c) = [upper c] := h.1 _ (.inr ⟨rfl, .inl rfl⟩)
  rcases upperFull_cases (upper c) with hmem | heq
  · have hlength := (of_mem_upperExpansions hmem).1
    rw [hkey, List.length_singleton] at hlength
    omega
  · exact (List.singleton_inj.mp (hkey.symm.trans heq)).symm

/-- A regular character is an upper-case form or the lower-case form of its upper-case form. -/
theorem eq_or_eq (h : Regular c) : c = upper c ∨ c = lower (upper c) := by
  rcases h.2 with heq | ⟨-, heq | heq⟩
  · exact .inl heq
  · rw [h.upper_upper] at heq
    exact .inl heq
  · exact .inr heq

/-- Regular characters are forms of each other exactly if they have the same upper-case form. -/
theorem charVariant_iff (hc : Regular c) (hd : Regular d) :
    CharVariant true c d ↔ upper d = upper c := by
  constructor
  · intro hvariant
    have hkey := hc.1 d hvariant
    rw [hd.1 d (charVariant_self true d)] at hkey
    exact List.singleton_inj.mp hkey
  · intro heq
    have hforms := hd.eq_or_eq
    rw [heq] at hforms
    rcases hforms with hupper | hlower
    · exact .inr ⟨rfl, .inl hupper⟩
    · rcases hc.eq_or_eq with hc' | hc'
      · rw [← hc'] at hlower
        exact .inr ⟨rfl, .inr hlower⟩
      · exact .inl (hlower.trans hc'.symm)

end Regular

/-! ### ASCII -/

theorem mapBy_cons_of_lt {s : CaseSpan} {spans : List CaseSpan} (h : ∀ t ∈ spans, c < t.first) :
    mapBy (s :: spans) c = if s.covers c then s.image c else c := by
  have hnone : spans.find? (·.covers c) = none := by
    rw [List.find?_eq_none]
    intro t ht
    have hlt := h t ht
    simp only [CaseSpan.covers, Bool.and_eq_true, decide_eq_true_eq]
    omega
  rw [mapBy, List.find?_cons, hnone]
  cases s.covers c <;> rfl

theorem upper_of_ascii (hc : c < 128) : upper c = if 97 ≤ c ∧ c ≤ 122 then c - 32 else c := by
  have htail : ∀ t ∈ upperSpans.tail, 128 ≤ t.first := by decide +kernel
  refine (mapBy_cons_of_lt fun t ht => Nat.lt_of_lt_of_le hc (htail t ht)).trans ?_
  simp only [CaseSpan.covers, CaseSpan.image, Nat.mod_one, Bool.and_eq_true, decide_eq_true_eq,
    beq_self_eq_true, and_true]
  split <;> omega

theorem lower_of_ascii (hc : c < 128) : lower c = if 65 ≤ c ∧ c ≤ 90 then c + 32 else c := by
  have htail : ∀ t ∈ lowerSpans.tail, 128 ≤ t.first := by decide +kernel
  refine (mapBy_cons_of_lt fun t ht => Nat.lt_of_lt_of_le hc (htail t ht)).trans ?_
  simp only [CaseSpan.covers, CaseSpan.image, Nat.mod_one, Bool.and_eq_true, decide_eq_true_eq,
    beq_self_eq_true, and_true]
  split <;> omega

theorem upperFull_of_ascii (hc : c < 128) : upperFull c = [upper c] := by
  have hkeys : ∀ e ∈ upperExpansions, 128 ≤ e.1 := by decide +kernel
  rcases upperFull_cases c with hmem | heq
  · exact absurd (hkeys _ hmem) (Nat.not_le.mpr hc)
  · exact heq

/-- Every ASCII character is regular. -/
theorem regular_of_ascii (hc : c < 128) : Regular c := by
  have hupper : upper c < 128 := by
    rw [upper_of_ascii hc]
    split <;> omega
  have hlower : lower c < 128 := by
    rw [lower_of_ascii hc]
    split <;> omega
  rw [regular_iff, upperFull_of_ascii hc, upperFull_of_ascii hupper, upperFull_of_ascii hlower,
    upper_of_ascii hupper, upper_of_ascii hlower, lower_of_ascii hupper, upper_of_ascii hc,
    lower_of_ascii hc]
  simp only [List.singleton_inj]
  refine ⟨⟨trivial, ?_, ?_⟩, ?_⟩ <;> split_ifs <;> omega

theorem flatMap_upperFull_of_regular (hu : ∀ c ∈ u, Regular c) :
    u.flatMap upperFull = u.map upper := by
  rw [List.map_eq_flatMap]
  exact List.flatMap_congr fun c hc => (hu c hc).1 c (charVariant_self true c)

/-- Of regular characters, those words have the same upper-case form whose characters are forms of
each other. -/
theorem flatMap_upperFull_eq_iff (hu : ∀ c ∈ u, Regular c) (hv : ∀ c ∈ v, Regular c) :
    v.flatMap upperFull = u.flatMap upperFull ↔ List.Forall₂ (CharVariant true) u v := by
  rw [flatMap_upperFull_of_regular hu, flatMap_upperFull_of_regular hv]
  induction u generalizing v with
  | nil => rw [List.map_nil, List.map_eq_nil_iff, List.forall₂_nil_left_iff]
  | cons c u ih =>
      rw [List.forall_mem_cons] at hu
      cases v with
      | nil => simp
      | cons d v =>
          rw [List.forall_mem_cons] at hv
          rw [List.map_cons, List.map_cons, List.cons_eq_cons, List.forall₂_cons, ih hu.2 hv.2,
            hu.1.charVariant_iff hv.1]

/-- For a character that is not regular, words with the same upper-case form need not be forms of
each other, or the other way round. -/
theorem exists_words_of_not_regular (hc : c.isValidChar) (h : ¬ Regular c) : ∃ u v : List Nat,
    (∀ d ∈ u ++ v, d.isValidChar) ∧ c ∈ u ++ v ∧
      ¬ (v.flatMap upperFull = u.flatMap upperFull ↔ List.Forall₂ (CharVariant true) u v) := by
  rcases upperFull_cases c with hmem | hkey
  · -- `c` and its expansion
    obtain ⟨hlength, hfull, hvalid⟩ := of_mem_upperExpansions hmem
    refine ⟨[c], upperFull c, ?_, List.mem_cons_self, fun hiff => ?_⟩
    · exact List.forall_mem_cons.mpr ⟨hc, hvalid⟩
    · have hforms := (hiff.mp (by rw [hfull, List.flatMap_singleton])).length_eq
      rw [List.length_singleton] at hforms
      omega
  · by_cases hall : ∀ d, CharVariant true c d → upperFull d = [upper c]
    · -- the upper-case form of `c`, of which `c` is no form
      have hupper : upperFull (upper c) = [upper c] :=
        hall _ (.inr ⟨rfl, .inl rfl⟩)
      refine ⟨[upper c], [c], ?_, by simp, fun hiff => ?_⟩
      · simpa using ⟨isValidChar_upper hc, hc⟩
      · have hforms := hiff.mp (by simp [hkey, hupper])
        rw [List.forall₂_cons] at hforms
        exact h ⟨hall, hforms.1⟩
    · -- a form of `c` with another upper-case form
      push Not at hall
      obtain ⟨d, hd, hne⟩ := hall
      refine ⟨[c], [d], ?_, List.mem_cons_self, fun hiff => hne ?_⟩
      · simpa using ⟨hc, isValidChar_of_charVariant hc hd⟩
      · have heq := hiff.mpr (.cons hd .nil)
        simpa [hkey] using heq

end Unicode

namespace LexicalState

open Unicode

variable {text image : String} {token : Nat}

/-- For every character that is not regular there are a literal and a text, one of them with that
character, such that the text has the upper-case form of the literal or matches it, but not both. -/
theorem exists_disagreement {c : Char} (h : ¬ Regular c.toNat) : ∃ image text : String,
    c ∈ image.toList ++ text.toList ∧ ¬ (upperText text = upperText image ↔
      List.Forall₂ (CharVariant true) (image.toList.map Char.toNat)
        (text.toList.map Char.toNat)) := by
  obtain ⟨u, v, hvalid, hmem, hiff⟩ := exists_words_of_not_regular c.valid h
  rw [List.forall_mem_append] at hvalid
  have hcodes : ∀ w : List Nat, (∀ d ∈ w, d.isValidChar) →
      (String.ofList (w.map Char.ofNat)).toList.map Char.toNat = w := by
    intro w hw
    rw [String.toList_ofList, List.map_map, map_toNat_ofNat hw]
  refine ⟨.ofList (u.map Char.ofNat), .ofList (v.map Char.ofNat), ?_, ?_⟩
  · rw [String.toList_ofList, String.toList_ofList, ← List.map_append]
    exact List.mem_map.mpr ⟨c.toNat, hmem, Char.ofNat_toNat c⟩
  · rwa [upperText_eq_iff, hcodes u hvalid.1, hcodes v hvalid.2]

/-- After a single claim, a text is looked up exactly if it has the key of the claimed image. -/
theorem lookupLiteral_claimLiteral_new {name : String} {isDefault : Bool} :
    ((new name isDefault).claimLiteral image token true).2.lookupLiteral text = some token ↔
      upperText text = upperText image := by
  have hexact : ((new name isDefault).claimLiteral image token true).2.literalOwner? text false =
      none := by
    rw [literalOwner?_claimLiteral, if_neg fun h => Bool.false_ne_true h.1, literalOwner?_new]
  have hfolded : ((new name isDefault).claimLiteral image token true).2.literalOwner? text true =
      if upperText text = upperText image then some token else none := by
    rw [literalOwner?_claimLiteral, literalOwner?_new, literalOwner?_new, Option.getD_none]
    simp only [literalKey, if_true, true_and]
  rw [lookupLiteral, hexact, hfolded]
  exact ite_eq_left_iff.trans (by simp)

/-- A literal whose case is ignored can be built. It is looked up by the texts with the same
upper-case form, and its automaton leads through with the texts whose characters are forms of its
own, one by one. -/
theorem exists_lookup_path {r : TokenRegistry} {d : TokenDefinition} {name : String}
    {isDefault : Bool} {initial : Nat} {a : Automaton} (hd : r.get? token = some d)
    (hp : d.pattern = .literal image) (hinitial : initial < a.size) :
    ∃ f a', Build.token r token true initial a = .ok f a' ∧
      (((new name isDefault).claimLiteral image token true).2.lookupLiteral text = some token ↔
        upperText text = upperText image) ∧
      (Path a'.moves f.entry (text.toList.map Char.toNat) f.exit ↔
        List.Forall₂ (CharVariant true) (image.toList.map Char.toNat)
          (text.toList.map Char.toNat)) := by
  have hconstructs : r.Constructs token := ⟨d, hd, hp ▸ .literal image⟩
  obtain ⟨f, a', hok⟩ : ∃ f a', Build.token r token true initial a = .ok f a' :=
    Build.exists_token_eq_ok hconstructs hinitial
  obtain ⟨d', hd', hinstalled⟩ := (Build.wp_token hinitial).of_ok hok
  obtain rfl := Option.some.inj (hd.symm.trans hd')
  refine ⟨f, a', hok, lookupLiteral_claimLiteral_new, ?_⟩
  rw [hinstalled.path_iff, hp, TokenRegistry.mem_language_literal]

/-- How a literal whose case is ignored is looked up and matched. Its automaton can be built and
leads through with the texts whose characters are forms of its own, one by one; it is looked up by
the texts with the same upper-case form. For texts of regular characters, such as those of ASCII,
this is the same; every other character occurs in a literal and a text for which it is not. -/
theorem lookupLiteral_iff_path (r : TokenRegistry) (token : Nat) (d : TokenDefinition)
    (image text : String) (name : String) (isDefault : Bool) (initial : Nat) (a : Automaton)
    (hd : r.get? token = some d) (hp : d.pattern = .literal image) (hinitial : initial < a.size) :
    (∃ f a', Build.token r token true initial a = .ok f a' ∧
      (((new name isDefault).claimLiteral image token true).2.lookupLiteral text = some token ↔
        upperText text = upperText image) ∧
      (Path a'.moves f.entry (text.toList.map Char.toNat) f.exit ↔
        List.Forall₂ (CharVariant true) (image.toList.map Char.toNat)
          (text.toList.map Char.toNat)) ∧
      ((∀ c ∈ image.toList ++ text.toList, Regular c.toNat) →
        (((new name isDefault).claimLiteral image token true).2.lookupLiteral text = some token ↔
          Path a'.moves f.entry (text.toList.map Char.toNat) f.exit))) ∧
    (∀ c < 128, Regular c) ∧
    ∀ c : Char, ¬ Regular c.toNat → ∃ image text : String, c ∈ image.toList ++ text.toList ∧
      ∀ (r : TokenRegistry) (d : TokenDefinition), r.get? token = some d →
        d.pattern = .literal image → ∃ f a', Build.token r token true initial a = .ok f a' ∧
          ¬ (((new name isDefault).claimLiteral image token true).2.lookupLiteral text =
            some token ↔ Path a'.moves f.entry (text.toList.map Char.toNat) f.exit) := by
  refine ⟨?_, fun c => regular_of_ascii, fun c hc => ?_⟩
  · obtain ⟨f, a', hok, hlookup, hpath⟩ := exists_lookup_path hd hp hinitial
    refine ⟨f, a', hok, hlookup, hpath, fun hregular => ?_⟩
    have hcodes : ∀ l : List Char, (∀ c ∈ l, Regular c.toNat) →
        ∀ n ∈ l.map Char.toNat, Regular n := fun l hl => List.forall_mem_map.mpr hl
    rw [List.forall_mem_append] at hregular
    rw [hlookup, hpath, upperText_eq_iff]
    exact flatMap_upperFull_eq_iff (hcodes _ hregular.1) (hcodes _ hregular.2)
  · obtain ⟨image, text, hmem, hdisagree⟩ := exists_disagreement hc
    refine ⟨image, text, hmem, fun r d hd hp => ?_⟩
    obtain ⟨f, a', hok, hlookup, hpath⟩ := exists_lookup_path hd hp hinitial
    refine ⟨f, a', hok, ?_⟩
    rwa [hlookup, hpath]

/-- The literal `ß` is looked up by `SS`, which it does not match; the Kelvin sign matches `k`, by
which it is not looked up. -/
theorem lookupLiteral_iff_path_irregular : ∃ (r : TokenRegistry) (f₁ f₂ : Fragment)
    (a₁ a₂ : Automaton), Build.token r 1 true 0 (Automaton.addState {} none) = .ok f₁ a₁ ∧
      Build.token r 2 true 0 (Automaton.addState {} none) = .ok f₂ a₂ ∧
        ((new "DEFAULT" true).claimLiteral "ß" 1 true).2.lookupLiteral "SS" = some 1 ∧
          ¬ Path a₁.moves f₁.entry ("SS".toList.map Char.toNat) f₁.exit ∧
            ((new "DEFAULT" true).claimLiteral "\u212a" 2 true).2.lookupLiteral "k" ≠ some 2 ∧
              Path a₂.moves f₂.entry ("k".toList.map Char.toNat) f₂.exit := by
  let r := (TokenRegistry.new.register (.ofLiteral "ß")).register (.ofLiteral "\u212a")
  obtain ⟨⟨f₁, a₁, hok₁, hlookup₁, hpath₁, -⟩, -⟩ :=
    lookupLiteral_iff_path r 1 _ "ß" "SS" "DEFAULT" true 0
      (Automaton.addState {} none) rfl rfl Nat.one_pos
  obtain ⟨⟨f₂, a₂, hok₂, hlookup₂, hpath₂, -⟩, -⟩ :=
    lookupLiteral_iff_path r 2 _ "\u212a" "k" "DEFAULT" true 0
      (Automaton.addState {} none) rfl rfl Nat.one_pos
  refine ⟨r, f₁, f₂, a₁, a₂, hok₁, hok₂, hlookup₁.mpr (by decide +kernel), fun hpath => ?_,
    fun hlookup => ?_, hpath₂.mpr (.cons (.inr ⟨rfl, .inr (by decide +kernel)⟩) .nil)⟩
  · exact absurd (hpath₁.mp hpath).length_eq (by decide)
  · exact absurd (hlookup₂.mp hlookup) (by decide +kernel)

end LexicalState

end ScannerTables
