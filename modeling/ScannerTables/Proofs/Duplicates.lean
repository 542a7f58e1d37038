import Mathlib
import ScannerTables.Proofs.Declarations
import ScannerTables.Scan.Scanner
/-!
# Duplicate literals

Of the literals with one key a lexical state builds only the owner, so what becomes of a literal is
decided by the definition that owns it. A declared literal is matched if its owners stand for it:
they may be neither private nor overridden, and where case is ignored their characters must have
those of the literal among their variants, which equal keys do not guarantee, as keys are
upper-cased by mappings that may change the length. Otherwise it is lost, unless another token
recognizes it.
-/

namespace ScannerTables

open Checked

/-- A scanner that matches a text matches all of it: the match takes no fewer bytes. -/
def Scanner.MatchesWhole (sc : Scanner) (text : String) : Prop :=
  ∃ m, sc.longestMatch text.toList = some m ∧
    text.utf8ByteSize ≤ m.length

namespace LexicalState

variable {s s' : LexicalState} {r : TokenRegistry} {config : Config} {text : String}

/-- After the first processing, a text is matched as a whole if a built token recognizes it. -/
theorem matchesWhole_iff (hs : s.Unbuilt) (h : process r config s = .ok () s') (hne : text ≠ "") :
    s'.scanner.MatchesWhole text ↔ ∃ token, s.Recognizes r config token text.toList := by
  have hsize : text.utf8ByteSize = byteLength text.toList := by
    rw [byteLength_eq, String.ofList_toList]
  constructor
  · rintro ⟨m, hm, hbytes⟩
    obtain ⟨pre, ⟨rest, hpre⟩, -, hlength, hrec, -⟩ := of_longestMatch_eq_some hs h hm
    have hrest : rest = [] := by
      by_contra hne
      have hpos := byteLength_pos hne
      rw [hlength, hsize, ← hpre, byteLength_append] at hbytes
      omega
    rw [hrest, List.append_nil] at hpre
    exact ⟨m.token, hpre ▸ hrec⟩
  · rintro ⟨token, hrec⟩
    cases hm : s'.scanner.longestMatch text.toList with
    | none =>
        refine absurd hrec ((longestMatch_eq_none_iff hs h).mp hm _ token (List.prefix_refl _) ?_)
        exact fun hnil => hne (String.toList_eq_nil_iff.mp hnil)
    | some m =>
        obtain ⟨pre, -, -, hlength, -, -, hlongest⟩ := of_longestMatch_eq_some hs h hm
        obtain ⟨rest, hrest⟩ := hlongest _ token (List.prefix_refl _) hrec
        refine ⟨m, hm, ?_⟩
        rw [hlength, hsize, ← hrest, byteLength_append]
        exact Nat.le_add_right _ _

end LexicalState

namespace Lexer

variable {lx lx' : Lexer} {i : Nat} {s : LexicalState} {image : String}

/-- The images that declarations give to a lexical state: those of literals that a production lists
for it, unless they are private or overridden, and those of implicit literals. -/
inductive Gives (commands : List Command) (lx : Lexer) (i : Nat) (s : LexicalState)
    (image : String) : Prop
  | listed {p : TokenProduction} {spec : TokenSpec} {d : TokenDefinition}
      (hp : .addTokenProduction p ∈ commands) (hs : Concerns p i s) (hspec : spec ∈ p.specs)
      (hd : lx.registry.get? spec.token = some d) (hbuild : d.isBuildable = true)
      (himage : d.pattern = .literal image) : Gives commands lx i s image
  | implicit (h : .addImplicitLiteral s.name image ∈ commands) : Gives commands lx i s image

theorem Declared.exists_owner {commands : List Command} (h : Declared commands lx)
    (hs : lx.states[i]? = some s) (hg : Gives commands lx i s image) :
    ∃ ignoreCase owner, s.literalOwner? image ignoreCase = some owner := by
  cases hg with
  | @listed p spec d hp hc hspec hd _ himage =>
      have hlists : s.Lists lx.config d spec.token
          (d.ignoreCaseOr (p.ignoreCase || lx.config.ignoreCase)) :=
        ⟨p, h.mem_productions hp hs hc, List.mem_map_of_mem hspec, rfl⟩
      exact ⟨_, (h.registered i s hs).2.exists_owner hlists hd himage⟩
  | implicit himplicit => exact h.exists_owner_of_implicit himplicit hs

/-- A declared literal has owners, and after a build the scanner of its lexical state matches it as
a whole if and only if one of them carries it or a token that is no owner recognizes it. In
particular it is matched if all its owners stand for it. -/
theorem matchesWhole_iff_carries (commands : List Command) (lx lx' : Lexer) (i : Nat)
    (s : LexicalState) (image : String) (h : Declared commands lx) (hbuild : build lx = .ok () lx')
    (hs : lx.states[i]? = some s) (hne : image ≠ "") (hg : Gives commands lx i s image) :
    (∃ ignoreCase owner, s.literalOwner? image ignoreCase = some owner) ∧
      ∃ s', lx'.states[i]? = some s' ∧
        (s'.scanner.MatchesWhole image ↔
          (∃ owner ignoreCase, s.Carries lx.registry lx.config owner ignoreCase image) ∨
            ∃ token, (∀ ignoreCase, s.literalOwner? image ignoreCase ≠ some token) ∧
              s.Recognizes lx.registry lx.config token image.toList) ∧
        ((∀ ignoreCase owner, s.literalOwner? image ignoreCase = some owner →
          LexicalState.StandsFor lx.registry owner ignoreCase image) →
            s'.scanner.MatchesWhole image) := by
  obtain ⟨hunbuilt, hregistered⟩ := h.registered i s hs
  obtain ⟨s', hs', hprocess⟩ := exists_process_of_build hbuild hs
  obtain ⟨ignoreCase, owner, ho⟩ := h.exists_owner hs hg
  have hmatch := LexicalState.matchesWhole_iff hunbuilt hprocess hne
  refine ⟨⟨ignoreCase, owner, ho⟩, s', hs', ?_, ?_⟩
  · rw [hmatch]
    constructor
    · rintro ⟨token, hrec⟩
      by_cases howner : ∃ ignoreCase, s.literalOwner? image ignoreCase = some token
      · obtain ⟨ignoreCase, ho⟩ := howner
        exact .inl ⟨token, hregistered.carries_of_recognizes ho hrec⟩
      · exact .inr ⟨token, fun ignoreCase ho => howner ⟨ignoreCase, ho⟩, hrec⟩
    · rintro (⟨owner, ignoreCase, hcarries⟩ | ⟨token, -, hrec⟩)
      · exact ⟨owner, hregistered.recognizes_of_carries hcarries⟩
      · exact ⟨token, hrec⟩
  · intro hall
    obtain ⟨owner, ignoreCase, hcarries⟩ := hregistered.exists_carries ho hall
    exact hmatch.mpr ⟨owner, hregistered.recognizes_of_carries hcarries⟩

/-- Two tokens with one literal: the second is skipped, and the first stands for it. -/
theorem matchesWhole_iff_carries_duplicate : ∃ (commands : List Command) (lx lx' : Lexer)
    (s s' : LexicalState), Declared commands lx ∧ build lx = .ok () lx' ∧ lx.states[0]? = some s ∧
      lx'.states[0]? = some s' ∧ Gives commands lx 0 s "+" ∧ s.literalOwner? "+" false = some 1 ∧
        s'.scanner.MatchesWhole "+" := by
  let plus : Command := .addDefinition (.ofLiteral "+")
  let p : TokenProduction := { specs := [{ token := 1 }, { token := 2 }] }
  let lx := (Command.addTokenProduction p).run (plus.run (plus.run (new {})))
  have h : Declared ([] ++ [plus] ++ [plus] ++ [.addTokenProduction p]) lx :=
    (((Declared.new {}).run plus rfl).run plus rfl).run _ (by cbv)
  obtain ⟨hsucceeds, hexact, hfolded⟩ : succeeds build lx = true ∧
      lx.states[0]?.map (·.literalOwner? "+" false) = some (some 1) ∧
      lx.states[0]?.map (·.literalOwner? "+" true) = some none := by
    dsimp only [lx, p, plus]
    cbv
  obtain ⟨⟨⟩, lx', hbuild⟩ := exists_of_succeeds hsucceeds
  obtain ⟨s, hs⟩ : ∃ s, lx.states[0]? = some s := ⟨_, rfl⟩
  rw [hs] at hexact hfolded
  replace hexact := Option.some.inj hexact
  replace hfolded := Option.some.inj hfolded
  have hg : Gives ([] ++ [plus] ++ [plus] ++ [.addTokenProduction p]) lx 0 s "+" := by
    refine .listed (p := p) (List.mem_append_right _ (List.mem_singleton_self _)) (.inr ⟨rfl, rfl⟩)
      (List.mem_cons_of_mem _ (List.mem_singleton_self _)) rfl rfl rfl
  obtain ⟨-, s', hs', -, hmatch⟩ :=
    matchesWhole_iff_carries _ lx lx' 0 s "+" h hbuild hs (by decide) hg
  refine ⟨_, lx, lx', s, s', h, hbuild, hs, hs', hg, hexact, hmatch ?_⟩
  intro ignoreCase owner ho
  cases ignoreCase with
  | true => exact absurd (hfolded.symm.trans ho) (by simp)
  | false =>
      obtain rfl := Option.some.inj (hexact.symm.trans ho)
      exact ⟨_, "+", rfl, rfl, rfl, .cons (.inl rfl) .nil⟩

/-- Where case is ignored, `ß` owns the key of `SS` but does not stand for it: `SS` is lost. -/
example :
    let lx := [Command.addDefinition (.ofLiteral "ß"), .addDefinition (.ofLiteral "SS"),
      .addTokenProduction { ignoreCase := true, specs := [{ token := 1 }, { token := 2 }] },
      .build].foldl Command.run (new {})
    lx.states[0]?.map (·.scanner.longestMatch "SS".toList) = some none := by cbv

end Lexer

end ScannerTables
