import ScannerTables.LexicalState.Plan
import ScannerTables.Proofs.Assembly
import ScannerTables.Token.Registry
/-!
# Which tokens a lexical state builds

The plan of a lexical state is computed step by step; here is what it amounts to. A token is built
for itself if it is a literal that no production lists, and for each production that lists it unless
it is private or its image belongs to another token. Overridden tokens are never built.
-/

namespace ScannerTables

theorem TokenDefinition.image?_eq_some {d : TokenDefinition} {image : String} :
    d.image? = some image ↔ d.pattern = .literal image := by
  rw [image?]
  cases d.pattern <;> simp [Pattern.literalText?]

theorem TokenDefinition.isBuildable_iff {d : TokenDefinition} :
    d.isBuildable = true ↔ d.isPrivate = false ∧ d.overridden = false := by
  rw [isBuildable, Bool.and_eq_true, Bool.not_eq_true', Bool.not_eq_true']

namespace LexicalState

variable {s : LexicalState} {r : TokenRegistry} {config : Config} {token : Nat} {ignoreCase : Bool}

/-! ### What declarations change -/

/-- Claiming a literal changes the claims alone. -/
theorem claimLiteral_eq (s : LexicalState) (image : String) (token : Nat) (ignoreCase : Bool) :
    ∃ exact folded, (s.claimLiteral image token ignoreCase).2 =
      { s with exactLiterals := exact, foldedLiterals := folded } := by
  rw [claimLiteral]
  split
  · exact ⟨s.exactLiterals, _, rfl⟩
  · exact ⟨_, s.foldedLiterals, rfl⟩

theorem addImplicitLiteral_eq (s : LexicalState) (token : Nat) :
    ∃ tokens, s.addImplicitLiteral token = { s with implicitLiterals := tokens } := by
  rw [addImplicitLiteral]
  split
  · exact ⟨s.implicitLiterals, rfl⟩
  · exact ⟨_, rfl⟩

/-! ### Built tokens -/

/-- A literal that no production lists is built as the configuration treats case, unless it says
otherwise itself. -/
def BuildsImplicit (s : LexicalState) (config : Config) (d : TokenDefinition) (token : Nat)
    (ignoreCase : Bool) : Prop :=
  token ∈ s.implicitLiterals ∧ (∀ p ∈ s.productions, token ∉ p.tokens) ∧
    ignoreCase = d.ignoreCaseOr config.ignoreCase

/-- A token that is not private is built for each production that lists it, unless it is a literal
whose image belongs to another token. -/
def BuildsListed (s : LexicalState) (config : Config) (d : TokenDefinition) (token : Nat)
    (ignoreCase : Bool) : Prop :=
  d.isPrivate = false ∧
    (∃ p ∈ s.productions, token ∈ p.tokens ∧
      ignoreCase = d.ignoreCaseOr (p.ignoreCase || config.ignoreCase)) ∧
    ∀ image owner, d.pattern = .literal image → s.literalOwner? image ignoreCase = some owner →
      owner = token

/-- The tokens that a lexical state builds, with whether case is ignored. -/
def Builds (s : LexicalState) (r : TokenRegistry) (config : Config) (token : Nat)
    (ignoreCase : Bool) : Prop :=
  ∃ d, r.get? token = some d ∧ d.overridden = false ∧
    (s.BuildsImplicit config d token ignoreCase ∨ s.BuildsListed config d token ignoreCase)

/-- The texts that some built token matches, with the token. -/
def Recognizes (s : LexicalState) (r : TokenRegistry) (config : Config) (token : Nat)
    (text : List Char) : Prop :=
  ∃ ignoreCase d, s.Builds r config token ignoreCase ∧ r.get? token = some d ∧
    r.Matches ignoreCase d.pattern (text.map Char.toNat)

theorem mem_declared : token ∈ s.declared ↔ ∃ p ∈ s.productions, token ∈ p.tokens := by
  rw [declared, IntervalSet.mem_ofList, List.mem_flatMap]

theorem isDisowned_eq_false {d : TokenDefinition} :
    s.isDisowned d token ignoreCase = false ↔ ∀ image owner, d.pattern = .literal image →
      s.literalOwner? image ignoreCase = some owner → owner = token := by
  rw [isDisowned, Option.any_eq_false]
  simp only [TokenDefinition.image?_eq_some, Option.any_eq_false, decide_eq_false_iff_not, not_not]
  constructor
  · exact fun h image owner hd ho => h image hd owner ho
  · exact fun h image hd owner ho => h image owner hd ho

theorem token?_implicitStep {t : Nat} :
    (s.implicitStep? r config t).bind BuildStep.token? = some (token, ignoreCase) ↔
      t = token ∧ ∃ d, r.get? token = some d ∧ d.overridden = false ∧ token ∉ s.declared ∧
        ignoreCase = d.ignoreCaseOr config.ignoreCase := by
  rw [implicitStep?]
  constructor
  · intro h
    split at h
    · exact absurd h (by simp)
    · next hdeclared =>
      split at h
      · exact absurd h (by simp [BuildStep.token?])
      · next d hd =>
        split at h
        · exact absurd h (by simp)
        · next hover =>
          obtain ⟨rfl, rfl⟩ := Prod.mk.inj (Option.some.inj h)
          exact ⟨rfl, d, hd, Bool.eq_false_iff.mpr hover, hdeclared, rfl⟩
  · rintro ⟨rfl, d, hd, hover, hdeclared, rfl⟩
    simp [hdeclared, hd, hover, BuildStep.token?]

theorem token?_specStep {inherited : Bool} {spec : TokenSpec} :
    (s.specStep? r inherited spec).bind BuildStep.token? = some (token, ignoreCase) ↔
      spec.token = token ∧ ∃ d, r.get? token = some d ∧ d.overridden = false ∧
        d.isPrivate = false ∧ ignoreCase = d.ignoreCaseOr inherited ∧
          s.isDisowned d token ignoreCase = false := by
  rw [specStep?]
  constructor
  · intro h
    split at h
    · exact absurd h (by simp [BuildStep.token?])
    · next d hd =>
      dsimp only at h
      split at h
      · exact absurd h (by simp)
      · next hbuild =>
        obtain ⟨rfl, rfl⟩ := Prod.mk.inj (Option.some.inj h)
        simp only [Bool.or_eq_true, Bool.not_eq_true', not_or, Bool.not_eq_false,
          TokenDefinition.isBuildable_iff, Bool.not_eq_true] at hbuild
        exact ⟨rfl, d, hd, hbuild.1.2, hbuild.1.1, rfl, hbuild.2⟩
  · rintro ⟨rfl, d, hd, hover, hprivate, rfl, hdisowned⟩
    simp [hd, hover, hprivate, hdisowned, TokenDefinition.isBuildable, BuildStep.token?]

/-- The plan has a step for exactly the tokens that the lexical state builds. -/
theorem mem_plan_iff : (token, ignoreCase) ∈ (s.plan r config).filterMap BuildStep.token? ↔
    s.Builds r config token ignoreCase := by
  have himplicit : (token, ignoreCase) ∈
      (s.implicitLiterals.filterMap (s.implicitStep? r config)).filterMap BuildStep.token? ↔
        ∃ d, r.get? token = some d ∧ d.overridden = false ∧
          s.BuildsImplicit config d token ignoreCase := by
    simp only [List.filterMap_filterMap, List.mem_filterMap, token?_implicitStep, BuildsImplicit,
      mem_declared]
    constructor
    · rintro ⟨_, hmem, rfl, d, hd, hover, hdeclared, rfl⟩
      exact ⟨d, hd, hover, hmem, fun p hp ht => hdeclared ⟨p, hp, ht⟩, rfl⟩
    · rintro ⟨d, hd, hover, hmem, hdeclared, rfl⟩
      exact ⟨_, hmem, rfl, d, hd, hover, fun ⟨p, hp, ht⟩ => hdeclared p hp ht, rfl⟩
  have hlisted : (token, ignoreCase) ∈
      (s.productions.flatMap (s.productionSteps r config)).filterMap BuildStep.token? ↔
        ∃ d, r.get? token = some d ∧ d.overridden = false ∧
          s.BuildsListed config d token ignoreCase := by
    simp only [List.filterMap_flatMap, productionSteps, List.filterMap_filterMap, List.mem_flatMap,
      List.mem_filterMap, token?_specStep, BuildsListed, ← isDisowned_eq_false,
      TokenProduction.tokens, List.mem_map]
    constructor
    · rintro ⟨p, hp, spec, hspec, rfl, d, hd, hover, hprivate, heq, hdisowned⟩
      exact ⟨d, hd, hover, hprivate, ⟨p, hp, ⟨spec, hspec, rfl⟩, heq⟩, hdisowned⟩
    · rintro ⟨d, hd, hover, hprivate, ⟨p, hp, ⟨spec, hspec, rfl⟩, heq⟩, hdisowned⟩
      exact ⟨p, hp, spec, hspec, rfl, d, hd, hover, hprivate, heq, hdisowned⟩
  rw [plan, List.filterMap_append, List.mem_append, himplicit, hlisted, Builds]
  simp only [and_or_left, exists_or]

theorem matching_plan_iff {text : List Char} :
    Matching r ((s.plan r config).filterMap BuildStep.token?) token (text.map Char.toNat) ↔
      s.Recognizes r config token text := by
  simp only [Matching, Recognizes, mem_plan_iff]

end LexicalState

end ScannerTables
