import Mathlib.Data.List.Forall2
import ScannerTables.Lexer.Basic
import ScannerTables.Proofs.Plan
/-!
# Literals and their owners

A literal is known by its image, or by its upper-cased image where case is ignored, and belongs to
the token that claimed it first. Claims are made when a literal is declared, while private and
overridden definitions are left out when the lexical state is built, so an owner need not be built
itself. `Registered` is what declarations keep: owners are literals with the key that they own, each
is listed by a production or is an implicit literal, and every literal that is listed has an owner.
From this follows through which of its owners an image is recognized.
-/

namespace ScannerTables

namespace Claims

variable {c : Claims} {name : String} {token token' : Nat}

theorem isSome_owner?_claim : ((c.claim name token).owner? name).isSome := by
  rw [owner?_claim, if_pos rfl]
  rfl

/-- The second claim of a name changes nothing. -/
theorem claim_claim : (c.claim name token).claim name token' = c.claim name token := by
  rw [claim, if_pos isSome_owner?_claim]

end Claims

/-! ### Registries -/

/-- Definitions stay under their ordinals and keep what decides about literals. -/
def TokenRegistry.Keeps (r r' : TokenRegistry) : Prop :=
  ∀ token d, r.get? token = some d → ∃ d', r'.get? token = some d' ∧ d'.pattern = d.pattern ∧
    d'.ignoreCase = d.ignoreCase ∧ d'.isPrivate = d.isPrivate

namespace TokenRegistry

variable {r : TokenRegistry} {d : TokenDefinition} {token : Nat}

theorem keeps_register : r.Keeps (r.register d) := by
  intro token d' hd'
  obtain ⟨hlt, rfl⟩ := Array.getElem?_eq_some_iff.mp hd'
  exact ⟨_, Array.getElem?_push_lt hlt, rfl, rfl, rfl⟩

theorem get?_register_size : (r.register d).get? r.size = some { d with ordinal := r.size } :=
  Array.getElem?_push_size

theorem keeps_modify {f : TokenDefinition → TokenDefinition}
    (hpattern : ∀ d, (f d).pattern = d.pattern) (hignore : ∀ d, (f d).ignoreCase = d.ignoreCase)
    (hprivate : ∀ d, (f d).isPrivate = d.isPrivate) :
    r.Keeps (r.modify token f) := by
  intro token' d hd
  rw [get?] at hd
  rw [get?, modify, Array.getElem?_modify, hd]
  split
  · exact ⟨f d, rfl, hpattern d, hignore d, hprivate d⟩
  · exact ⟨d, rfl, rfl, rfl, rfl⟩

end TokenRegistry

namespace LexicalState

open Unicode

variable {s s' t : LexicalState} {r r' : TokenRegistry} {config : Config} {image text : String}
variable {token owner : Nat} {ignoreCase inherited : Bool} {p : TokenProduction}

/-! ### Claims -/

/-- What a literal is known by among those with the same treatment of case. -/
def literalKey (ignoreCase : Bool) (image : String) : String :=
  if ignoreCase then upperText image else image

theorem lookupLiteral_eq_or : s.lookupLiteral image =
    (s.literalOwner? image false).or (s.literalOwner? image true) :=
  Option.orElse_eq_or

theorem literalOwner?_claimLiteral {image' : String} {ignoreCase' : Bool} :
    (s.claimLiteral image token ignoreCase).2.literalOwner? image' ignoreCase' =
      if ignoreCase' = ignoreCase ∧ literalKey ignoreCase image' = literalKey ignoreCase image then
        some ((s.literalOwner? image ignoreCase).getD token)
      else s.literalOwner? image' ignoreCase' := by
  cases ignoreCase <;> cases ignoreCase' <;>
    simp [claimLiteral, literalOwner?, literalKey, Claims.owner?_claim, Claims.ownerAfter]

theorem literalOwner?_congr (h : literalKey ignoreCase text = literalKey ignoreCase image) :
    s.literalOwner? text ignoreCase = s.literalOwner? image ignoreCase := by
  cases ignoreCase <;> simp_all [literalOwner?, literalKey]

theorem claimLiteral_claimLiteral :
    ((s.claimLiteral image token ignoreCase).2.claimLiteral image token ignoreCase).2 =
      (s.claimLiteral image token ignoreCase).2 := by
  cases ignoreCase <;> simp [claimLiteral, Claims.claim_claim]

/-- The claims of the literals of some entries, made one after the other. -/
structure Claimed (s s' : LexicalState) (r : TokenRegistry) (inherited : Bool)
    (specs : List TokenSpec) : Prop where
  rest : ∃ exact folded, s' = { s with exactLiterals := exact, foldedLiterals := folded }
  keeps : ∀ image ignoreCase owner, s.literalOwner? image ignoreCase = some owner →
    s'.literalOwner? image ignoreCase = some owner
  owner : ∀ image ignoreCase owner, s'.literalOwner? image ignoreCase = some owner →
    s.literalOwner? image ignoreCase = some owner ∨ ∃ spec ∈ specs, spec.token = owner ∧
      ∃ d text, r.get? owner = some d ∧ d.pattern = .literal text ∧
        ignoreCase = d.ignoreCaseOr inherited ∧
          literalKey ignoreCase text = literalKey ignoreCase image
  claimed : ∀ spec ∈ specs, ∃ d, r.get? spec.token = some d ∧ ∀ text, d.pattern = .literal text →
    (s'.literalOwner? text (d.ignoreCaseOr inherited)).isSome

/-- An owner stays when another image is claimed, or its own once more. -/
theorem literalOwner?_claimLiteral_of_some {image' : String} {ignoreCase' : Bool}
    (h : s.literalOwner? image' ignoreCase' = some owner) :
    (s.claimLiteral image token ignoreCase).2.literalOwner? image' ignoreCase' = some owner := by
  rw [literalOwner?_claimLiteral]
  split
  · next heq =>
    obtain ⟨rfl, hkey⟩ := heq
    rw [← literalOwner?_congr hkey, h, Option.getD_some]
  · exact h

theorem of_literalOwner?_claimLiteral {image' : String} {ignoreCase' : Bool}
    (h : (s.claimLiteral image token ignoreCase).2.literalOwner? image' ignoreCase' = some owner) :
    s.literalOwner? image' ignoreCase' = some owner ∨ owner = token ∧ ignoreCase' = ignoreCase ∧
      literalKey ignoreCase image = literalKey ignoreCase image' := by
  rw [literalOwner?_claimLiteral] at h
  split at h
  · next heq =>
    obtain ⟨rfl, hkey⟩ := heq
    cases ho : s.literalOwner? image ignoreCase' with
    | none =>
        rw [ho] at h
        exact .inr ⟨(Option.some.inj h).symm, rfl, hkey.symm⟩
    | some o =>
        rw [ho] at h
        exact .inl (by rw [literalOwner?_congr hkey, ho, ← h, Option.getD_some])
  · exact .inl h

theorem isSome_literalOwner?_claimLiteral :
    ((s.claimLiteral image token ignoreCase).2.literalOwner? image ignoreCase).isSome := by
  rw [literalOwner?_claimLiteral, if_pos ⟨rfl, rfl⟩]
  rfl

namespace Claimed

theorem nil : s.Claimed s r inherited [] :=
  ⟨⟨_, _, rfl⟩, fun _ _ _ => id, fun _ _ _ => .inl, fun _ h => absurd h List.not_mem_nil⟩

theorem of_claimLiteral {spec : TokenSpec} {d : TokenDefinition} (hd : r.get? spec.token = some d)
    (htext : d.pattern = .literal text) :
    s.Claimed (s.claimLiteral text spec.token (d.ignoreCaseOr inherited)).2 r inherited [spec] where
  rest := s.claimLiteral_eq _ _ _
  keeps _ _ _ := literalOwner?_claimLiteral_of_some
  owner image ignoreCase owner ho := by
    refine (of_literalOwner?_claimLiteral ho).imp_right ?_
    rintro ⟨rfl, rfl, hkey⟩
    exact ⟨spec, List.mem_singleton_self _, rfl, d, text, hd, htext, rfl, hkey⟩
  claimed spec' hspec' := by
    obtain rfl := List.mem_singleton.mp hspec'
    refine ⟨d, hd, ?_⟩
    intro text' htext'
    obtain rfl := Pattern.literal.inj (htext.symm.trans htext')
    exact isSome_literalOwner?_claimLiteral

theorem of_ne_literal {spec : TokenSpec} {d : TokenDefinition} (hd : r.get? spec.token = some d)
    (hne : ∀ text, d.pattern ≠ .literal text) : s.Claimed s r inherited [spec] where
  rest := ⟨_, _, rfl⟩
  keeps _ _ _ := id
  owner _ _ _ := .inl
  claimed spec' hspec' := by
    obtain rfl := List.mem_singleton.mp hspec'
    exact ⟨d, hd, fun text htext => absurd htext (hne text)⟩

theorem cons {spec : TokenSpec} {specs : List TokenSpec} (h : s.Claimed t r inherited [spec])
    (h' : t.Claimed s' r inherited specs) : s.Claimed s' r inherited (spec :: specs) where
  rest := by
    obtain ⟨_, _, rfl⟩ := h.rest
    obtain ⟨exact, folded, rfl⟩ := h'.rest
    exact ⟨exact, folded, rfl⟩
  keeps image ignoreCase owner ho := h'.keeps _ _ _ (h.keeps _ _ _ ho)
  owner image ignoreCase owner ho := by
    rcases h'.owner _ _ _ ho with ho | ⟨spec', hspec', hown⟩
    · refine (h.owner _ _ _ ho).imp_right ?_
      rintro ⟨spec', hspec', hown⟩
      obtain rfl := List.mem_singleton.mp hspec'
      exact ⟨spec', List.mem_cons_self, hown⟩
    · exact .inr ⟨spec', List.mem_cons_of_mem _ hspec', hown⟩
  claimed spec' hspec' := by
    rcases List.mem_cons.mp hspec' with rfl | hspec'
    · obtain ⟨d, hd, hclaimed⟩ := h.claimed _ (List.mem_singleton_self _)
      refine ⟨d, hd, ?_⟩
      intro text htext
      obtain ⟨owner, ho⟩ := Option.isSome_iff_exists.mp (hclaimed text htext)
      exact Option.isSome_of_eq_some (h'.keeps _ _ _ ho)
    · exact h'.claimed spec' hspec'

end Claimed

/-! ### What declarations keep -/

/-- A production lists a token, which it makes treat case in some way. -/
def Lists (s : LexicalState) (config : Config) (d : TokenDefinition) (token : Nat)
    (ignoreCase : Bool) : Prop :=
  ∃ p ∈ s.productions, token ∈ p.tokens ∧
    ignoreCase = d.ignoreCaseOr (p.ignoreCase || config.ignoreCase)

/-- Owners are literals with the key that they own, each listed by a production or implicit;
implicit literals are public and inherit how case is treated; literals that are listed have owners.
-/
structure Registered (s : LexicalState) (r : TokenRegistry) (config : Config) : Prop where
  owner : ∀ image ignoreCase owner, s.literalOwner? image ignoreCase = some owner →
    ∃ d text, r.get? owner = some d ∧ d.pattern = .literal text ∧
      literalKey ignoreCase text = literalKey ignoreCase image ∧
        (s.Lists config d owner ignoreCase ∨
          owner ∈ s.implicitLiterals ∧ ignoreCase = config.ignoreCase)
  implicit : ∀ token ∈ s.implicitLiterals, ∃ d, r.get? token = some d ∧ d.ignoreCase = none ∧
    d.isPrivate = false
  listed : ∀ p ∈ s.productions, ∀ spec ∈ p.specs, ∃ d, r.get? spec.token = some d ∧
    ∀ text, d.pattern = .literal text →
      (s.literalOwner? text (d.ignoreCaseOr (p.ignoreCase || config.ignoreCase))).isSome

theorem literalOwner?_new (name : String) (isDefault : Bool) :
    (new name isDefault).literalOwner? image ignoreCase = none := by
  cases ignoreCase <;> rfl

theorem literalOwner?_addImplicitLiteral :
    (s.addImplicitLiteral token).literalOwner? image ignoreCase =
      s.literalOwner? image ignoreCase := by
  obtain ⟨tokens, heq⟩ := s.addImplicitLiteral_eq token
  rw [heq, literalOwner?, literalOwner?]

theorem productions_addImplicitLiteral :
    (s.addImplicitLiteral token).productions = s.productions := by
  obtain ⟨tokens, heq⟩ := s.addImplicitLiteral_eq token
  rw [heq]

theorem mem_implicitLiterals_addImplicitLiteral {token' : Nat} :
    token' ∈ (s.addImplicitLiteral token).implicitLiterals ↔
      token' ∈ s.implicitLiterals ∨ token' = token := by
  rw [addImplicitLiteral]
  split
  · next h => exact ⟨.inl, fun h' => h'.elim id fun heq => heq ▸ h⟩
  · rw [List.mem_append, List.mem_singleton]

namespace Registered

theorem new (name : String) (isDefault : Bool) : (new name isDefault).Registered r config where
  owner image ignoreCase owner ho := absurd ho (by simp [literalOwner?_new])
  implicit _ h := absurd h List.not_mem_nil
  listed _ h := absurd h List.not_mem_nil

theorem keeps (h : s.Registered r config) (hr : r.Keeps r') : s.Registered r' config where
  owner image ignoreCase owner ho := by
    obtain ⟨d, text, hd, htext, hkey, hlists⟩ := h.owner image ignoreCase owner ho
    obtain ⟨d', hd', hpattern, hignore, -⟩ := hr owner d hd
    refine ⟨d', text, hd', hpattern.trans htext, hkey, ?_⟩
    simpa only [Lists, TokenDefinition.ignoreCaseOr, hignore] using hlists
  implicit token htoken := by
    obtain ⟨d, hd, hnone, hpublic⟩ := h.implicit token htoken
    obtain ⟨d', hd', -, hignore, hprivate⟩ := hr token d hd
    exact ⟨d', hd', hignore.trans hnone, hprivate.trans hpublic⟩
  listed p hp spec hspec := by
    obtain ⟨d, hd, howner⟩ := h.listed p hp spec hspec
    obtain ⟨d', hd', hpattern, hignore, -⟩ := hr spec.token d hd
    refine ⟨d', hd', ?_⟩
    intro text htext
    simpa only [TokenDefinition.ignoreCaseOr, hignore] using howner text (hpattern ▸ htext)

/-- Once its literals are claimed, a production is added behind the others, as often as it names the
lexical state. -/
theorem addProductions (h : s.Registered r config)
    (hclaimed : s.Claimed t r (p.ignoreCase || config.ignoreCase) p.specs) (n : Nat) :
    Registered { t with productions := t.productions ++ List.replicate (n + 1) p } r config := by
  obtain ⟨exact, folded, rfl⟩ := hclaimed.rest
  have mem : ∀ q, q ∈ s.productions ++ List.replicate (n + 1) p ↔ q ∈ s.productions ∨ q = p := by
    simp [List.mem_append, List.mem_replicate]
  refine ⟨?_, h.implicit, ?_⟩
  · intro image ignoreCase owner ho
    rcases hclaimed.owner image ignoreCase owner ho with ho | ⟨spec, hspec, rfl, hown⟩
    · obtain ⟨d, text, hd, htext, hkey, hlists⟩ := h.owner image ignoreCase owner ho
      refine ⟨d, text, hd, htext, hkey, hlists.imp_left ?_⟩
      rintro ⟨q, hq, hlists⟩
      exact ⟨q, (mem q).mpr (.inl hq), hlists⟩
    · obtain ⟨d, text, hd, htext, hignore, hkey⟩ := hown
      exact ⟨d, text, hd, htext, hkey,
        .inl ⟨p, (mem p).mpr (.inr rfl), List.mem_map_of_mem hspec, hignore⟩⟩
  · intro q hq spec hspec
    rcases (mem q).mp hq with hq | rfl
    · obtain ⟨d, hd, howner⟩ := h.listed q hq spec hspec
      refine ⟨d, hd, ?_⟩
      intro text htext
      obtain ⟨owner, ho⟩ := Option.isSome_iff_exists.mp (howner text htext)
      exact Option.isSome_of_eq_some (hclaimed.keeps _ _ _ ho)
    · exact hclaimed.claimed spec hspec

theorem addImplicitLiteral (h : s.Registered r config) (image : String) :
    ((s.claimLiteral image r.size config.ignoreCase).2.addImplicitLiteral r.size).Registered
      (r.register (.ofLiteral image)) config := by
  have h := h.keeps (TokenRegistry.keeps_register (d := .ofLiteral image))
  have hnew := TokenRegistry.get?_register_size (r := r) (d := .ofLiteral image)
  obtain ⟨exact, folded, hclaim⟩ := s.claimLiteral_eq image r.size config.ignoreCase
  have mem : ∀ token, token ∈ ((s.claimLiteral image r.size config.ignoreCase).2.addImplicitLiteral
      r.size).implicitLiterals ↔ token ∈ s.implicitLiterals ∨ token = r.size := by
    intro token
    rw [mem_implicitLiterals_addImplicitLiteral, hclaim]
  refine ⟨?_, ?_, ?_⟩
  · intro image' ignoreCase owner ho
    rw [literalOwner?_addImplicitLiteral] at ho
    rcases of_literalOwner?_claimLiteral ho with ho | ⟨rfl, rfl, hkey⟩
    · obtain ⟨d, text, hd, htext, hkey, hlists⟩ := h.owner image' ignoreCase owner ho
      refine ⟨d, text, hd, htext, hkey, hlists.imp ?_ ?_⟩
      · rw [Lists, Lists, productions_addImplicitLiteral, hclaim]
        exact id
      · exact fun himplicit => ⟨(mem owner).mpr (.inl himplicit.1), himplicit.2⟩
    · exact ⟨_, image, hnew, rfl, hkey, .inr ⟨(mem r.size).mpr (.inr rfl), rfl⟩⟩
  · intro token htoken
    rcases (mem token).mp htoken with htoken | rfl
    · exact h.implicit token htoken
    · exact ⟨_, hnew, rfl, rfl⟩
  · intro p hp spec hspec
    rw [productions_addImplicitLiteral, hclaim] at hp
    obtain ⟨d, hd, howner⟩ := h.listed p hp spec hspec
    refine ⟨d, hd, ?_⟩
    intro text htext
    obtain ⟨owner, ho⟩ := Option.isSome_iff_exists.mp (howner text htext)
    rw [literalOwner?_addImplicitLiteral]
    exact Option.isSome_of_eq_some (literalOwner?_claimLiteral_of_some ho)

end Registered

/-! ### Owners that are recognized -/

/-- A token is built and is a literal whose characters stand for those of an image. -/
def StandsFor (r : TokenRegistry) (token : Nat) (ignoreCase : Bool) (image : String) : Prop :=
  ∃ d text, r.get? token = some d ∧ d.isBuildable = true ∧ d.pattern = .literal text ∧
    List.Forall₂ (CharVariant ignoreCase) (text.toList.map Char.toNat) (image.toList.map Char.toNat)

/-- An owner through which an image is recognized: it stands for the image, and the productions that
list it, if any do, treat case as the claim does in one of them. -/
def Carries (s : LexicalState) (r : TokenRegistry) (config : Config) (owner : Nat)
    (ignoreCase : Bool) (image : String) : Prop :=
  s.literalOwner? image ignoreCase = some owner ∧ StandsFor r owner ignoreCase image ∧
    ∀ d, r.get? owner = some d → (∃ p ∈ s.productions, owner ∈ p.tokens) →
      s.Lists config d owner ignoreCase

/-- Texts with the same code points are the same. -/
theorem eq_of_map_toNat_eq (h : text.toList.map Char.toNat = image.toList.map Char.toNat) :
    text = image := by
  refine String.toList_inj.mp (List.map_injective_iff.mpr ?_ h)
  intro c d hcd
  exact Char.toNat_inj.mp hcd

/-- Where case counts, a literal stands for its own text only. -/
theorem eq_of_forall₂_charVariant (h : List.Forall₂ (CharVariant false)
    (text.toList.map Char.toNat) (image.toList.map Char.toNat)) : text = image := by
  refine eq_of_map_toNat_eq (List.forall₂_eq_eq_eq ▸ h.imp fun c d hd => Eq.symm ?_)
  simpa [CharVariant] using hd

namespace Registered

variable {d : TokenDefinition}

/-- What an owner is, given its definition. -/
theorem origin (h : s.Registered r config) (ho : s.literalOwner? image ignoreCase = some owner)
    (hd : r.get? owner = some d) :
    ∃ text, d.pattern = .literal text ∧ literalKey ignoreCase text = literalKey ignoreCase image ∧
      (s.Lists config d owner ignoreCase ∨
        owner ∈ s.implicitLiterals ∧ ignoreCase = config.ignoreCase) := by
  obtain ⟨d', text, hd', htext, hkey, horigin⟩ := h.owner image ignoreCase owner ho
  obtain rfl := Option.some.inj (hd.symm.trans hd')
  exact ⟨text, htext, hkey, horigin⟩

/-- An implicit literal is public and treats case as it is told. -/
theorem of_implicit (h : s.Registered r config) (hi : token ∈ s.implicitLiterals)
    (hd : r.get? token = some d) :
    d.isPrivate = false ∧ ∀ inherited, d.ignoreCaseOr inherited = inherited := by
  obtain ⟨d', hd', hnone, hpublic⟩ := h.implicit token hi
  obtain rfl := Option.some.inj (hd.symm.trans hd')
  refine ⟨hpublic, ?_⟩
  intro inherited
  rw [TokenDefinition.ignoreCaseOr, hnone, Option.getD_none]

/-- A literal has an owner with every treatment of case that productions list it with. -/
theorem exists_owner (h : s.Registered r config) (hl : s.Lists config d token ignoreCase)
    (hd : r.get? token = some d) (htext : d.pattern = .literal text) :
    ∃ owner, s.literalOwner? text ignoreCase = some owner := by
  obtain ⟨p, hp, hmem, rfl⟩ := hl
  obtain ⟨spec, hspec, rfl⟩ := List.mem_map.mp hmem
  obtain ⟨d', hd', howner⟩ := h.listed p hp spec hspec
  obtain rfl := Option.some.inj (hd.symm.trans hd')
  exact Option.isSome_iff_exists.mp (howner text htext)

theorem recognizes_of_carries (h : s.Registered r config)
    (hc : s.Carries r config owner ignoreCase image) :
    s.Recognizes r config owner image.toList := by
  obtain ⟨ho, ⟨d, text, hd, hbuild, htext, hvariant⟩, hlisted⟩ := hc
  obtain ⟨text', htext', hkey, horigin⟩ := h.origin ho hd
  obtain rfl := Pattern.literal.inj (htext.symm.trans htext')
  rw [TokenDefinition.isBuildable_iff] at hbuild
  refine ⟨ignoreCase, d, ⟨d, hd, hbuild.2, ?_⟩, hd, htext ▸ .literal hvariant⟩
  by_cases hl : ∃ p ∈ s.productions, owner ∈ p.tokens
  · refine .inr ⟨hbuild.1, hlisted d hd hl, ?_⟩
    intro image' owner' himage' ho'
    obtain rfl := Pattern.literal.inj (htext.symm.trans himage')
    rw [literalOwner?_congr hkey, ho] at ho'
    exact (Option.some.inj ho').symm
  · rcases horigin with ⟨p, hp, hmem, -⟩ | ⟨himplicit, heq⟩
    · exact absurd ⟨p, hp, hmem⟩ hl
    · refine .inl ⟨himplicit, fun p hp hmem => hl ⟨p, hp, hmem⟩, ?_⟩
      rw [heq, (h.of_implicit himplicit hd).2]

/-- What a literal is built with is a treatment of case with which it owns the images that it stands
for. -/
theorem literalOwner?_of_listed {ignoreCase' : Bool} (h : s.Registered r config)
    (ho : s.literalOwner? image ignoreCase = some owner) (hd : r.get? owner = some d)
    (htext : d.pattern = .literal text)
    (hvariant : List.Forall₂ (CharVariant ignoreCase') (text.toList.map Char.toNat)
      (image.toList.map Char.toNat)) (hl : s.BuildsListed config d owner ignoreCase') :
    s.literalOwner? image ignoreCase' = some owner := by
  obtain ⟨-, hlists, hown⟩ := hl
  obtain ⟨text', htext', hkey, -⟩ := h.origin ho hd
  obtain rfl := Pattern.literal.inj (htext.symm.trans htext')
  by_cases hcase : ignoreCase' = ignoreCase
  · rw [hcase, ho]
  · -- one of the two counts case, and there the text is the image
    have hsame : text = image := by
      cases ignoreCase' with
      | false => exact eq_of_forall₂_charVariant hvariant
      | true =>
          cases ignoreCase with
          | false => exact hkey
          | true => exact absurd rfl hcase
    obtain ⟨owner', ho'⟩ := h.exists_owner hlists hd htext
    rw [← hsame, ho', hown text owner' htext ho']

theorem carries_of_recognizes (h : s.Registered r config)
    (ho : s.literalOwner? image ignoreCase = some owner)
    (hrec : s.Recognizes r config owner image.toList) :
    ∃ ignoreCase', s.Carries r config owner ignoreCase' image := by
  obtain ⟨ignoreCase', d, ⟨d', hd', hover, hbuilds⟩, hd, hmatch⟩ := hrec
  obtain rfl := Option.some.inj (hd.symm.trans hd')
  obtain ⟨text, htext, -, horigin⟩ := h.origin ho hd
  rw [htext] at hmatch
  have hvariant := TokenRegistry.mem_language_literal.mp hmatch
  rcases hbuilds with ⟨himplicit, hunlisted, rfl⟩ | hl
  · obtain ⟨hpublic, hinherits⟩ := h.of_implicit himplicit hd
    rw [hinherits] at hvariant
    rcases horigin with ⟨p, hp, hmem, -⟩ | ⟨-, rfl⟩
    · exact absurd hmem (hunlisted p hp)
    · refine ⟨_, ho, ⟨d, text, hd, ?_, htext, hvariant⟩, ?_⟩
      · exact TokenDefinition.isBuildable_iff.mpr ⟨hpublic, hover⟩
      · rintro _ _ ⟨p, hp, hmem⟩
        exact absurd hmem (hunlisted p hp)
  · refine ⟨ignoreCase', h.literalOwner?_of_listed ho hd htext hvariant hl,
      ⟨d, text, hd, ?_, htext, hvariant⟩, ?_⟩
    · exact TokenDefinition.isBuildable_iff.mpr ⟨hl.1, hover⟩
    · intro d' hd' _
      obtain rfl := Option.some.inj (hd.symm.trans hd')
      exact hl.2.1

/-- If all owners of an image stand for it, one of them carries it. -/
theorem exists_carries (h : s.Registered r config)
    (ho : s.literalOwner? image ignoreCase = some owner)
    (hall : ∀ ignoreCase owner, s.literalOwner? image ignoreCase = some owner →
      StandsFor r owner ignoreCase image) :
    ∃ owner ignoreCase, s.Carries r config owner ignoreCase image := by
  obtain ⟨d, text, hd, -⟩ := hall ignoreCase owner ho
  obtain ⟨text, htext, hkey, horigin⟩ := h.origin ho hd
  by_cases hlists : (∃ p ∈ s.productions, owner ∈ p.tokens) → s.Lists config d owner ignoreCase
  · refine ⟨owner, ignoreCase, ho, hall _ _ ho, ?_⟩
    intro d' hd'
    obtain rfl := Option.some.inj (hd.symm.trans hd')
    exact hlists
  · -- an implicit literal whose case counts, listed only where case is ignored: what is listed has
    -- an owner there, and that one is listed for it
    rw [Classical.not_imp] at hlists
    obtain ⟨⟨p, hp, hmem⟩, hlists⟩ := hlists
    obtain ⟨himplicit, rfl⟩ := horigin.resolve_left hlists
    obtain ⟨-, hinherits⟩ := h.of_implicit himplicit hd
    have hlisted : s.Lists config d owner (p.ignoreCase || config.ignoreCase) :=
      ⟨p, hp, hmem, (hinherits _).symm⟩
    have hne : config.ignoreCase ≠ (p.ignoreCase || config.ignoreCase) :=
      fun heq => hlists (heq ▸ hlisted)
    have hcase : config.ignoreCase = false ∧ p.ignoreCase = true := by
      revert hne
      cases config.ignoreCase <;> cases p.ignoreCase <;> simp
    rw [hcase.1] at hkey
    obtain rfl : text = image := hkey
    obtain ⟨owner', ho'⟩ := h.exists_owner hlisted hd htext
    rw [hcase.2, Bool.true_or] at ho'
    refine ⟨owner', true, ho', hall _ _ ho', ?_⟩
    intro d' hd' _
    obtain ⟨-, -, -, horigin⟩ := h.origin ho' hd'
    apply horigin.resolve_right
    intro himplicit
    rw [hcase.1] at himplicit
    exact absurd himplicit.2 Bool.true_eq_false.mp

end Registered

end LexicalState

end ScannerTables
