import ScannerTables.Proofs.Declarations
/-!
# Labels by image

A lexer answers for the label of a literal with the first lexical state that knows the image, and
there an owner with the case of the image goes before one whose case is ignored. The lexical states
are asked one after the other and not twice, so this order is kept within a lexical state only: an
owner whose case is ignored hides owners with the case of the image in all lexical states behind.

`exactFirstLabel?` keeps the order among all lexical states. The two answers differ where an owner
is hidden in that way and has another label, and nowhere else.
-/

namespace ScannerTables.Lexer

variable {lx : Lexer} {f g : LexicalState → Option Nat} {image : String} {i j token token' : Nat}

/-- The label of a token. -/
def labelOf? (lx : Lexer) (token : Nat) : Option String := (lx.registry.get? token).bind (·.label)

/-- The label of the owner of an image, whose case counts in the first lexical state where there is
such an owner, or else is ignored in the first. -/
def exactFirstLabel? (lx : Lexer) (image : String) : Option String :=
  ((lx.states.findSome? (·.literalOwner? image false)).or
    (lx.states.findSome? (·.literalOwner? image true))).bind lx.labelOf?

/-! ### The first lexical state with an answer -/

/-- What the lexical state at a position answers, if there is one. -/
def answerAt (lx : Lexer) (f : LexicalState → Option Nat) (i : Nat) : Option Nat :=
  lx.states[i]?.bind f

/-- A lexical state answers with a token and those before it do not answer. -/
def FirstAt (lx : Lexer) (f : LexicalState → Option Nat) (i token : Nat) : Prop :=
  lx.answerAt f i = some token ∧ ∀ j < i, lx.answerAt f j = none

/-- The lexical state where an image has its first owner with a treatment of case, and the owner. -/
abbrev FirstOwned (lx : Lexer) (image : String) (ignoreCase : Bool) (i token : Nat) : Prop :=
  lx.FirstAt (·.literalOwner? image ignoreCase) i token

theorem answerAt_or : lx.answerAt (fun s => (f s).or (g s)) i =
    (lx.answerAt f i).or (lx.answerAt g i) := by
  rw [answerAt, answerAt, answerAt]
  cases lx.states[i]? <;> rfl

/-- Where some lexical state answers, there is a first one. -/
theorem exists_firstAt (h : (lx.answerAt f j).isSome) :
    ∃ i ≤ j, ∃ token, lx.FirstAt f i token := by
  have hexists : ∃ i, (lx.answerAt f i).isSome := ⟨j, h⟩
  obtain ⟨token, htoken⟩ := Option.isSome_iff_exists.mp (Nat.find_spec hexists)
  refine ⟨Nat.find hexists, Nat.find_min' hexists h, token, htoken, fun i hi => ?_⟩
  exact Option.not_isSome_iff_eq_none.mp (Nat.find_min hexists hi)

/-- Up to where nothing answers first, nothing answers. -/
theorem answerAt_eq_none (h : ∀ i token, lx.FirstAt f i token → j < i) :
    lx.answerAt f j = none := by
  apply Option.not_isSome_iff_eq_none.mp
  intro hsome
  obtain ⟨i, hi, token, hfirst⟩ := exists_firstAt hsome
  exact Nat.not_lt_of_le hi (h i token hfirst)

/-- The first of a list that answers gives the answer. -/
theorem findSome?_eq_some_of_first {α β : Type} {f : α → Option β} {l : List α} {b : β}
    (h : l[i]?.bind f = some b) (hbefore : ∀ j < i, l[j]?.bind f = none) :
    l.findSome? f = some b := by
  induction l generalizing i with
  | nil => exact nomatch h
  | cons a l ih =>
      rw [List.findSome?_cons]
      cases i with
      | zero =>
          have hfirst : f a = some b := h
          rw [hfirst]
      | succ i =>
          have hfirst : f a = none := hbefore 0 (Nat.succ_pos i)
          rw [hfirst]
          exact ih h fun j hj => hbefore (j + 1) (Nat.succ_lt_succ hj)

namespace FirstAt

theorem findSome?_eq (h : lx.FirstAt f i token) : lx.states.findSome? f = some token := by
  rw [← Array.findSome?_toList]
  apply findSome?_eq_some_of_first (i := i)
  · exact (congrArg (Option.bind · f) Array.getElem?_toList).trans h.1
  · exact fun j hj => (congrArg (Option.bind · f) Array.getElem?_toList).trans (h.2 j hj)

theorem token_eq (h : lx.FirstAt f i token) (h' : lx.FirstAt f j token') : token = token' :=
  Option.some.inj (h.findSome?_eq.symm.trans h'.findSome?_eq)

theorem index_le (h : lx.FirstAt f i token) (h' : lx.FirstAt f j token') : i ≤ j :=
  Nat.le_of_not_lt fun hlt => nomatch (h.2 j hlt).symm.trans h'.1

/-- What is asked first decides, unless a lexical state before answers what is asked second. -/
theorem or_left (h : lx.FirstAt f i token) (hg : ∀ j other, lx.FirstAt g j other → i ≤ j) :
    lx.FirstAt (fun s => (f s).or (g s)) i token := by
  refine ⟨by rw [answerAt_or, h.1, Option.some_or], fun j hj => ?_⟩
  rw [answerAt_or, h.2 j hj, Option.none_or]
  exact answerAt_eq_none fun k other hk => Nat.lt_of_lt_of_le hj (hg k other hk)

/-- What is asked second decides where no lexical state up to there answers what is asked first. -/
theorem or_right (h : lx.FirstAt g j token) (hf : ∀ i other, lx.FirstAt f i other → j < i) :
    lx.FirstAt (fun s => (f s).or (g s)) j token := by
  have hnone : ∀ i ≤ j, lx.answerAt f i = none := fun i hi =>
    answerAt_eq_none fun k other hk => Nat.lt_of_le_of_lt hi (hf k other hk)
  refine ⟨by rw [answerAt_or, hnone j (Nat.le_refl j), Option.none_or, h.1], fun i hi => ?_⟩
  rw [answerAt_or, hnone i (Nat.le_of_lt hi), Option.none_or, h.2 i hi]

end FirstAt

theorem findSome?_eq_none (h : ∀ i token, ¬ lx.FirstAt f i token) :
    lx.states.findSome? f = none := by
  apply Array.findSome?_eq_none_iff.mpr
  intro s hs
  obtain ⟨j, hj⟩ := Array.getElem?_of_mem hs
  have hanswer : lx.answerAt f j = f s := by rw [answerAt, hj, Option.bind_some]
  exact hanswer ▸ answerAt_eq_none fun i token hi => absurd hi (h i token)

/-! ### Owners with and without the case of the image -/

theorem stringLiteralLabel?_eq_bind : lx.stringLiteralLabel? image =
    (lx.states.findSome? fun s => (s.literalOwner? image false).or
      (s.literalOwner? image true)).bind lx.labelOf? := by
  rw [stringLiteralLabel?, Option.bind_assoc]
  simp only [LexicalState.lookupLiteral_eq_or]
  rfl

/-- The first owner with the case of the image answers, unless a lexical state before it has an
owner whose case is ignored. -/
theorem stringLiteralLabel?_of_exact (h : lx.FirstOwned image false i token)
    (hfolded : ∀ j other, lx.FirstOwned image true j other → i ≤ j) :
    lx.stringLiteralLabel? image = lx.labelOf? token := by
  rw [stringLiteralLabel?_eq_bind, (h.or_left hfolded).findSome?_eq, Option.bind_some]

/-- The first owner whose case is ignored answers, if no lexical state up to there has one with the
case of the image. -/
theorem stringLiteralLabel?_of_folded (h : lx.FirstOwned image true j token)
    (hexact : ∀ i other, lx.FirstOwned image false i other → j < i) :
    lx.stringLiteralLabel? image = lx.labelOf? token := by
  rw [stringLiteralLabel?_eq_bind, (h.or_right hexact).findSome?_eq, Option.bind_some]

theorem stringLiteralLabel?_of_none
    (h : ∀ ignoreCase i token, ¬ lx.FirstOwned image ignoreCase i token) :
    lx.stringLiteralLabel? image = none := by
  have hnone : ∀ s ∈ lx.states, ∀ ignoreCase, s.literalOwner? image ignoreCase = none :=
    fun s hs ignoreCase => Array.findSome?_eq_none_iff.mp (findSome?_eq_none (h ignoreCase)) s hs
  rw [stringLiteralLabel?_eq_bind, Array.findSome?_eq_none_iff.mpr, Option.bind_none]
  intro s hs
  rw [hnone s hs, hnone s hs, Option.none_or]

theorem exactFirstLabel?_of_exact (h : lx.FirstOwned image false i token) :
    lx.exactFirstLabel? image = lx.labelOf? token := by
  rw [exactFirstLabel?, h.findSome?_eq, Option.some_or, Option.bind_some]

theorem exactFirstLabel?_of_folded (hexact : ∀ i token, ¬ lx.FirstOwned image false i token)
    (h : lx.FirstOwned image true j token) : lx.exactFirstLabel? image = lx.labelOf? token := by
  rw [exactFirstLabel?, findSome?_eq_none hexact, h.findSome?_eq, Option.none_or, Option.bind_some]

theorem exactFirstLabel?_of_none
    (h : ∀ ignoreCase i token, ¬ lx.FirstOwned image ignoreCase i token) :
    lx.exactFirstLabel? image = none := by
  rw [exactFirstLabel?, findSome?_eq_none (h false), findSome?_eq_none (h true), Option.none_or,
    Option.bind_none]

/-- Where an owner has the case of the image, only owners before it whose case is ignored matter,
and of these the first. -/
theorem stringLiteralLabel?_eq_iff_of_exact {exact : Nat}
    (hi : lx.FirstOwned image false i exact) :
    lx.stringLiteralLabel? image = lx.exactFirstLabel? image ↔
      ∀ j folded, lx.FirstOwned image true j folded → j < i →
        lx.labelOf? folded = lx.labelOf? exact := by
  rw [exactFirstLabel?_of_exact hi]
  by_cases hfolded : ∃ j < i, ∃ folded, lx.FirstOwned image true j folded
  · obtain ⟨j, hlt, folded, hj⟩ := hfolded
    have hbefore : ∀ k other, lx.FirstOwned image false k other → j < k := fun k other hk =>
      Nat.lt_of_lt_of_le hlt (hi.index_le hk)
    rw [stringLiteralLabel?_of_folded hj hbefore]
    constructor
    · intro heq j' folded' hj' _
      rw [hj'.token_eq hj]
      exact heq
    · exact fun h => h j folded hj hlt
  · -- nothing stands before `i`, so that the answer is the one that is wanted
    have hle : ∀ j other, lx.FirstOwned image true j other → i ≤ j := fun j other hj =>
      Nat.le_of_not_lt fun hlt => hfolded ⟨j, hlt, other, hj⟩
    apply iff_of_true (stringLiteralLabel?_of_exact hi hle)
    exact fun j folded hj hlt => absurd hlt (Nat.not_lt_of_le (hle j folded hj))

/-- Where no owner has the case of the image, the order among lexical states is all that counts. -/
theorem stringLiteralLabel?_eq_of_no_exact
    (hexact : ∀ i token, ¬ lx.FirstOwned image false i token) :
    lx.stringLiteralLabel? image = lx.exactFirstLabel? image := by
  by_cases hfolded : ∃ j folded, lx.FirstOwned image true j folded
  · obtain ⟨j, folded, hj⟩ := hfolded
    rw [stringLiteralLabel?_of_folded hj fun i other hi => absurd hi (hexact i other),
      exactFirstLabel?_of_folded hexact hj]
  · have hnone : ∀ ignoreCase i token, ¬ lx.FirstOwned image ignoreCase i token := by
      intro ignoreCase i token hi
      cases ignoreCase with
      | false => exact hexact i token hi
      | true => exact hfolded ⟨i, token, hi⟩
    rw [stringLiteralLabel?_of_none hnone, exactFirstLabel?_of_none hnone]

/-- A lexer answers for the label of an image with the first lexical state that has an owner of it,
and there with the owner that has its case if there is one. This is the label of the first owner
with the case of the image among all lexical states, or else of the first whose case is ignored,
exactly if no lexical state before the former has an owner whose case is ignored and whose label is
another. -/
theorem stringLiteralLabel?_eq_exactFirstLabel?_iff (lx : Lexer) (image : String) :
    (∀ i token, lx.FirstOwned image false i token →
      (∀ j other, lx.FirstOwned image true j other → i ≤ j) →
        lx.stringLiteralLabel? image = lx.labelOf? token) ∧
    (∀ j token, lx.FirstOwned image true j token →
      (∀ i other, lx.FirstOwned image false i other → j < i) →
        lx.stringLiteralLabel? image = lx.labelOf? token) ∧
    ((∀ ignoreCase i token, ¬ lx.FirstOwned image ignoreCase i token) →
      lx.stringLiteralLabel? image = none) ∧
    (lx.stringLiteralLabel? image = lx.exactFirstLabel? image ↔
      ∀ i j exact folded, lx.FirstOwned image false i exact → lx.FirstOwned image true j folded →
        j < i → lx.labelOf? folded = lx.labelOf? exact) := by
  refine ⟨fun _ _ => stringLiteralLabel?_of_exact, fun _ _ => stringLiteralLabel?_of_folded,
    stringLiteralLabel?_of_none, ?_⟩
  by_cases hexact : ∃ i exact, lx.FirstOwned image false i exact
  · obtain ⟨i, exact, hi⟩ := hexact
    apply (stringLiteralLabel?_eq_iff_of_exact hi).trans
    constructor
    · intro h i' j exact' folded hi' hj hlt
      rw [hi'.token_eq hi]
      exact h j folded hj (Nat.lt_of_lt_of_le hlt (hi'.index_le hi))
    · exact fun h j folded hj hlt => h i j exact folded hi hj hlt
  · have hnone : ∀ i token, ¬ lx.FirstOwned image false i token :=
      fun i token hi => hexact ⟨i, token, hi⟩
    apply iff_of_true (stringLiteralLabel?_eq_of_no_exact hnone)
    exact fun i _ exact _ hi => absurd hi (hnone i exact)

/-- The default lexical state knows `A` regardless of case and the other one knows `a`: the label of
the former is the answer for `a`. -/
theorem stringLiteralLabel?_eq_exactFirstLabel?_iff_hidden : ∃ lx : Lexer, lx.Reachable ∧
    lx.FirstOwned "a" true 0 1 ∧ lx.FirstOwned "a" false 1 2 ∧
      lx.stringLiteralLabel? "a" = some "FOLDED" ∧ lx.exactFirstLabel? "a" = some "EXACT" := by
  let commands : List Command := [.addLexicalState "B",
    .addDefinition { label := some "FOLDED", pattern := .literal "A" },
    .addDefinition { label := some "EXACT", pattern := .literal "a" },
    .addTokenProduction { ignoreCase := true, specs := [{ token := 1 }] },
    .addTokenProduction { lexicalStates := ["B"], specs := [{ token := 2 }] }]
  let lx := commands.foldl Command.run (new {})
  obtain ⟨hfirst, hnone, hsecond, hlabel, hlabel'⟩ :
      lx.answerAt (·.literalOwner? "a" true) 0 = some 1 ∧
        lx.answerAt (·.literalOwner? "a" false) 0 = none ∧
          lx.answerAt (·.literalOwner? "a" false) 1 = some 2 ∧
            lx.labelOf? 1 = some "FOLDED" ∧ lx.labelOf? 2 = some "EXACT" := by
    dsimp only [lx, commands]
    cbv
  have hfolded : lx.FirstOwned "a" true 0 1 := ⟨hfirst, fun j hj => absurd hj (Nat.not_lt_zero j)⟩
  have hexact : lx.FirstOwned "a" false 1 2 := ⟨hsecond, fun j hj => Nat.lt_one_iff.mp hj ▸ hnone⟩
  obtain ⟨-, hanswer, -, -⟩ := stringLiteralLabel?_eq_exactFirstLabel?_iff lx "a"
  have hhidden := hanswer 0 1 hfolded fun i other hi => hexact.index_le hi
  exact ⟨lx, (Reachable.new {}).foldl commands, hfolded, hexact, hhidden.trans hlabel,
    (exactFirstLabel?_of_exact hexact).trans hlabel'⟩

end ScannerTables.Lexer
