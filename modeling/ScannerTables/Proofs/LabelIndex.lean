import ScannerTables.Proofs.Relabelling
/-!
# The index of labels

The index has a label if and only if some definition carries it, and gives it to one that does. To
add a definition keeps this up, and so does everything that leaves labels alone; to change one label
does not, for several definitions may carry the label that is given up while only one of them owns
it. Between two changes of a labelling it is the identifiers that can be relied on, which nobody
gives up, and at the end of it there are no other labels.

Labelling is a normalization: it leaves identifiers alone, and there is nothing but identifiers once
it is done.
-/

namespace ScannerTables

namespace TokenRegistry

variable {u : IdentifierClasses} {r r' : TokenRegistry}

/-! ### Labels that are carried -/

/-- Every label that some definition carries has an owner. -/
def Covered (r : TokenRegistry) : Prop :=
  ∀ token d label, r.get? token = some d → d.label = some label →
    ∃ owner, r.byLabel? label = some owner

theorem Covered.new : TokenRegistry.new.Covered := by
  intro token d label hd hlabel
  have hlt : token < TokenRegistry.new.size := get?_isSome.mp (Option.isSome_of_eq_some hd)
  obtain rfl : token = 0 := Nat.lt_one_iff.mp hlt
  obtain rfl := Option.some.inj hd
  obtain rfl := Option.some.inj hlabel
  exact ⟨0, rfl⟩

theorem Covered.register (h : r.Covered) (d : TokenDefinition) : (r.register d).Covered := by
  intro token d' label hd' hlabel
  rw [byLabel?_register]
  split
  · exact ⟨_, rfl⟩
  · next hother =>
    rw [get?, TokenRegistry.register, Array.getElem?_push] at hd'
    split at hd'
    · obtain rfl := Option.some.inj hd'
      exact absurd hlabel hother
    · exact h token d' label hd' hlabel

theorem Covered.of_sameLabels (h : r.Covered) (hr : r.SameLabels r') : r'.Covered := by
  intro token d' label hd' hlabel
  obtain ⟨d, hd, heq⟩ := hr.symm.exists_label_eq hd'
  rw [byLabel?, hr.labels_eq]
  exact h token d label hd (heq.trans hlabel)

/-- Two definitions with one label: once the owner has another, the label is not in the index, and
the other definition still carries it. -/
example :
    let d : TokenDefinition := { label := some "+", pattern := .literal "+" }
    let r := ((TokenRegistry.new.register d).register d).relabel 1 "PLUS"
    (r.get? 2).bind (·.label) = some "+" ∧ r.byLabel? "+" = none := by
  decide

/-- Where every label is an identifier, only identifiers need an owner. -/
theorem CoversIdentifiers.covered (h : r.CoversIdentifiers u)
    (hall : ∀ token d, r.get? token = some d → d.label.any u.isIdentifier = true) : r.Covered := by
  intro token d label hd hlabel
  refine h token d label hd hlabel ?_
  have hident := hall token d hd
  rwa [hlabel, Option.any_some] at hident

/-! ### Labelling -/

/-- Nothing is relabelled where every label is an identifier. -/
theorem newLabels_eq_nil {ds : List TokenDefinition} (used : List String)
    (h : ∀ d ∈ ds, d.label.any u.isIdentifier = true) : newLabels u ds used = [] := by
  induction ds with
  | nil => rfl
  | cons d ds ih =>
      rw [List.forall_mem_cons] at h
      rw [newLabels, if_pos h.1, ih h.2]

theorem ensureLabels_eq_self
    (h : ∀ token d, r.get? token = some d → d.label.any u.isIdentifier = true) :
    r.ensureLabels u = r := by
  rw [ensureLabels, newLabels_eq_nil]
  · rfl
  · intro d hd
    obtain ⟨i, hi, rfl⟩ := List.getElem_of_mem hd
    exact h i _ (get?_eq_some_getElem hi)

/-- A definition that has an identifier for a label stays as it is. -/
theorem Relabels.get?_of_isIdentifier {tokens : List Nat} (h : r.Relabels u r' tokens) {token : Nat}
    {d : TokenDefinition} (hd : r.get? token = some d)
    (hident : d.label.any u.isIdentifier = true) : r'.get? token = some d := by
  obtain ⟨label, hd', rfl | ⟨hnone, -⟩⟩ := h.definition token d hd
  · exact hd'
  · exact absurd (hident.symm.trans hnone) Bool.noConfusion

/-- Definitions bear their positions for ordinals, and the index of labels is in step: each label in
it is carried by its owner, and each label that is carried is in it. -/
structure InStep (r : TokenRegistry) : Prop where
  ordinal_eq : ∀ token d, r.get? token = some d → d.ordinal = token
  indexed : r.Indexed
  covered : r.Covered

end TokenRegistry

namespace Lexer

variable {lx : Lexer}

theorem Reachable.covered (h : lx.Reachable) : lx.registry.Covered := by
  induction h with
  | new config => exact .new
  | run h c ih =>
      rcases c.labels_cases _ with ⟨d, heq⟩ | ⟨u, heq⟩ | hsame
      · exact heq ▸ ih.register d
      · have hidentifiers := (h.relabels (u := u)).covers fun token d label hd hlabel _ =>
          ih token d label hd hlabel
        exact heq ▸ hidentifiers.covered fun _ _ => h.relabels.any_isIdentifier
      · exact ih.of_sameLabels hsame

theorem Reachable.inStep (h : lx.Reachable) : lx.registry.InStep where
  ordinal_eq _ _ := h.ordinal_eq
  indexed := h.indexed
  covered := h.covered

/-- Whatever commands are given to a lexer, its index of labels stays in step; and labelling, by
whatever classes of characters, is then a normalization. It gives every definition an identifier,
does not touch a definition that has one, and has nothing left to do when it is done again. -/
theorem inStep_foldl (u : IdentifierClasses) (config : Config) (commands : List Command) :
    let lx := commands.foldl Command.run (new config)
    lx.registry.InStep ∧
      (∀ token d, (lx.ensureLabels u).registry.get? token = some d →
        ∃ label, d.label = some label ∧ u.isIdentifier label = true) ∧
      (∀ token d label, lx.registry.get? token = some d → d.label = some label →
        u.isIdentifier label = true → (lx.ensureLabels u).registry.get? token = some d) ∧
      (lx.ensureLabels u).ensureLabels u = lx.ensureLabels u := by
  intro lx
  have h : lx.Reachable := (Reachable.new config).foldl commands
  refine ⟨h.inStep, fun token d hd => ?_, fun token d label hd hlabel hident => ?_, ?_⟩
  · exact (Option.any_eq_true _ _).mp (h.relabels.any_isIdentifier hd)
  · refine h.relabels.get?_of_isIdentifier hd ?_
    rw [hlabel, Option.any_some, hident]
  · have hself : (lx.ensureLabels u).registry.ensureLabels u = (lx.ensureLabels u).registry :=
      TokenRegistry.ensureLabels_eq_self fun _ _ => h.relabels.any_isIdentifier
    rw [ensureLabels, hself]

/-- Two tokens share a label that is no identifier, and the second keeps it only until both have
names of their own. -/
theorem inStep_foldl_shared :
    let lx := [Command.addDefinition { label := some "+", pattern := .literal "+" },
      .addDefinition { label := some "+", pattern := .zeroOrMore (.literal "+") },
      .addDefinition (.ofLiteral "if")].foldl Command.run (new {})
    lx.registry.InStep ∧ lx.registry.byLabel? "+" = some 1 ∧
      (List.range 4).map lx.tokenName? = [some "EOF", some "+", some "+", none] ∧
      (List.range 4).map (lx.ensureLabels .ascii).tokenName? =
        [some "EOF", some "_TOKEN_1", some "_TOKEN_2", some "IF"] ∧
      (lx.ensureLabels .ascii).ensureLabels .ascii = lx.ensureLabels .ascii := by
  intro lx
  obtain ⟨hstep, -, -, hagain⟩ := inStep_foldl .ascii {}
    [.addDefinition { label := some "+", pattern := .literal "+" },
      .addDefinition { label := some "+", pattern := .zeroOrMore (.literal "+") },
      .addDefinition (.ofLiteral "if")]
  exact ⟨hstep, by cbv, by cbv, by cbv, hagain⟩

end Lexer

end ScannerTables
