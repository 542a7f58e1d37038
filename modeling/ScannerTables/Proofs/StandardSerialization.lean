import ScannerTables.Codec.Text
import ScannerTables.Proofs.JsonText
import ScannerTables.Proofs.Serialization
/-!
# The standard serialization is lawful

`Serialization.lawful_standard`: the printer and the reader of this library keep to the grammar, and
the codecs of `Codec.Definition` and `Codec.Table` to the declarations of the types.
-/

namespace ScannerTables

open Json

variable {α : Type}

/-- A codec that goes by `fields?` keeps to its fields if it puts together what they are read as. -/
theorem Codec.isRecord_of_fields? {c : Codec α} {fields : List (Field α)}
    {read : Nat → List (Option Json) → Option α} (hnodup : (fields.map (·.name)).Nodup)
    (hto : ∀ a, c.toJson a = record (fields.map (·.name)) (fields.map (·.toJson a)))
    (hof : ∀ budget v,
      c.ofJson? (budget + 1) v = (fields? (fields.map (·.name)) v).bind (read budget))
    (hread : ∀ budget a (value : Field α → Json), (∀ f ∈ fields, f.Reads budget (value f) a) →
      read budget (fields.map fun f => some (value f)) = some a) : c.IsRecord fields where
  toJson_eq a := by rw [hto, record, List.zip_map']
  ofJson?_eq budget a value h := by
    have hrecord : object (fields.map fun f => (f.name, value f)) =
        record (fields.map (·.name)) (fields.map value) := by rw [record, List.zip_map']
    rw [hof, hrecord, fields?_record hnodup (by rw [List.length_map, List.length_map]),
      Option.bind_some, List.map_map]
    exact hread budget a value h

namespace Serialization

theorem isRecord_interval : standard.interval.IsRecord standard.intervalFields := by
  refine Codec.isRecord_of_fields? (by decide) (fun _ => rfl) (fun _ _ => rfl) fun _ _ _ h => ?_
  simp only [intervalFields, List.forall_mem_cons, List.map_cons, Codec.field, standard] at h ⊢
  simp [required, h]

theorem isRecord_characterClass :
    standard.characterClass.IsRecord standard.characterClassFields := by
  refine Codec.isRecord_of_fields? (by decide) (fun _ => rfl) (fun _ _ => rfl) fun _ _ _ h => ?_
  simp only [characterClassFields, List.forall_mem_cons, List.map_cons, Codec.field, standard]
    at h ⊢
  simp [required, h]

theorem isRecord_repetition : standard.repetition.IsRecord standard.repetitionFields := by
  refine Codec.isRecord_of_fields? (by decide) (fun _ => rfl) (fun _ _ => rfl) fun _ _ _ h => ?_
  simp only [repetitionFields, List.forall_mem_cons, List.map_cons, Codec.field, standard] at h ⊢
  simp [required, Json.optional, h]

theorem isRecord_definition : standard.definition.IsRecord standard.definitionFields := by
  refine Codec.isRecord_of_fields? (by decide) (fun _ => rfl) (fun _ _ => rfl) fun _ _ _ h => ?_
  simp only [definitionFields, List.forall_mem_cons, List.map_cons, Codec.field, standard] at h ⊢
  simp [required, Json.optional, h]

theorem isRecord_spec : standard.spec.IsRecord standard.specFields := by
  refine Codec.isRecord_of_fields? (by decide) (fun _ => rfl) (fun _ _ => rfl) fun _ _ _ h => ?_
  simp only [specFields, List.forall_mem_cons, List.map_cons, Codec.field, standard] at h ⊢
  simp [required, Json.optional, h]

theorem isRecord_production : standard.production.IsRecord standard.productionFields := by
  refine Codec.isRecord_of_fields? (by decide) (fun _ => rfl) (fun _ _ => rfl) fun _ _ _ h => ?_
  simp only [productionFields, List.forall_mem_cons, List.map_cons, Codec.field, standard] at h ⊢
  simp [required, h]

theorem isRecord_config : standard.config.IsRecord standard.configFields := by
  refine Codec.isRecord_of_fields? (by decide) (fun _ => rfl) (fun _ _ => rfl) fun _ _ _ h => ?_
  simp only [configFields, List.forall_mem_cons, List.map_cons, Codec.field, standard] at h ⊢
  simp [required, h]

theorem isRecord_member : standard.member.IsRecord standard.memberFields := by
  refine Codec.isRecord_of_fields? (by decide) (fun _ => rfl) (fun _ _ => rfl) fun _ _ _ h => ?_
  simp only [memberFields, List.forall_mem_cons, List.map_cons, Codec.field, standard] at h ⊢
  simp [required, Json.optional, h]

theorem isRecord_composite : standard.composite.IsRecord standard.compositeFields := by
  refine Codec.isRecord_of_fields? (by decide) (fun _ => rfl) (fun _ _ => rfl) fun _ _ _ h => ?_
  simp only [compositeFields, List.forall_mem_cons, List.map_cons, Codec.field, standard] at h ⊢
  simp [required, Json.optional, h]

theorem isRecord_stateTable : standard.stateTable.IsRecord standard.stateTableFields := by
  refine Codec.isRecord_of_fields? (by decide) (fun _ => rfl) (fun _ _ => rfl) fun _ _ _ h => ?_
  simp only [stateTableFields, List.forall_mem_cons, List.map_cons, Codec.field, standard] at h ⊢
  simp [required, h]

theorem isRecord_table : standard.table.IsRecord standard.tableFields := by
  refine Codec.isRecord_of_fields? (by decide) (fun _ => rfl) (fun _ _ => rfl) fun _ _ _ h => ?_
  simp only [tableFields, List.forall_mem_cons, List.map_cons, Codec.field, standard] at h ⊢
  simp [required, h]

/-! ### Patterns -/

theorem toJsonAll_eq_map (ps : List Pattern) : Pattern.toJsonAll ps = ps.map Pattern.toJson := by
  induction ps with
  | nil => rfl
  | cons p ps ih => rw [Pattern.toJsonAll, ih, List.map_cons]

theorem patterns?_eq_list? (budget : Nat) (v : Json) :
    Pattern.ofJson?.patterns? budget v = list? Pattern.ofJson? budget v := by
  cases budget <;> cases v <;> rfl

/-- A variant is read as what its value is read as. -/
theorem hasVariant_of_bind {β : Type} {name : String} {d : Codec β} {make : β → Pattern}
    (hto : ∀ b, (make b).toJson = object [(name, d.toJson b)])
    (hread : ∀ budget v, Pattern.ofJson? (budget + 1) (object [(name, v)]) =
      (d.ofJson? budget v).bind fun b => some (make b)) :
    standard.pattern.HasVariant name d make where
  toJson_eq := hto
  ofJson?_eq budget v b h := by
    change Pattern.ofJson? (budget + 1) (object [(name, v)]) = some (make b)
    rw [hread, h, Option.bind_some]

/-- The two variants of lists are read by the reader of lists. -/
theorem hasVariant_patterns {name : String} {make : List Pattern → Pattern}
    (hto : ∀ ps, (make ps).toJson = object [(name, array (Pattern.toJsonAll ps))])
    (hread : ∀ budget v, Pattern.ofJson? (budget + 1) (object [(name, v)]) =
      (Pattern.ofJson?.patterns? budget v).bind fun ps => some (make ps)) :
    standard.pattern.HasVariant name (standard.list standard.pattern) make := by
  refine hasVariant_of_bind (fun ps => ?_) fun budget v => ?_
  · rw [hto, toJsonAll_eq_map]
    rfl
  · rw [hread, patterns?_eq_list?]
    rfl

theorem hasVariant_repetition : standard.pattern.HasVariant "Repetition" standard.repetition
    fun r => .repetition r.1 r.2.1 r.2.2 := by
  refine hasVariant_of_bind (fun _ => rfl) fun budget v => ?_
  change _ = (Pattern.repetition? budget v).bind _
  rw [Pattern.ofJson?]
  cases budget with
  | zero => rfl
  | succ budget =>
      change ((fields? Pattern.repetitionNames v).bind _) = _
      rw [Pattern.repetition?]
      obtain _ | _ | ⟨inner, _ | ⟨min, _ | ⟨max, _ | _⟩⟩⟩ := fields? Pattern.repetitionNames v
      case some.cons.cons.cons.nil => simp [Option.bind_assoc]
      all_goals rfl

theorem isOption_option (c : Codec α) : (standard.option c).IsOption c where
  toJson_none := rfl
  toJson_some _ := rfl
  ofJson?_null _ := rfl
  ofJson?_of_ne _ _ hv := option?.eq_2 _ _ hv

theorem lawful_standard : standard.Lawful where
  standsFor_compact _ h := h.standsFor_write none
  standsFor_pretty _ h := h.standsFor_write (some 0)
  read?_eq _ _ h := h.read?_eq
  nestingLimit := rfl
  bool := ⟨fun _ => rfl, fun _ _ _ => rfl⟩
  nat _ _ := ⟨fun _ => rfl, fun _ _ h => if_pos h⟩
  string := ⟨fun _ => rfl, fun _ _ _ => rfl⟩
  option := isOption_option
  list c := ⟨fun _ => rfl, fun _ _ => rfl⟩
  interval := isRecord_interval
  characterClass := isRecord_characterClass
  charClass := hasVariant_of_bind (fun _ => rfl) fun _ _ => by rw [Pattern.ofJson?]; rfl
  literal := hasVariant_of_bind (fun _ => rfl) fun _ _ => by rw [Pattern.ofJson?]; rfl
  sequence := hasVariant_patterns (fun _ => rfl) fun _ _ => by rw [Pattern.ofJson?]; rfl
  choice := hasVariant_patterns (fun _ => rfl) fun _ _ => by rw [Pattern.ofJson?]; rfl
  zeroOrMore := hasVariant_of_bind (fun _ => rfl) fun _ _ => by rw [Pattern.ofJson?]; rfl
  oneOrMore := hasVariant_of_bind (fun _ => rfl) fun _ _ => by rw [Pattern.ofJson?]; rfl
  zeroOrOne := hasVariant_of_bind (fun _ => rfl) fun _ _ => by rw [Pattern.ofJson?]; rfl
  repetition := hasVariant_repetition
  repetition_fields := isRecord_repetition
  reference := hasVariant_of_bind (fun _ => rfl) fun _ _ => by rw [Pattern.ofJson?]; rfl
  definition := isRecord_definition
  kind := ⟨fun _ => rfl, fun _ k _ => TokenKind.ofName?_name k⟩
  spec := isRecord_spec
  production := isRecord_production
  config := isRecord_config
  member := isRecord_member
  composite := isRecord_composite
  stateTable := isRecord_stateTable
  table := isRecord_table

end Serialization
end ScannerTables
