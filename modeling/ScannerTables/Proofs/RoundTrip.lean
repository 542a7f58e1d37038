import ScannerTables.Proofs.StandardSerialization
/-!
# Tables and definitions are read back

`Serialization.decode?_encode`: whatever writes and reads the texts, if it keeps to the laws, then
what is written of a table, a range, the settings, a production, a pattern or a definition is read
back as it was.

Two things can stand in the way of a reader. A number must fit in the word that holds it, which
`Fits` says for each type, and a text may not open more levels than the reader allows. Tables are
never that deep; patterns may be.
-/

namespace ScannerTables

open Json

/-! ### Values that fit -/

/-- Both ends fit in 32 bits. -/
structure Interval.Fits (i : Interval) : Prop where
  lo : i.lo < limit32
  hi : i.hi < limit32

/-- All ranges fit. -/
structure CharacterClass.Fits (k : CharacterClass) : Prop where
  ranges : ∀ i ∈ k.ranges, i.Fits

/-- Everything in a pattern fits. -/
inductive Pattern.Fits : Pattern → Prop
  | charClass {k : CharacterClass} (h : k.Fits) : Fits (charClass k)
  | literal (text : String) : Fits (literal text)
  | sequence {ps : List Pattern} (h : ∀ p ∈ ps, Fits p) : Fits (sequence ps)
  | choice {ps : List Pattern} (h : ∀ p ∈ ps, Fits p) : Fits (choice ps)
  | zeroOrMore {p : Pattern} (h : Fits p) : Fits (zeroOrMore p)
  | oneOrMore {p : Pattern} (h : Fits p) : Fits (oneOrMore p)
  | zeroOrOne {p : Pattern} (h : Fits p) : Fits (zeroOrOne p)
  | repetition {p : Pattern} {min : Nat} {max : Option Nat} (h : Fits p) (hmin : min < limit32)
      (hmax : ∀ n ∈ max, n < limit32) : Fits (repetition p min max)
  | reference (label : String) : Fits (reference label)

/-- The pattern and the ordinal fit. -/
structure TokenDefinition.Fits (d : TokenDefinition) : Prop where
  pattern : d.pattern.Fits
  ordinal : d.ordinal < limit32

/-- The token fits in 32 bits. -/
structure TokenSpec.Fits (s : TokenSpec) : Prop where
  token : s.token < limit32

/-- The tokens of all entries fit. -/
structure TokenProduction.Fits (p : TokenProduction) : Prop where
  specs : ∀ s ∈ p.specs, s.Fits

/-- The ranges and the token fit in 32 bits, and the index in 64. -/
structure MemberRecord.Fits (m : MemberRecord) : Prop where
  asciiRanges : ∀ i ∈ m.asciiRanges, i.Fits
  nonAsciiRanges : ∀ i ∈ m.nonAsciiRanges, i.Fits
  nextStateIndex : ∀ n ∈ m.nextStateIndex, n < limit64
  token : ∀ n ∈ m.token, n < limit32

/-- The token and the members fit, and the index fits in 64 bits. -/
structure CompositeRecord.Fits (c : CompositeRecord) : Prop where
  index : c.index < limit64
  token : ∀ n ∈ c.token, n < limit32
  members : ∀ m ∈ c.members, m.Fits

/-- All composites fit. -/
structure StateTable.Fits (t : StateTable) : Prop where
  composites : ∀ c ∈ t.composites, c.Fits

/-- The tables of all lexical states fit. -/
structure LexerTable.Fits (t : LexerTable) : Prop where
  lexicalStates : ∀ s ∈ t.lexicalStates, s.Fits

namespace Serialization.Lawful

variable {s : Serialization} {n limit : Nat}

/-! ### Parts of records -/

theorem holds_bool (h : s.Lawful) (b : Bool) : s.bool.Holds b :=
  h.bool.holds (.bool b) trivial

theorem holds_string (h : s.Lawful) (text : String) : s.string.Holds text :=
  h.string.holds (.string text) trivial

theorem holds_nat (h : s.Lawful) (hlimit : limit ≤ limit64) (hn : n < limit) :
    (s.nat limit).Holds n :=
  (h.nat limit hlimit).holds (.nat (Nat.lt_of_lt_of_le hn hlimit)) hn

theorem holds_option_bool (h : s.Lawful) (o : Option Bool) : (s.option s.bool).Holds o :=
  (h.option s.bool).holds (fun b _ => (h.bool.toJson_eq b).trans_ne nofun) fun b _ => h.holds_bool b

theorem holds_option_string (h : s.Lawful) (o : Option String) : (s.option s.string).Holds o :=
  (h.option s.string).holds (fun text _ => (h.string.toJson_eq text).trans_ne nofun)
    fun text _ => h.holds_string text

theorem holds_option_nat (h : s.Lawful) (hlimit : limit ≤ limit64) {o : Option Nat}
    (ho : ∀ n ∈ o, n < limit) : (s.option (s.nat limit)).Holds o :=
  (h.option (s.nat limit)).holds (fun n _ => ((h.nat limit hlimit).toJson_eq n).trans_ne nofun)
    fun n hn => h.holds_nat hlimit (ho n hn)

theorem holds_strings (h : s.Lawful) (l : List String) : (s.list s.string).Holds l :=
  (h.list s.string).holds fun text _ => h.holds_string text

theorem depth_bool (h : s.Lawful) (b : Bool) : (s.bool.toJson b).depth = 0 :=
  congrArg depth (h.bool.toJson_eq b)

theorem depth_string (h : s.Lawful) (text : String) : (s.string.toJson text).depth = 0 :=
  congrArg depth (h.string.toJson_eq text)

theorem depth_nat (h : s.Lawful) (hlimit : limit ≤ limit64) (n : Nat) :
    ((s.nat limit).toJson n).depth = 0 :=
  congrArg depth ((h.nat limit hlimit).toJson_eq n)

theorem depth_option_string (h : s.Lawful) (o : Option String) :
    ((s.option s.string).toJson o).depth = 0 :=
  Nat.le_zero.mp ((h.option s.string).depth_le fun text _ =>
    Nat.le_of_eq (h.depth_string text))

theorem depth_option_nat (h : s.Lawful) (hlimit : limit ≤ limit64) (o : Option Nat) :
    ((s.option (s.nat limit)).toJson o).depth = 0 :=
  Nat.le_zero.mp ((h.option (s.nat limit)).depth_le fun n _ =>
    Nat.le_of_eq (h.depth_nat hlimit n))

theorem depth_strings_le (h : s.Lawful) (l : List String) :
    ((s.list s.string).toJson l).depth ≤ 1 :=
  (h.list s.string).depth_le_iff.mpr fun text _ =>
    Nat.le_of_eq (h.depth_string text)

theorem limit32_le : limit32 ≤ limit64 := by decide

/-! ### Definitions -/

theorem holds_interval (h : s.Lawful) {i : Interval} (hi : i.Fits) : s.interval.Holds i := by
  refine h.interval.holds ?_
  simp only [intervalFields, List.forall_mem_cons]
  exact ⟨(h.holds_nat limit32_le hi.lo).field, (h.holds_nat limit32_le hi.hi).field,
    List.forall_mem_nil _⟩

theorem holds_intervals (h : s.Lawful) {l : List Interval} (hl : ∀ i ∈ l, i.Fits) :
    (s.list s.interval).Holds l :=
  (h.list s.interval).holds fun i hi => h.holds_interval (hl i hi)

theorem holds_characterClass (h : s.Lawful) {k : CharacterClass} (hk : k.Fits) :
    s.characterClass.Holds k := by
  refine h.characterClass.holds ?_
  simp only [characterClassFields, List.forall_mem_cons]
  exact ⟨(h.holds_intervals hk.ranges).field, (h.holds_bool _).field, List.forall_mem_nil _⟩

theorem holds_repetition (h : s.Lawful) {p : Pattern} {min : Nat} {max : Option Nat}
    (hp : s.pattern.Holds p) (hmin : min < limit32) (hmax : ∀ n ∈ max, n < limit32) :
    s.repetition.Holds (p, min, max) := by
  refine h.repetition_fields.holds ?_
  simp only [repetitionFields, List.forall_mem_cons]
  exact ⟨hp.field, (h.holds_nat limit32_le hmin).field,
    (h.holds_option_nat limit32_le hmax).field, List.forall_mem_nil _⟩

theorem holds_pattern (h : s.Lawful) {p : Pattern} (hp : p.Fits) : s.pattern.Holds p := by
  induction hp with
  | charClass hk => exact h.charClass.holds (h.holds_characterClass hk)
  | literal text => exact h.literal.holds (h.holds_string text)
  | sequence _ ih => exact h.sequence.holds ((h.list s.pattern).holds ih)
  | choice _ ih => exact h.choice.holds ((h.list s.pattern).holds ih)
  | zeroOrMore _ ih => exact h.zeroOrMore.holds ih
  | oneOrMore _ ih => exact h.oneOrMore.holds ih
  | zeroOrOne _ ih => exact h.zeroOrOne.holds ih
  | repetition _ hmin hmax ih => exact h.repetition.holds (h.holds_repetition ih hmin hmax)
  | reference label => exact h.reference.holds (h.holds_string label)

theorem holds_definition (h : s.Lawful) {d : TokenDefinition} (hd : d.Fits) :
    s.definition.Holds d := by
  refine h.definition.holds ?_
  simp only [definitionFields, List.forall_mem_cons]
  exact ⟨(h.holds_option_string _).field, (h.holds_pattern hd.pattern).field,
    (h.holds_nat limit32_le hd.ordinal).field, (h.holds_bool _).field,
    (h.holds_option_bool _).field, (h.holds_bool _).field, (h.holds_option_string _).field,
    List.forall_mem_nil _⟩

theorem holds_spec (h : s.Lawful) {t : TokenSpec} (ht : t.Fits) : s.spec.Holds t := by
  refine h.spec.holds ?_
  simp only [specFields, List.forall_mem_cons]
  exact ⟨(h.holds_nat limit32_le ht.token).field, (h.holds_option_string _).field,
    List.forall_mem_nil _⟩

theorem holds_production (h : s.Lawful) {p : TokenProduction} (hp : p.Fits) :
    s.production.Holds p := by
  have hkind : s.kind.Holds p.kind := h.kind.holds (.string _) trivial
  have hspecs := (h.list s.spec).holds fun t ht => h.holds_spec (hp.specs t ht)
  refine h.production.holds ?_
  simp only [productionFields, List.forall_mem_cons]
  exact ⟨hkind.field, (h.holds_strings _).field, (h.holds_bool _).field, hspecs.field,
    List.forall_mem_nil _⟩

theorem holds_config (h : s.Lawful) (c : Config) : s.config.Holds c := by
  refine h.config.holds ?_
  simp only [configFields, List.forall_mem_cons]
  exact ⟨(h.holds_bool _).field, (h.holds_string _).field, (h.holds_strings _).field,
    List.forall_mem_nil _⟩

/-! ### Tables -/

theorem holds_member (h : s.Lawful) {m : MemberRecord} (hm : m.Fits) : s.member.Holds m := by
  refine h.member.holds ?_
  simp only [memberFields, List.forall_mem_cons]
  exact ⟨(h.holds_option_string _).field, (h.holds_intervals hm.asciiRanges).field,
    (h.holds_intervals hm.nonAsciiRanges).field,
    (h.holds_option_nat (Nat.le_refl _) hm.nextStateIndex).field, (h.holds_bool _).field,
    (h.holds_option_nat limit32_le hm.token).field, List.forall_mem_nil _⟩

theorem holds_composite (h : s.Lawful) {c : CompositeRecord} (hc : c.Fits) :
    s.composite.Holds c := by
  have hmembers := (h.list s.member).holds fun m hm => h.holds_member (hc.members m hm)
  refine h.composite.holds ?_
  simp only [compositeFields, List.forall_mem_cons]
  exact ⟨(h.holds_nat (Nat.le_refl _) hc.index).field, (h.holds_string _).field,
    (h.holds_option_nat limit32_le hc.token).field, (h.holds_bool _).field, hmembers.field,
    List.forall_mem_nil _⟩

theorem holds_stateTable (h : s.Lawful) {t : StateTable} (ht : t.Fits) :
    s.stateTable.Holds t := by
  have hcomposites :=
    (h.list s.composite).holds fun c hc => h.holds_composite (ht.composites c hc)
  refine h.stateTable.holds ?_
  simp only [stateTableFields, List.forall_mem_cons]
  exact ⟨(h.holds_string _).field, hcomposites.field, (h.holds_strings _).field,
    List.forall_mem_nil _⟩

theorem holds_table (h : s.Lawful) {t : LexerTable} (ht : t.Fits) : s.table.Holds t := by
  have hstates :=
    (h.list s.stateTable).holds fun u hu => h.holds_stateTable (ht.lexicalStates u hu)
  have hnames := (h.list (s.option s.string)).holds fun name (_ : name ∈ t.tokenNames) =>
    h.holds_option_string name
  refine h.table.holds ?_
  simp only [tableFields, List.forall_mem_cons]
  exact ⟨hstates.field, hnames.field, List.forall_mem_nil _⟩

/-! ### How deep records go -/

theorem depth_interval_le (h : s.Lawful) (i : Interval) : (s.interval.toJson i).depth ≤ 1 := by
  refine h.interval.depth_le_iff.mpr ?_
  simp [intervalFields, Codec.field, h.depth_nat limit32_le]

theorem depth_intervals_le (h : s.Lawful) (l : List Interval) :
    ((s.list s.interval).toJson l).depth ≤ 2 :=
  (h.list s.interval).depth_le_iff.mpr fun i _ => h.depth_interval_le i

theorem depth_member_le (h : s.Lawful) (m : MemberRecord) : (s.member.toJson m).depth ≤ 3 := by
  refine h.member.depth_le_iff.mpr ?_
  simp [memberFields, Codec.field, h.depth_option_nat limit32_le,
    h.depth_option_nat (Nat.le_refl limit64), h.depth_option_string, h.depth_bool,
    h.depth_intervals_le]

theorem depth_composite_le (h : s.Lawful) (c : CompositeRecord) :
    (s.composite.toJson c).depth ≤ 5 := by
  have hmembers := (h.list s.member).depth_le_iff.mpr
    fun m (_ : m ∈ c.members) => h.depth_member_le m
  refine h.composite.depth_le_iff.mpr ?_
  simp [compositeFields, Codec.field, h.depth_option_nat limit32_le,
    h.depth_nat (Nat.le_refl limit64), h.depth_string, h.depth_bool, hmembers]

theorem depth_stateTable_le (h : s.Lawful) (t : StateTable) :
    (s.stateTable.toJson t).depth ≤ 7 := by
  have hcomposites := (h.list s.composite).depth_le_iff.mpr
    fun c (_ : c ∈ t.composites) => h.depth_composite_le c
  refine h.stateTable.depth_le_iff.mpr ?_
  simp [stateTableFields, Codec.field, h.depth_string, hcomposites,
    Nat.le_trans (h.depth_strings_le t.movesArrays) (by decide : 1 ≤ 6)]

theorem depth_table_le (h : s.Lawful) (t : LexerTable) : (s.table.toJson t).depth ≤ 9 := by
  have hstates := (h.list s.stateTable).depth_le_iff.mpr
    fun u (_ : u ∈ t.lexicalStates) => h.depth_stateTable_le u
  have hnames := (h.list (s.option s.string)).depth_le_iff.mpr
    fun name (_ : name ∈ t.tokenNames) => Nat.le_of_eq (h.depth_option_string name)
  refine h.table.depth_le_iff.mpr ?_
  simp [tableFields, Codec.field, hstates, Nat.le_trans hnames (by decide : 1 ≤ 8)]

theorem depth_production_le (h : s.Lawful) (p : TokenProduction) :
    (s.production.toJson p).depth ≤ 3 := by
  have hspecs : ((s.list s.spec).toJson p.specs).depth ≤ 2 := by
    refine (h.list s.spec).depth_le_iff.mpr fun t _ => h.spec.depth_le_iff.mpr ?_
    simp [specFields, Codec.field, h.depth_nat limit32_le, h.depth_option_string]
  have hkind : (s.kind.toJson p.kind).depth = 0 := congrArg depth (h.kind.toJson_eq p.kind)
  refine h.production.depth_le_iff.mpr ?_
  simp [productionFields, Codec.field, hkind, hspecs, h.depth_bool,
    Nat.le_trans (h.depth_strings_le p.lexicalStates) (by decide : 1 ≤ 2)]

theorem depth_config_le (h : s.Lawful) (c : Config) : (s.config.toJson c).depth ≤ 2 := by
  refine h.config.depth_le_iff.mpr ?_
  simp [configFields, Codec.field, h.depth_bool, h.depth_string, h.depth_strings_le]

/-! ### Texts -/

/-- What holds a value is decoded from its text, on one line or on many. -/
theorem decode?_of_holds (h : s.Lawful) {α : Type} {c : Codec α} {a : α} (ha : c.Holds a)
    (hdepth : (c.toJson a).depth ≤ s.nestingLimit) :
    s.decode? c (s.encode c a) = some a ∧ s.decode? c (s.encodePretty c a) = some a := by
  have hread : c.ofJson? s.nestingLimit (c.toJson a) = some a := ha.ofJson?_toJson _ hdepth
  have hcompact := h.read?_eq _ _ (h.standsFor_compact _ ha.plain)
  have hpretty := h.read?_eq _ _ (h.standsFor_pretty _ ha.plain)
  constructor
  · rw [decode?, encode, hcompact, Option.bind_some, hread]
  · rw [decode?, encodePretty, hpretty, Option.bind_some, hread]

end Serialization.Lawful

namespace Serialization

/-- Whatever is written is read back as it was: a table from either of its texts, and ranges,
settings, productions, patterns and definitions from one line. The numbers must fit in the words
that hold them, and patterns must not open more levels than a text may. -/
theorem decode?_encode {s : Serialization} (h : s.Lawful) :
    (∀ t : LexerTable, t.Fits →
      s.decode? s.table (s.encode s.table t) = some t ∧
        s.decode? s.table (s.encodePretty s.table t) = some t) ∧
    (∀ i : Interval, i.Fits → s.decode? s.interval (s.encode s.interval i) = some i) ∧
    (∀ c : Config, s.decode? s.config (s.encode s.config c) = some c) ∧
    (∀ p : TokenProduction, p.Fits →
      s.decode? s.production (s.encode s.production p) = some p) ∧
    (∀ p : Pattern, p.Fits → (s.pattern.toJson p).depth ≤ s.nestingLimit →
      s.decode? s.pattern (s.encode s.pattern p) = some p) ∧
    (∀ d : TokenDefinition, d.Fits → (s.definition.toJson d).depth ≤ s.nestingLimit →
      s.decode? s.definition (s.encode s.definition d) = some d) := by
  have hlimit {n : Nat} (hn : n ≤ 9) : n ≤ s.nestingLimit :=
    h.nestingLimit ▸ Nat.le_trans hn (by decide)
  refine ⟨fun t ht => ?_, fun i hi => ?_, fun c => ?_, fun p hp => ?_, fun p hp hdepth => ?_,
    fun d hd hdepth => ?_⟩
  · exact h.decode?_of_holds (h.holds_table ht) (hlimit (h.depth_table_le t))
  · have hdepth := Nat.le_trans (h.depth_interval_le i) (by decide : 1 ≤ 9)
    exact (h.decode?_of_holds (h.holds_interval hi) (hlimit hdepth)).1
  · have hdepth := Nat.le_trans (h.depth_config_le c) (by decide : 2 ≤ 9)
    exact (h.decode?_of_holds (h.holds_config c) (hlimit hdepth)).1
  · have hdepth := Nat.le_trans (h.depth_production_le p) (by decide : 3 ≤ 9)
    exact (h.decode?_of_holds (h.holds_production hp) (hlimit hdepth)).1
  · exact (h.decode?_of_holds (h.holds_pattern hp) hdepth).1
  · exact (h.decode?_of_holds (h.holds_definition hd) hdepth).1

/-- Numbers at the limits of their words, escaped characters and nested variants are read back. -/
theorem decode?_encode_escaped :
    let range : Interval := ⟨0x61, 0xffffffff⟩
    let member : MemberRecord := ⟨none, [range], [], some 0xffffffffffffffff, true, some 1⟩
    let state : StateTable :=
      ⟨"a\"\\\x07\n", [⟨0, "NfaIndex0", none, false, [member]⟩], ["NFA_MOVES_0"]⟩
    let t : LexerTable := ⟨[state], [some "EOF", none]⟩
    let q : TokenProduction := ⟨.unparsed, ["IN", ""], true, [⟨3, none⟩, ⟨4, some "IN"⟩]⟩
    let p : Pattern :=
      .repetition (.choice [.literal "é/😀", .charClass ⟨[range], true⟩, .sequence []]) 2 none
    let d : TokenDefinition := { pattern := .zeroOrMore p, ordinal := 3, ignoreCase := some false }
    (standard.decode? standard.table (standard.encode standard.table t) = some t ∧
        standard.decode? standard.table (standard.encodePretty standard.table t) = some t) ∧
      standard.decode? standard.interval (standard.encode standard.interval range) = some range ∧
      standard.decode? standard.production (standard.encode standard.production q) = some q ∧
      standard.decode? standard.pattern (standard.encode standard.pattern p) = some p ∧
      standard.decode? standard.definition (standard.encode standard.definition d) = some d := by
  intro range member state t q p d
  have hrange : range.Fits := ⟨by decide, by decide⟩
  have hmember : member.Fits := ⟨by simpa [member] using hrange, by simp [member],
    by simp [member, limit64], by simp [member, limit32]⟩
  have hstate : state.Fits := ⟨by simpa [state] using ⟨by decide, by simp, by simpa using hmember⟩⟩
  have ht : t.Fits := ⟨by simpa [t] using hstate⟩
  have hq : q.Fits := by
    refine ⟨?_⟩
    simp only [q, List.forall_mem_cons]
    exact ⟨⟨by decide⟩, ⟨by decide⟩, nofun⟩
  have hp : p.Fits := by
    refine .repetition (.choice ?_) (by decide) (by simp)
    simp only [List.forall_mem_cons]
    exact ⟨.literal _, .charClass ⟨by simpa using hrange⟩, .sequence nofun, nofun⟩
  obtain ⟨htable, hinterval, -, hproduction, hpattern, hdefinition⟩ :=
    decode?_encode lawful_standard
  exact ⟨htable t ht, hinterval range hrange, hproduction q hq, hpattern p hp (by decide),
    hdefinition d ⟨.zeroOrMore hp, by decide⟩ (by decide)⟩

end Serialization
end ScannerTables
