import Mathlib
import ScannerTables.Proofs.Assembly
import ScannerTables.Proofs.Dispatch
import ScannerTables.Proofs.Plan
import ScannerTables.Proofs.Scan
/-!
# What a lexical state recognizes

The scanner of a processed lexical state finds the longest prefix that some built token matches, and
of the tokens that match it the lowest. The composites that are active after a word are those of the
states where the word arrives; that is what the scanner's steps keep, by the facts about closing,
about the dispatch and about the automaton that all tokens were built into.
-/

namespace ScannerTables

open Automaton

theorem IntervalSet.not_mem_of_isEmpty {s : IntervalSet} {n : Nat} (h : s.isEmpty = true) :
    n ∉ s := by
  rw [isEmpty, List.isEmpty_iff] at h
  rw [mem_def, h]
  exact Covers.nil

namespace LexicalState

variable {s s' : LexicalState} {L : Nat → List Nat → Prop}

namespace Generates

/-- The scanner finds a composite under its index. -/
theorem getElem?_scanner (h : s.Generates s') {id i : Nat} {members : List Nat}
    (hi : s'.indexOf? id = some i)
    (hm : s'.composites[id]? = some members) :
    s'.scanner.composites[i]? = some ((s'.orderedMembers members).map s'.scannerMember) := by
  have exists_composite : ∀ id' ∈ s'.order, s'.composite? id' =
      some { id := id', index := s'.indexOf? id', members := (s'.composites[id']?).getD [] } := by
    intro id' hid'
    obtain ⟨i', hi'⟩ := Option.isSome_iff_exists.mp (List.isSome_idxOf?.mpr hid')
    obtain ⟨members', hmembers'⟩ :=
      h.exists_members id' i' ((h.numbered.indexOf?_eq id').trans hi')
    rw [composite?, hmembers']
    rfl
  have hget : s'.order[i]? = some id := by
    rw [h.numbered.indexOf?_eq] at hi
    obtain ⟨hlt, heq, -⟩ := List.idxOf?_eq_some_iff.mp hi
    rw [List.getElem?_eq_getElem hlt, heq]
  rw [scanner, List.getElem?_toArray, List.getElem?_map, reachable, ← order,
    List.filterMap_congr exists_composite]
  simp [hget, hm]

/-! ### Members as a scanner sees them -/

section

variable {m q c token : Nat} {t : State}

theorem moves_scannerMember (h : s.Generates s') (hm : s.automaton.state? m = some t)
    (hasc : Ascending t.ranges) : (s'.scannerMember m).moves c = true ↔ t.accepts c = true := by
  obtain ⟨t', ht', hclose⟩ := h.closes.exists_state hm
  rw [State.accepts_iff hasc, Member.moves, scannerMember, ht']
  simp [hclose.ranges_eq, Covers]

theorem next_scannerMember (h : s.Generates s') (hm : s.automaton.state? m = some t) {j : Nat} :
    (s'.scannerMember m).next = some j ↔
      ∃ q id, t.next = some q ∧ s'.compositeOf? q = some id ∧ s'.indexOf? id = some j := by
  obtain ⟨t', ht', hclose⟩ := h.closes.exists_state hm
  rw [scannerMember, nextIndex?, ht', Option.bind_some, hclose.next_eq]
  simp only [Option.bind_eq_some_iff]
  constructor
  · rintro ⟨id, ⟨q, hq, hid⟩, hj⟩
    exact ⟨q, id, hq, hid, hj⟩
  · rintro ⟨q, id, hq, hid, hj⟩
    exact ⟨id, ⟨q, hq, hid⟩, hj⟩

/-- The successor of a state as the closed automaton has it. -/
theorem successor?_eq (h : s.Generates s') (hm : s.automaton.state? m = some t) :
    s'.automaton.successor? m = t.next.bind s'.automaton.state? := by
  obtain ⟨t', ht', hclose⟩ := h.closes.exists_state hm
  rw [successor?, ht', Option.bind_some, hclose.next_eq]

/-- A member accepts the token that is complete behind it, as its token is that of its successor. -/
theorem accepts_scannerMember (h : s.Generates s') (ha : s.automaton.Assembled L) :
    (s'.scannerMember m).accepts = s'.automaton.completedToken? m := by
  rw [scannerMember, isNextFinal, completedToken?]
  cases ht' : s'.automaton.state? m with
  | none => simp [successor?, ht']
  | some t' =>
      obtain ⟨t, ht⟩ := exists_state? (h.closes.size_eq ▸ lt_size ht')
      have hclose := h.closes.state m t t' ht ht'
      rw [h.successor?_eq ht, Option.bind_some, hclose.token_eq]
      cases hq : t.next with
      | none => rfl
      | some q =>
          rw [Option.bind_some]
          cases hu' : s'.automaton.state? q with
          | none => rfl
          | some u' =>
              obtain ⟨u, hu⟩ := exists_state? (h.closes.size_eq ▸ lt_size hu')
              have htoken := (ha.token_of_targets (ha.pos_of_next ht hq) ht hu (.inr hq)).2
              rw [← htoken, ← (h.closes.state q u u' hu hu').token_eq]
              cases hfinal : u'.isFinal <;> simp [Option.filter, hfinal]

theorem completedToken?_eq_some (h : s.Generates s') (hm : s.automaton.state? m = some t) :
    s'.automaton.completedToken? m = some token ↔
      ∃ q t', t.next = some q ∧ s'.automaton.state? q = some t' ∧ t'.isFinal = true ∧
        t'.token = some token := by
  rw [completedToken?, h.successor?_eq hm]
  simp only [Option.bind_eq_some_iff, Option.filter_eq_some_iff]
  constructor
  · rintro ⟨t', ⟨⟨q, hq, ht'⟩, hfinal⟩, htoken⟩
    exact ⟨q, t', hq, ht', hfinal, htoken⟩
  · rintro ⟨q, t', hq, ht', hfinal, htoken⟩
    exact ⟨t', ⟨⟨q, hq, ht'⟩, hfinal⟩, htoken⟩

/-- The members of every composite are in order. -/
theorem ordered_scanner (h : s.Generates s') (ha : s.automaton.Assembled L) :
    s'.scanner.Ordered := by
  intro i ms hms
  rw [scanner, List.getElem?_toArray, List.getElem?_map, Option.map_eq_some_iff] at hms
  obtain ⟨c, -, rfl⟩ := hms
  refine List.pairwise_map.mpr (pairwise_orderedMembers.imp ?_)
  intro m m' hle token htoken
  rw [h.accepts_scannerMember ha] at htoken
  obtain ⟨token', htoken', hle'⟩ := completedToken?_of_dispatchOrder hle htoken
  exact ⟨token', (h.accepts_scannerMember ha).trans htoken', hle'⟩

end

/-! ### Active composites -/

/-- The composites that are active after a word: those of the states where it arrives. -/
def ActiveAfter (s s' : LexicalState) (w : List Nat) (active : IntervalSet) : Prop :=
  ∀ i, i ∈ active ↔ ∃ q id, Path.Arrives s.automaton.moves initialState w q ∧
    s'.compositeOf? q = some id ∧ s'.indexOf? id = some i

section

variable {w : List Nat} {active : IntervalSet} {m p q c : Nat} {t u : State}

theorem exists_composite (h : s.Generates s') (ha : s.automaton.Assembled L)
    (harr : Path.Arrives s.automaton.moves initialState w q) :
    ∃ t' id, s'.automaton.state? q = some t' ∧ s'.compositeOf? q = some id ∧
      s'.composites[id]? = some t'.epsilon := by
  have hlt := ha.lt_size_of_path ha.size_pos (Path.iff_arrives.mpr ⟨q, harr, .refl q⟩)
  obtain ⟨t', ht'⟩ := exists_state? (h.closes.size_eq ▸ hlt)
  obtain ⟨id, hid, hmembers⟩ := h.composite q t' ht'
  exact ⟨t', id, ht', hid, hmembers⟩

/-- The members of a composite are the states with ranges that are reached without a character. -/
theorem mem_epsilon_iff (h : s.Generates s') (ht : s'.automaton.state? p = some t) :
    m ∈ t.epsilon ↔ Path s.automaton.moves p [] m ∧
      ∃ u, s.automaton.state? m = some u ∧ u.ranges ≠ [] := by
  obtain ⟨t₀, ht₀⟩ := exists_state? (h.closes.size_eq ▸ lt_size ht)
  exact (h.closes.state p t₀ t ht₀ ht).mem_epsilon m

theorem ranges_ne_nil (hasc : Ascending u.ranges) (hc : u.accepts c = true) : u.ranges ≠ [] := by
  intro hnil
  rw [State.accepts_iff hasc, hnil] at hc
  exact Covers.nil hc

/-- Where a word arrives, the composite is found from the one of state 0. -/
theorem reach_of_arrives (h : s.Generates s') (ha : s.automaton.Assembled L) {start id : Nat}
    (hstart : s'.compositeOf? initialState = some start)
    (harr : Path.Arrives s.automaton.moves initialState w q) (hid : s'.compositeOf? q = some id) :
    Relation.ReflTransGen s'.Follows start id := by
  induction w using List.reverseRecOn generalizing q id with
  | nil =>
      obtain rfl := Path.arrives_nil.mp harr
      obtain rfl := Option.some.inj (hstart.symm.trans hid)
      exact .refl
  | append_singleton w c ih =>
      obtain ⟨p, m, harr', path, u, hu, hc, hnext⟩ := Path.arrives_concat.mp harr
      obtain ⟨t', id', ht', hid', hmembers⟩ := h.exists_composite ha harr'
      refine (ih harr' hid').tail ⟨t'.epsilon, hmembers, List.mem_filterMap.mpr ⟨m, ?_, ?_⟩⟩
      · exact (h.mem_epsilon_iff ht').mpr ⟨path, u, hu, ranges_ne_nil (ha.ascending hu) hc⟩
      · obtain ⟨u', hu', hclose⟩ := h.closes.exists_state hu
        rw [hu', Option.bind_some, hclose.next_eq, hnext, Option.bind_some, hid]

/-- The members that match a character after a word are the states that are reached from where the
word arrives and move on the character. -/
theorem exists_hit_iff (h : s.Generates s') (ha : s.automaton.Assembled L)
    (hactive : ActiveAfter s s' w active) (P : Member → Prop) :
    (∃ i ∈ active, ∃ mem ∈ s'.scanner.hits c i, P mem) ↔
      ∃ p m u, Path.Arrives s.automaton.moves initialState w p ∧ Path s.automaton.moves p [] m ∧
        s.automaton.state? m = some u ∧ u.accepts c = true ∧ P (s'.scannerMember m) := by
  constructor
  · rintro ⟨i, hi, mem, hmem, hP⟩
    obtain ⟨p, id, harr, hid, hindex⟩ := (hactive i).mp hi
    obtain ⟨t', id', ht', hid', hmembers⟩ := h.exists_composite ha harr
    obtain rfl := Option.some.inj (hid.symm.trans hid')
    obtain ⟨ms, hms, hmem, hmoves⟩ := Scanner.mem_hits.mp hmem
    obtain rfl := Option.some.inj (hms.symm.trans (h.getElem?_scanner hindex hmembers))
    obtain ⟨m, hm, rfl⟩ := List.mem_map.mp hmem
    obtain ⟨path, u, hu, -⟩ := (h.mem_epsilon_iff ht').mp (mem_orderedMembers.mp hm)
    exact ⟨p, m, u, harr, path, hu,
      (h.moves_scannerMember hu (ha.ascending hu)).mp hmoves, hP⟩
  · rintro ⟨p, m, u, harr, path, hu, hc, hP⟩
    have hasc := ha.ascending hu
    obtain ⟨t', id, ht', hid, hmembers⟩ := h.exists_composite ha harr
    have hm : m ∈ t'.epsilon :=
      (h.mem_epsilon_iff ht').mpr ⟨path, u, hu, ranges_ne_nil hasc hc⟩
    obtain ⟨-, start, -, hstart, -⟩ := h.exists_composite ha .start
    obtain ⟨i, hi⟩ := Option.isSome_iff_exists.mp (h.indexed start id _ hstart
      (h.reach_of_arrives ha hstart harr hid) hmembers (List.ne_nil_of_mem hm))
    refine ⟨i, (hactive i).mpr ⟨p, id, harr, hid, hi⟩, _, Scanner.mem_hits.mpr
      ⟨_, h.getElem?_scanner hi hmembers, List.mem_map_of_mem (mem_orderedMembers.mpr hm), ?_⟩, hP⟩
    exact (h.moves_scannerMember hu hasc).mpr hc

/-- A word is accepted if its last character leads to a state that closing made final. -/
theorem accepts_concat_iff (h : s.Generates s') (ha : s.automaton.Assembled L) {token : Nat} :
    s.automaton.Accepts initialState token (w ++ [c]) ↔
      ∃ p m u, Path.Arrives s.automaton.moves initialState w p ∧ Path s.automaton.moves p [] m ∧
        s.automaton.state? m = some u ∧ u.accepts c = true ∧
          s'.automaton.completedToken? m = some token := by
  constructor
  · rintro ⟨f, sf, path, hf, hfinal, htoken⟩
    obtain ⟨m, q, first, ⟨u, hu, hc, hnext⟩, last⟩ := path.exists_of_concat
    obtain ⟨p, harr, hpm⟩ := Path.iff_arrives.mp first
    obtain ⟨t, ht⟩ := exists_state? (ha.lt_of_targets hu (.inr hnext)).2
    obtain ⟨t', ht', hclose⟩ := h.closes.exists_state ht
    refine ⟨p, m, u, harr, hpm, hu, hc,
      (h.completedToken?_eq_some hu).mpr ⟨q, t', hnext, ht', ?_, ?_⟩⟩
    · exact hclose.final_iff.mpr ⟨f, sf, last, hf, hfinal⟩
    · have hq := (ha.lt_of_targets hu (.inr hnext)).1
      rw [hclose.token_eq, ← ha.token_of_path hq ht hf last, htoken]
  · rintro ⟨p, m, u, harr, hpm, hu, hc, hcompleted⟩
    obtain ⟨q, t', hnext, ht', hfinal, htoken⟩ := (h.completedToken?_eq_some hu).mp hcompleted
    obtain ⟨t, ht⟩ := exists_state? (h.closes.size_eq ▸ lt_size ht')
    have hclose := h.closes.state q t t' ht ht'
    obtain ⟨f, sf, last, hf, hfinal'⟩ := hclose.final_iff.mp hfinal
    have hq := (ha.lt_of_targets hu (.inr hnext)).1
    have first : Path s.automaton.moves initialState w m := Path.iff_arrives.mpr ⟨p, harr, hpm⟩
    refine ⟨f, sf, first.trans (.char ⟨u, hu, hc, hnext⟩ last), hf, hfinal', ?_⟩
    rw [ha.token_of_path hq ht hf last, ← hclose.token_eq, htoken]

/-- The scanner keeps to the states where the words arrive. -/
theorem tracks (h : s.Generates s') (ha : s.automaton.Assembled L) :
    s'.scanner.Tracks (fun w token => s.automaton.Accepts initialState token w)
      (ActiveAfter s s') where
  step w active c hactive j := by
    rw [Scanner.mem_step, h.exists_hit_iff ha hactive fun mem => mem.next = some j]
    constructor
    · rintro ⟨p, m, u, harr, path, hu, hc, hnext⟩
      obtain ⟨q, id, hq, hid, hj⟩ := (h.next_scannerMember hu).mp hnext
      exact ⟨q, id, Path.arrives_concat.mpr ⟨p, m, harr, path, u, hu, hc, hq⟩, hid, hj⟩
    · rintro ⟨q, id, harr, hid, hj⟩
      obtain ⟨p, m, harr', path, u, hu, hc, hq⟩ := Path.arrives_concat.mp harr
      exact ⟨p, m, u, harr', path, hu, hc, (h.next_scannerMember hu).mpr ⟨q, id, hq, hid, hj⟩⟩
  token w active c hactive := by
    apply (Scanner.leastOf_step (h.ordered_scanner ha)).congr
    intro token
    rw [h.exists_hit_iff ha hactive fun mem => mem.accepts = some token, h.accepts_concat_iff ha]
    simp only [h.accepts_scannerMember ha]
  stop w active hactive hempty v token hv := by
    rintro ⟨f, -, path, -⟩
    obtain ⟨c, v, rfl⟩ := List.exists_cons_of_ne_nil hv
    rw [List.append_cons] at path
    obtain ⟨_, first, -⟩ := path.exists_of_append
    obtain ⟨m, q, first, ⟨u, hu, hc, -⟩, -⟩ := first.exists_of_concat
    obtain ⟨p, harr, hpm⟩ := Path.iff_arrives.mp first
    obtain ⟨i, hi, -⟩ := (h.exists_hit_iff ha hactive fun _ => True).mpr
      ⟨p, m, u, harr, hpm, hu, hc, trivial⟩
    exact IntervalSet.not_mem_of_isEmpty hempty hi

/-- The scanner finds the longest prefix that is accepted, and the lowest token that accepts it. -/
theorem longestOf_longestMatch (h : s.Generates s') (ha : s.automaton.Assembled L)
    (text : List Char) :
    LongestOf (fun w token => L token w) text (s'.scanner.longestMatch text) := by
  obtain ⟨t', start, ht', hstart, hmembers⟩ := h.exists_composite ha .start
  have hfound := h.getElem?_scanner (h.start start hstart) hmembers
  have haccepts : (fun w token => L token w) =
      fun w token => s.automaton.Accepts initialState token w := by
    funext w token
    exact propext (ha.accepts_iff token w).symm
  rw [haccepts]
  refine Scanner.longestOf_longestMatch (h.tracks ha) ?_ ?_ text
  · have := (Array.getElem?_eq_some_iff.mp hfound).1
    omega
  · intro i
    rw [IntervalSet.mem_insert]
    constructor
    · rintro (rfl | hi)
      · exact ⟨initialState, start, .start, hstart, h.start start hstart⟩
      · exact absurd hi IntervalSet.not_mem_empty
    · rintro ⟨q, id, harr, hid, hi⟩
      obtain rfl := Path.arrives_nil.mp harr
      exact .inl (Option.some.inj (hi.symm.trans (h.start id hid)))

end

end Generates

/-! ### Processing -/

section

variable {r : TokenRegistry} {config : Config}

/-- The lexical states that declarations make, in any number and order. -/
inductive Declared : LexicalState → Prop
  | new (name : String) (isDefault : Bool) : Declared (new name isDefault)
  | addProduction {s : LexicalState} (h : Declared s) (p : TokenProduction) :
      Declared (s.addProduction p)
  | addImplicitLiteral {s : LexicalState} (h : Declared s) (token : Nat) :
      Declared (s.addImplicitLiteral token)
  | claimLiteral {s : LexicalState} (h : Declared s) (image : String) (token : Nat)
      (ignoreCase : Bool) : Declared (s.claimLiteral image token ignoreCase).2

/-- A lexical state of which nothing was built. -/
structure Unbuilt (s : LexicalState) : Prop where
  automaton_eq : s.automaton = ({} : Automaton).addState none
  dispatch_eq : s.dispatch = none

theorem Declared.unbuilt (h : s.Declared) : s.Unbuilt := by
  induction h with
  | new => exact ⟨rfl, rfl⟩
  | addProduction _ _ ih => exact ⟨ih.automaton_eq, ih.dispatch_eq⟩
  | @addImplicitLiteral s _ token ih =>
      obtain ⟨tokens, heq⟩ := s.addImplicitLiteral_eq token
      exact heq ▸ ⟨ih.automaton_eq, ih.dispatch_eq⟩
  | @claimLiteral s _ image token ignoreCase ih =>
      obtain ⟨exact, folded, heq⟩ := s.claimLiteral_eq image token ignoreCase
      exact heq ▸ ⟨ih.automaton_eq, ih.dispatch_eq⟩

/-- Processing for the first time carries out the plan and generates the dispatch. -/
theorem process_eq_ok (hs : s.dispatch = none) (h : process r config s = .ok () s') :
    ∃ s₁, (s.plan r config).forM (runStep r) s = .ok () s₁ ∧ s₁.Generates s' := by
  rw [process_eq, Checked.run_get_bind, isProcessed, hs] at h
  obtain ⟨⟨⟩, s₁, hrun, h⟩ := Checked.run_bind_eq_ok.mp h
  rw [Checked.run_modify_bind, Checked.run_get_bind] at h
  refine ⟨s₁, hrun, ?_⟩
  cases hgen : s₁.reported.generate with
  | ok s₂ =>
      rw [hgen] at h
      obtain ⟨-, rfl⟩ := EStateM.Result.ok.inj h
      exact (generates_of_generate hgen).of_reported
  | error e =>
      rw [hgen] at h
      exact absurd h Checked.run_throw_ne_ok

/-- After the first processing, the scanner finds the longest text that a built token matches. -/
theorem longestOf_process (hs : s.Unbuilt) (h : process r config s = .ok () s') (text : List Char) :
    LongestOf (fun w token => Matching r ((s.plan r config).filterMap BuildStep.token?) token w)
      text (s'.scanner.longestMatch text) := by
  obtain ⟨s₁, hrun, hgen⟩ := process_eq_ok hs.dispatch_eq h
  have ha : s.automaton.Assembled fun _ _ => False := hs.automaton_eq ▸ .new
  have ha₁ := (assembled_of_run ha hrun).congr fun _ _ => by rw [false_or]
  exact hgen.longestOf_longestMatch ha₁ text

theorem longestMatch_eq_none_iff (hs : s.Unbuilt) (h : process r config s = .ok () s')
    {text : List Char} : s'.scanner.longestMatch text = none ↔
      ∀ pre token, pre <+: text → pre ≠ [] → ¬ s.Recognizes r config token pre := by
  have hlongest := longestOf_process hs h text
  constructor
  · intro hnone pre token hpre hne hrec
    rw [hnone] at hlongest
    exact hlongest pre token hpre hne (matching_plan_iff.mpr hrec)
  · intro hno
    cases hm : s'.scanner.longestMatch text with
    | none => rfl
    | some m =>
        rw [hm] at hlongest
        obtain ⟨pre, hpre, hne, -, ⟨hmatch, -⟩, -⟩ := hlongest
        exact absurd (matching_plan_iff.mp hmatch) (hno pre m.token hpre hne)

/-- What a match is: a prefix that is not empty, the bytes that it takes, the lowest token that
matches it, and no longer prefix that any token matches. -/
theorem of_longestMatch_eq_some (hs : s.Unbuilt) (h : process r config s = .ok () s')
    {text : List Char} {m : ScanMatch} (hm : s'.scanner.longestMatch text = some m) :
    ∃ pre, pre <+: text ∧ pre ≠ [] ∧ m.length = byteLength pre ∧
      s.Recognizes r config m.token pre ∧
        (∀ token, s.Recognizes r config token pre → m.token ≤ token) ∧
          ∀ pre' token, pre' <+: text → s.Recognizes r config token pre' → pre' <+: pre := by
  have hlongest := longestOf_process hs h text
  rw [hm] at hlongest
  obtain ⟨pre, hpre, hne, hlength, ⟨hmatch, hleast⟩, hlonger⟩ := hlongest
  refine ⟨pre, hpre, hne, hlength, matching_plan_iff.mp hmatch, ?_, ?_⟩
  · exact fun token hrec => hleast token (matching_plan_iff.mpr hrec)
  · intro pre' token hpre' hrec
    refine List.prefix_of_prefix_length_le hpre' hpre (Nat.le_of_not_lt fun hlt => ?_)
    exact hlonger pre' token hpre' hlt (matching_plan_iff.mpr hrec)

/-- A lexical state recognizes what its built tokens match: the scanner has no match if no prefix
but the empty one is matched by a built token, and else it takes the longest such prefix, counted in
bytes, for the lowest of the tokens that match it. -/
theorem longestMatch_process (s s' : LexicalState) (r : TokenRegistry) (config : Config)
    (text : String) (hs : s.Declared) (h : process r config s = .ok () s') :
    (s'.scanner.longestMatch text.toList = none ↔
      ∀ pre token, pre <+: text.toList → pre ≠ [] → ¬ s.Recognizes r config token pre) ∧
    ∀ m, s'.scanner.longestMatch text.toList = some m →
      ∃ pre, pre <+: text.toList ∧ pre ≠ [] ∧
        m.length = (String.ofList pre).utf8ByteSize ∧
        s.Recognizes r config m.token pre ∧
        (∀ token, s.Recognizes r config token pre → m.token ≤ token) ∧
        ∀ pre' token, pre' <+: text.toList → s.Recognizes r config token pre' →
          pre' <+: pre ∧ (String.ofList pre').utf8ByteSize ≤ (String.ofList pre).utf8ByteSize := by
  refine ⟨longestMatch_eq_none_iff hs.unbuilt h, ?_⟩
  intro m hm
  obtain ⟨pre, hpre, hne, hlength, hrec, hleast, hlongest⟩ :=
    of_longestMatch_eq_some hs.unbuilt h hm
  refine ⟨pre, hpre, hne, hlength.trans (byteLength_eq pre), hrec, hleast, ?_⟩
  intro pre' token hpre' hrec'
  have hshorter := hlongest pre' token hpre' hrec'
  refine ⟨hshorter, ?_⟩
  obtain ⟨rest, hrest⟩ := hshorter
  rw [← byteLength_eq, ← byteLength_eq, ← hrest, byteLength_append]
  exact Nat.le_add_right _ _

/-- A keyword and an identifier: both tokens match `if`, and the scanner has a match of `if(`. -/
theorem longestMatch_process_keyword : ∃ (s s' : LexicalState) (r : TokenRegistry),
    s.Declared ∧ process r {} s = .ok () s' ∧ s.Recognizes r {} 1 "if".toList ∧
      s'.scanner.longestMatch "if(".toList ≠ none := by
  let r := (TokenRegistry.new.register { pattern := .literal "if" }).register
    { pattern := .oneOrMore (.charClass { ranges := [⟨97, 122⟩] }) }
  let s := ((new "DEFAULT" true).claimLiteral "if" 1 false).2.addProduction
    { specs := [{ token := 1 }, { token := 2 }] }
  have hs : s.Declared := ((Declared.new "DEFAULT" true).claimLiteral "if" 1 false).addProduction _
  obtain ⟨⟨⟩, s', h⟩ : ∃ a s', process r {} s = .ok a s' :=
    Checked.exists_of_succeeds (by cbv)
  have hrec : s.Recognizes r {} 1 "if".toList := by
    refine ⟨false, _, ⟨_, rfl, rfl, .inr ⟨rfl, ?_, ?_⟩⟩, rfl,
      .literal (.cons (.inl rfl) (.cons (.inl rfl) .nil))⟩
    · exact ⟨_, List.mem_singleton_self _, List.mem_cons_self, rfl⟩
    · intro image owner hp ho
      obtain rfl := Pattern.literal.inj hp
      exact (Option.some.inj ho).symm
  obtain ⟨hnone, -⟩ := longestMatch_process s s' r {} "if(" hs h
  exact ⟨s, s', r, hs, h, hrec, fun hno => hnone.mp hno "if".toList 1 (by decide) (by decide) hrec⟩

end

end LexicalState

end ScannerTables
