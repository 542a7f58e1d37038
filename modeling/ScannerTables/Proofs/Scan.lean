import Mathlib.Data.String.Basic
import ScannerTables.Scan.Scanner
/-!
# Longest matches

When a scanner finds the longest match of a text. `Scanner.Tracks` is what its steps must keep: the
active composites of a word lead on to those of the word with one more character, the token that the
step completes is the lowest that accepts the longer word, and once no composite is active nothing
longer is accepted. The scanner then answers with the longest accepted prefix and its lowest token,
whatever comes to be accepted by whatever tokens.
-/

namespace ScannerTables

/-! ### Bytes -/

/-- The number of bytes that characters take in UTF-8. -/
def byteLength (text : List Char) : Nat := text.foldr (fun c n => c.utf8Size + n) 0

theorem byteLength_cons (c : Char) (text : List Char) :
    byteLength (c :: text) = c.utf8Size + byteLength text := rfl

theorem byteLength_append (u v : List Char) :
    byteLength (u ++ v) = byteLength u + byteLength v := by
  induction u with
  | nil => exact (Nat.zero_add _).symm
  | cons c u ih => rw [List.cons_append, byteLength_cons, byteLength_cons, ih, Nat.add_assoc]

theorem byteLength_pos {text : List Char} (h : text ≠ []) : 0 < byteLength text := by
  obtain ⟨c, text, rfl⟩ := List.exists_cons_of_ne_nil h
  have := c.utf8Size_pos
  rw [byteLength_cons]
  omega

/-- Characters take as many bytes as the string that they make. -/
theorem byteLength_eq (text : List Char) : byteLength text = (String.ofList text).utf8ByteSize := by
  rw [String.utf8ByteSize_ofList]
  induction text with
  | nil => rfl
  | cons c text ih =>
      rw [String.utf8Len_cons, ← ih, byteLength_cons, Nat.add_comm]

/-! ### Lowest tokens -/

/-- The lowest number with a property, if some number has it. -/
def LeastOf (P : Nat → Prop) : Option Nat → Prop
  | none => ∀ n, ¬ P n
  | some n => P n ∧ ∀ m, P m → n ≤ m

theorem LeastOf.congr {P Q : Nat → Prop} {o : Option Nat} (h : LeastOf P o)
    (hPQ : ∀ n, P n ↔ Q n) : LeastOf Q o := by
  obtain rfl : P = Q := funext fun n => propext (hPQ n)
  exact h

theorem leastOf_min? (l : List Nat) : LeastOf (· ∈ l) l.min? := by
  cases h : l.min? with
  | none =>
      intro n hn
      rw [List.min?_eq_none_iff.mp h] at hn
      exact absurd hn List.not_mem_nil
  | some n => exact List.min?_eq_some_iff.mp h

/-- The last of descending numbers is the lowest. -/
theorem leastOf_getLast? {l : List Nat} (h : l.Pairwise (· ≥ ·)) : LeastOf (· ∈ l) l.getLast? := by
  rcases List.eq_nil_or_concat l with rfl | ⟨l, n, rfl⟩
  · exact fun n => List.not_mem_nil
  · rw [List.concat_eq_append] at h ⊢
    rw [List.getLast?_concat]
    refine ⟨by simp, ?_⟩
    intro m hm
    rcases List.mem_append.mp hm with hm | hm
    · exact (List.pairwise_append.mp h).2.2 m hm n (List.mem_singleton_self n)
    · exact Nat.le_of_eq (List.mem_singleton.mp hm).symm

/-- The least of the least numbers of several properties is the least with any of them. -/
theorem LeastOf.min? {α : Type} {l : List α} {P : α → Nat → Prop} {f : α → Option Nat}
    (h : ∀ x ∈ l, LeastOf (P x) (f x)) :
    LeastOf (fun n => ∃ x ∈ l, P x n) (l.filterMap f).min? := by
  have hmin := leastOf_min? (l.filterMap f)
  cases ho : (l.filterMap f).min? with
  | none =>
      rw [ho] at hmin
      rintro n ⟨x, hx, hn⟩
      have hle := h x hx
      cases hf : f x with
      | none => exact (hf ▸ hle) n hn
      | some m => exact hmin m (List.mem_filterMap.mpr ⟨x, hx, hf⟩)
  | some n =>
      rw [ho] at hmin
      obtain ⟨hmem, hleast⟩ := hmin
      obtain ⟨x, hx, hf⟩ := List.mem_filterMap.mp hmem
      have hx' := h x hx
      rw [hf] at hx'
      refine ⟨⟨x, hx, hx'.1⟩, ?_⟩
      rintro m ⟨y, hy, hm⟩
      have hy' := h y hy
      cases hfy : f y with
      | none => exact absurd hm ((hfy ▸ hy') m)
      | some k =>
          rw [hfy] at hy'
          exact Nat.le_trans (hleast k (List.mem_filterMap.mpr ⟨y, hy, hfy⟩)) (hy'.2 m hm)

/-! ### Accepted prefixes -/

/-- The longest accepted prefix of a text that is not empty, by the bytes that it takes, with the
lowest token that accepts it. -/
def LongestOf (accepts : List Nat → Nat → Prop) (text : List Char) : Option ScanMatch → Prop
  | none => ∀ pre t, pre <+: text → pre ≠ [] → ¬ accepts (pre.map Char.toNat) t
  | some m => ∃ pre, pre <+: text ∧ pre ≠ [] ∧ m.length = byteLength pre ∧
      LeastOf (accepts (pre.map Char.toNat)) (some m.token) ∧
      ∀ pre' t, pre' <+: text → pre.length < pre'.length → ¬ accepts (pre'.map Char.toNat) t

namespace LongestOf

variable {accepts : List Nat → Nat → Prop} {w v : List Char} {c : Char} {best : Option ScanMatch}

theorem nil : LongestOf accepts [] none := fun _ _ hpre hne => absurd (List.prefix_nil.mp hpre) hne

/-- Where no longer prefix is accepted, the match stays. -/
theorem append (h : LongestOf accepts w best)
    (hv : ∀ pre t, pre <+: w ++ v → w.length < pre.length → ¬ accepts (pre.map Char.toNat) t) :
    LongestOf accepts (w ++ v) best := by
  have old : ∀ pre, pre <+: w ++ v → pre.length ≤ w.length → pre <+: w := fun pre hpre hle =>
    List.prefix_of_prefix_length_le hpre (List.prefix_append w v) hle
  cases best with
  | none =>
      intro pre t hpre hne
      by_cases hle : pre.length ≤ w.length
      · exact h pre t (old pre hpre hle) hne
      · exact hv pre t hpre (Nat.lt_of_not_le hle)
  | some m =>
      obtain ⟨pre, hpre, hne, hlength, hleast, hlonger⟩ := h
      have hprefix : pre <+: w ++ v := hpre.trans (List.prefix_append w v)
      refine ⟨pre, hprefix, hne, hlength, hleast, fun pre' t hpre' hlt => ?_⟩
      by_cases hle : pre'.length ≤ w.length
      · exact hlonger pre' t (old pre' hpre' hle) hlt
      · exact hv pre' t hpre' (Nat.lt_of_not_le hle)

/-- One character more: a token that is completed by it is the better match. -/
theorem concat {token : Option Nat} (h : LongestOf accepts w best)
    (htoken : LeastOf (accepts ((w ++ [c]).map Char.toNat)) token) :
    LongestOf accepts (w ++ [c])
      ((token.map fun token => { token, length := byteLength w + c.utf8Size }).or best) := by
  cases token with
  | none =>
      refine h.append fun pre t hpre hlt => ?_
      have hle : (w ++ [c]).length ≤ pre.length := by
        rw [List.length_append, List.length_singleton]
        exact hlt
      rw [hpre.eq_of_length_le hle]
      exact htoken t
  | some token =>
      have hne : w ++ [c] ≠ [] := List.append_ne_nil_of_right_ne_nil w (List.cons_ne_nil c [])
      refine ⟨w ++ [c], List.prefix_refl _, hne, ?_, htoken, fun pre t hpre hlt => ?_⟩
      · exact (byteLength_append w [c]).symm
      · exact absurd hpre.length_le (Nat.not_le_of_lt hlt)

/-- There is one longest match. -/
theorem unique {best' : Option ScanMatch} (h : LongestOf accepts w best)
    (h' : LongestOf accepts w best') : best = best' := by
  cases best with
  | none =>
      cases best' with
      | none => rfl
      | some m' =>
          obtain ⟨pre, hpre, hne, -, ⟨haccepts, -⟩, -⟩ := h'
          exact absurd haccepts (h pre _ hpre hne)
  | some m =>
      obtain ⟨pre, hpre, hne, hlength, ⟨haccepts, hleast⟩, hlonger⟩ := h
      cases best' with
      | none => exact absurd haccepts (h' pre _ hpre hne)
      | some m' =>
          obtain ⟨pre', hpre', -, hlength', ⟨haccepts', hleast'⟩, hlonger'⟩ := h'
          have hle : pre.length ≤ pre'.length :=
            Nat.le_of_not_lt fun hlt => hlonger' pre _ hpre hlt haccepts
          have hge : pre'.length ≤ pre.length :=
            Nat.le_of_not_lt fun hlt => hlonger pre' _ hpre' hlt haccepts'
          obtain rfl : pre = pre' :=
            (List.prefix_of_prefix_length_le hpre hpre' hle).eq_of_length_le hge
          have htoken : m.token = m'.token :=
            Nat.le_antisymm (hleast _ haccepts') (hleast' _ haccepts)
          obtain ⟨token, length⟩ := m
          obtain ⟨token', length'⟩ := m'
          obtain rfl : token = token' := htoken
          obtain rfl : length = length' := hlength.trans hlength'.symm
          rfl

end LongestOf

namespace Scanner

variable {sc : Scanner} {active : IntervalSet} {c i : Nat}

theorem mem_hits {m : Member} : m ∈ sc.hits c i ↔
    ∃ ms, sc.composites[i]? = some ms ∧ m ∈ ms ∧ m.moves c = true := by
  rw [hits, List.mem_filter]
  cases sc.composites[i]? <;> simp

/-- What is active after a step: the composites that follow the members that match. -/
theorem mem_step {j : Nat} : j ∈ (sc.step active c).1 ↔
    ∃ i ∈ active, ∃ m ∈ sc.hits c i, m.next = some j := by
  rw [step, IntervalSet.mem_ofList, List.mem_flatMap]
  simp only [List.mem_map, IntervalSet.mem_toList, List.mem_filterMap]
  constructor
  · rintro ⟨_, ⟨i, hi, rfl⟩, hm⟩
    exact ⟨i, hi, hm⟩
  · rintro ⟨i, hi, hm⟩
    exact ⟨_, ⟨i, hi, rfl⟩, hm⟩

/-- The token of a step is one that some member completes. -/
theorem exists_member_of_step {token : Nat} (h : (sc.step active c).2 = some token) :
    ∃ (i : Nat) (ms : List Member), sc.composites[i]? = some ms ∧
      ∃ m ∈ ms, m.accepts = some token := by
  obtain ⟨members, hmembers, htoken⟩ := List.mem_filterMap.mp (List.min?_mem h)
  obtain ⟨i, -, rfl⟩ := List.mem_map.mp hmembers
  obtain ⟨m, hm, hm'⟩ := List.mem_filterMap.mp (List.mem_of_getLast? htoken)
  obtain ⟨ms, hms, hmem, -⟩ := mem_hits.mp hm
  exact ⟨i, ms, hms, m, hmem, hm'⟩

/-- In each composite, members that complete a token stand after those that complete none, in
descending order of the token. -/
def Ordered (sc : Scanner) : Prop :=
  ∀ (i : Nat) ms, sc.composites[i]? = some ms → ms.Pairwise fun m m' =>
    ∀ t, m.accepts = some t → ∃ t', m'.accepts = some t' ∧ t' ≤ t

theorem leastOf_completed (h : sc.Ordered) :
    LeastOf (fun t => ∃ m ∈ sc.hits c i, m.accepts = some t) (completed (sc.hits c i)) := by
  have hmem : ∀ t, t ∈ (sc.hits c i).filterMap (·.accepts) ↔
      ∃ m ∈ sc.hits c i, m.accepts = some t := fun t => List.mem_filterMap
  refine (leastOf_getLast? ?_).congr hmem
  apply List.pairwise_filterMap.mpr
  have hms : ((sc.composites[i]?).getD []).Pairwise fun m m' =>
      ∀ t, m.accepts = some t → ∃ t', m'.accepts = some t' ∧ t' ≤ t := by
    cases hi : sc.composites[i]? with
    | none => exact .nil
    | some ms => exact h i ms hi
  apply (hms.filter _).imp
  intro _ _ hmm' t ht t' ht'
  obtain ⟨t'', ht'', hle⟩ := hmm' t ht
  obtain rfl : t'' = t' := Option.some.inj (ht''.symm.trans ht')
  exact hle

/-- The token of a step is the lowest that some matching member of an active composite completes. -/
theorem leastOf_step (h : sc.Ordered) : LeastOf
    (fun t => ∃ i ∈ active, ∃ m ∈ sc.hits c i, m.accepts = some t) (sc.step active c).2 := by
  have hleast := LeastOf.min? (l := active.toList.map (sc.hits c)) (f := completed)
    (P := fun ms t => ∃ m ∈ ms, m.accepts = some t) fun ms hms => by
      obtain ⟨i, -, rfl⟩ := List.mem_map.mp hms
      exact leastOf_completed h
  apply hleast.congr
  intro t
  simp only [List.mem_map, IntervalSet.mem_toList]
  constructor
  · rintro ⟨_, ⟨i, hi, rfl⟩, hm⟩
    exact ⟨i, hi, hm⟩
  · rintro ⟨i, hi, hm⟩
    exact ⟨_, ⟨i, hi, rfl⟩, hm⟩

/-- What the active composites of a word must lead to, for the scanner to find longest matches. -/
structure Tracks (sc : Scanner) (accepts : List Nat → Nat → Prop)
    (active : List Nat → IntervalSet → Prop) : Prop where
  step : ∀ w A c, active w A → active (w ++ [c]) (sc.step A c).1
  token : ∀ w A c, active w A → LeastOf (accepts (w ++ [c])) (sc.step A c).2
  stop : ∀ w A, active w A → A.isEmpty = true → ∀ v t, v ≠ [] → ¬ accepts (w ++ v) t

variable {accepts : List Nat → Nat → Prop} {tracked : List Nat → IntervalSet → Prop}

theorem longestFrom_cons {taken : Nat} {best : Option ScanMatch} {ch : Char} {text : List Char} :
    sc.longestFrom active taken best (ch :: text) =
      let best' := ((sc.step active ch.toNat).2.map fun token =>
        { token, length := taken + ch.utf8Size }).or best
      if (sc.step active ch.toNat).1.isEmpty then best'
      else sc.longestFrom (sc.step active ch.toNat).1 (taken + ch.utf8Size) best' text := by
  rw [longestFrom]
  generalize sc.step active ch.toNat = reached
  obtain ⟨next, token⟩ := reached
  cases token <;> rfl

/-- A match that is not the one known before was completed by a step on a character of the text, and
takes the bytes up to there. -/
theorem exists_step_of_longestFrom {taken : Nat} {best : Option ScanMatch} {text : List Char}
    {m : ScanMatch} (h : sc.longestFrom active taken best text = some m) : best = some m ∨
      (∃ active c, (sc.step active c).2 = some m.token) ∧
        ∃ word rest, text = word ++ rest ∧ word ≠ [] ∧ m.length = taken + byteLength word := by
  induction text generalizing active taken best with
  | nil => exact .inl h
  | cons c text ih =>
      rw [longestFrom_cons] at h
      -- what is best after the character was best before or is completed by it
      have hbest : ((sc.step active c.toNat).2.map fun token =>
          { token, length := taken + c.utf8Size }).or best = some m → best = some m ∨
            (∃ active c, (sc.step active c).2 = some m.token) ∧ ∃ word rest,
              c :: text = word ++ rest ∧ word ≠ [] ∧ m.length = taken + byteLength word := by
        intro hb
        cases htoken : (sc.step active c.toNat).2 with
        | none => exact .inl (by simpa [htoken] using hb)
        | some token =>
            obtain rfl : { token, length := taken + c.utf8Size } = m := by simpa [htoken] using hb
            exact .inr ⟨⟨active, c.toNat, htoken⟩, [c], text, rfl, List.cons_ne_nil c [], rfl⟩
      dsimp only at h
      split at h
      · exact hbest h
      · rcases ih h with hb | ⟨hstep, word, rest, rfl, -, hlength⟩
        · exact hbest hb
        · refine .inr ⟨hstep, c :: word, rest, rfl, List.cons_ne_nil c word, ?_⟩
          rw [hlength, byteLength_cons, Nat.add_assoc]

theorem exists_step_of_longestMatch {text : List Char} {m : ScanMatch}
    (h : sc.longestMatch text = some m) : (∃ active c, (sc.step active c).2 = some m.token) ∧
      ∃ word rest, text = word ++ rest ∧ word ≠ [] ∧ m.length = byteLength word := by
  rw [longestMatch] at h
  split at h
  · exact absurd h.symm (Option.some_ne_none m)
  · rcases exists_step_of_longestFrom h with hbest | ⟨hstep, word, rest, htext, hne, hlength⟩
    · exact absurd hbest.symm (Option.some_ne_none m)
    · exact ⟨hstep, word, rest, htext, hne, hlength.trans (Nat.zero_add _)⟩

/-- A match is a word at the start of the text, and its length the bytes that the word takes. -/
theorem exists_append_of_longestMatch {text : List Char} {m : ScanMatch}
    (h : sc.longestMatch text = some m) :
    ∃ word rest, text = word ++ rest ∧ word ≠ [] ∧ m.length = byteLength word :=
  (exists_step_of_longestMatch h).2

theorem length_pos_of_longestMatch {text : List Char} {m : ScanMatch}
    (h : sc.longestMatch text = some m) : 0 < m.length := by
  obtain ⟨word, rest, -, hne, hlength⟩ := exists_append_of_longestMatch h
  rw [hlength]
  exact byteLength_pos hne

/-- The token of a match is one that some member completes. -/
theorem exists_member_of_longestMatch {text : List Char} {m : ScanMatch}
    (h : sc.longestMatch text = some m) : ∃ (i : Nat) (ms : List Member),
      sc.composites[i]? = some ms ∧ ∃ mem ∈ ms, mem.accepts = some m.token := by
  obtain ⟨⟨active, c, hstep⟩, -⟩ := exists_step_of_longestMatch h
  exact exists_member_of_step hstep

theorem longestOf_longestFrom (h : sc.Tracks accepts tracked) {w : List Char}
    {best : Option ScanMatch} (hactive : tracked (w.map Char.toNat) active)
    (hbest : LongestOf accepts w best) (text : List Char) :
    LongestOf accepts (w ++ text) (sc.longestFrom active (byteLength w) best text) := by
  induction text generalizing w active best with
  | nil => simpa [longestFrom] using hbest
  | cons c cs ih =>
      have hmap : (w ++ [c]).map Char.toNat = w.map Char.toNat ++ [c.toNat] := List.map_append
      have hbest' := hbest.concat (hmap ▸ h.token _ active c.toNat hactive)
      have hactive' := hmap ▸ h.step _ active c.toNat hactive
      rw [longestFrom_cons, List.append_cons]
      generalize ((sc.step active c.toNat).2.map _).or best = best' at hbest' ⊢
      split
      · next hempty =>
        -- nothing that goes on behind the character is accepted
        refine hbest'.append fun pre t hpre hlt => ?_
        obtain ⟨v, rfl⟩ := List.prefix_of_prefix_length_le (List.prefix_append (w ++ [c]) cs) hpre
          (Nat.le_of_lt hlt)
        have hv : v.map Char.toNat ≠ [] := by
          intro hnil
          rw [List.map_eq_nil_iff.mp hnil, List.append_nil] at hlt
          exact Nat.lt_irrefl _ hlt
        rw [List.map_append]
        exact h.stop _ _ hactive' hempty _ t hv
      · have hrest := ih hactive' hbest'
        rwa [byteLength_append] at hrest

/-- A scanner that starts with a composite finds the longest match. -/
theorem longestOf_longestMatch (h : sc.Tracks accepts tracked) (hne : sc.composites.size ≠ 0)
    (hstart : tracked [] (IntervalSet.empty.insert 0)) (text : List Char) :
    LongestOf accepts text (sc.longestMatch text) := by
  rw [longestMatch, if_neg (by simpa [Array.isEmpty_iff_size_eq_zero] using hne)]
  exact longestOf_longestFrom h (w := []) hstart .nil text

end Scanner

end ScannerTables
