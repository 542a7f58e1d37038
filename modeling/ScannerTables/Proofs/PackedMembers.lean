import ScannerTables.Interval.Separated
import ScannerTables.Packed.Ranges
import ScannerTables.Proofs.MachineWords
/-!
# The members of packed sets

A packed set is taken for the set of the numbers whose bits are set, and each operation is shown to
answer and to do to the members what it is for: no sum, product or shift in it leaves its range.
-/

namespace ScannerTables

namespace PackedSet

open Machine Checked

/-- True if the bit of a number is set. -/
def holds (s : PackedSet) (n : Nat) : Bool := (s.words[n / 64]?.getD 0).getLsbD (n % 64)

instance : Membership Nat PackedSet := ⟨fun s n => s.holds n = true⟩

variable {s t : PackedSet} {w : Word} {n lo hi limit : UInt32} {i m : Nat}

theorem mem_def : m ∈ s ↔ (s.words[m / 64]?.getD 0).getLsbD (m % 64) = true := Iff.rfl

theorem div_lt_of_mem (h : m ∈ s) : m / 64 < s.words.size := by
  by_contra hge
  rw [mem_def, Array.getElem?_eq_none (by omega), Option.getD_none] at h
  exact absurd h (by simp)

/-- The members are numbers of 32 bits. -/
theorem lt_of_mem (h : m ∈ s) : m < UInt32.size := by
  have hlt := div_lt_of_mem h
  have hle := s.size_le
  rw [wordLimit] at hle
  rw [UInt32.size]
  omega

/-! ### Words -/

theorem getLsbD_word_iff (h : s.words[i]? = some w) (hm : m / 64 = i) :
    w.getLsbD (m % 64) = true ↔ m ∈ s := by
  rw [mem_def, hm, h, Option.getD_some]

theorem exists_word (h : i < s.words.size) : ∃ w, s.word i = .ok w ∧ s.words[i]? = some w := by
  have hsome := Array.getElem?_eq_getElem h
  exact ⟨s.words[i], by rw [word, hsome], hsome⟩

@[simp] theorem size_setWord : (s.setWord i w).words.size = s.words.size :=
  Array.size_setIfInBounds

/-- One word is replaced; it is enough to know its bits and that nothing else is to change. -/
theorem mem_setWord {P : Nat → Prop} (hi : i < s.words.size)
    (hword : ∀ m, m / 64 = i → (w.getLsbD (m % 64) = true ↔ P m))
    (hrest : ∀ m, m / 64 ≠ i → (m ∈ s ↔ P m)) : ∀ m, m ∈ s.setWord i w ↔ P m := by
  intro m
  rw [mem_def, setWord, Array.getElem?_setIfInBounds]
  by_cases h : m / 64 = i
  · rw [if_pos h.symm, if_pos hi, Option.getD_some]
    exact hword m h
  · rw [if_neg (Ne.symm h)]
    exact hrest m h

@[simp] theorem size_resize {size : Nat} {h : size ≤ wordLimit} :
    (s.resize size h).words.size = size := by
  rw [resize, Array.size_append, Array.size_replicate, Array.take_eq_extract, Array.size_extract]
  omega

/-- The words behind the new size are dropped; those that are added have no members. -/
theorem mem_resize {size : Nat} {h : size ≤ wordLimit} :
    m ∈ s.resize size h ↔ m ∈ s ∧ m / 64 < size := by
  have hword : (s.resize size h).words[m / 64]?.getD 0 =
      if m / 64 < size then s.words[m / 64]?.getD 0 else 0 := by
    rw [resize, Array.getElem?_append, Array.take_eq_extract, Array.size_extract,
      Array.getElem?_extract, Array.getElem?_replicate]
    split_ifs <;> first | omega | simp_all
  rw [mem_def, hword]
  split
  · next hlt => simp [mem_def, hlt]
  · next hge => simp [hge]

theorem count_wordIndex (n : UInt32) : count (wordIndex n + 1) = .ok (wordIndex n + 1) := by
  have hlt := wordIndex_lt n
  rw [wordLimit] at hlt
  refine if_pos ?_
  rw [UInt64.size]
  omega

theorem growTo_returns (s : PackedSet) (n : UInt32) : Returns (s.growTo n) fun t =>
    wordIndex n < t.words.size ∧ ∀ m, m ∈ t ↔ m ∈ s := by
  rw [growTo, count_wordIndex, ok_bind]
  split
  · refine .pure ⟨by rw [size_resize]; omega, fun m => ?_⟩
    rw [mem_resize, and_iff_left_iff_imp]
    intro h
    have := div_lt_of_mem h
    omega
  · exact .pure ⟨by omega, fun m => Iff.rfl⟩

theorem mask_eq_ok (n : UInt32) :
    ∃ m, mask n = .ok m ∧ ∀ i, m.getLsbD i = true ↔ i = n.toNat % 64 := by
  have hlt : n % width < width := Nat.mod_lt _ (by decide)
  obtain ⟨m, hm, hbits⟩ := bit_eq_ok hlt
  exact ⟨m, hm, hbits⟩

/-! ### Single numbers -/

/-- A word and the bit of a number in it: they share a bit if the number is a member. -/
theorem and_mask_ne_zero_iff {v : Word} (hw : w.getLsbD (n.toNat % 64) = true ↔ n.toNat ∈ s)
    (hv : ∀ i, v.getLsbD i = true ↔ i = n.toNat % 64) : w &&& v ≠ 0 ↔ n.toNat ∈ s := by
  simp only [and_ne_zero_iff, hv, exists_eq_right, hw]

theorem insertNew_returns (s : PackedSet) (n : UInt32) : Returns (s.insertNew n) fun r =>
    (r.1 = true ↔ n.toNat ∉ s) ∧ ∀ m, m ∈ r.2 ↔ m = n.toNat ∨ m ∈ s := by
  refine (growTo_returns s n).bind fun t ⟨hlt, hmem⟩ => ?_
  obtain ⟨w, hw, hsome⟩ := exists_word hlt
  obtain ⟨v, hv, hmask⟩ := mask_eq_ok n
  rw [hw, ok_bind, hv, ok_bind]
  refine .pure ⟨?_, mem_setWord hlt (fun m hm => ?_) fun m hm => ?_⟩
  · rw [← hmem, beq_iff_eq, ← not_iff_not, not_not]
    exact and_mask_ne_zero_iff (getLsbD_word_iff hsome (wordIndex_eq n).symm) hmask
  · rw [BitVec.getLsbD_or, Bool.or_eq_true, hmask, getLsbD_word_iff hsome hm, hmem, or_comm]
    rw [wordIndex_eq] at hm
    exact or_congr_left (by omega)
  · rw [wordIndex_eq] at hm
    rw [hmem, or_iff_right (by omega)]

/-- Additions one after the other add what each of them adds. -/
theorem foldlM_returns {α : Type} {add : PackedSet → α → Except Trap PackedSet}
    {adds : α → Nat → Prop}
    (hadd : ∀ s a, Returns (add s a) fun t => ∀ m, m ∈ t ↔ adds a m ∨ m ∈ s)
    (s : PackedSet) (l : List α) :
    Returns (l.foldlM add s) fun t => ∀ m, m ∈ t ↔ (∃ a ∈ l, adds a m) ∨ m ∈ s := by
  -- what is left of the list and what the set holds make up the result at any time
  let inv (rest : List α) (t : PackedSet) : Prop :=
    ∀ m, (∃ a ∈ rest, adds a m) ∨ m ∈ t ↔ (∃ a ∈ l, adds a m) ∨ m ∈ s
  have hloop : Returns (l.foldlM add s) (inv []) := by
    refine .foldlM (fun m => Iff.rfl) fun a rest t hinv => ?_
    refine (hadd t a).mono fun u hmem m => ?_
    rw [hmem, ← hinv, List.exists_mem_cons_iff, or_assoc, or_left_comm]
  exact hloop.mono fun t hinv m => by simpa using hinv m

theorem insertAll_returns (s : PackedSet) (l : List UInt32) : Returns (s.insertAll l) fun t =>
    ∀ m, m ∈ t ↔ m ∈ l.map UInt32.toNat ∨ m ∈ s := by
  have hinsert (s : PackedSet) (n : UInt32) :
      Returns (return (← s.insertNew n).2) fun t => ∀ m, m ∈ t ↔ n.toNat = m ∨ m ∈ s :=
    (insertNew_returns s n).bind fun r ⟨_, hmem⟩ => .pure fun m => by rw [hmem, eq_comm]
  refine (foldlM_returns hinsert s l).mono fun t hmem m => ?_
  rw [hmem, List.mem_map]

theorem erase_returns (s : PackedSet) (n : UInt32) : Returns (s.erase n) fun t =>
    ∀ m, m ∈ t ↔ m ∈ s ∧ m ≠ n.toNat := by
  rw [erase]
  split
  · next w hw =>
    obtain ⟨v, hv, hmask⟩ := mask_eq_ok n
    rw [hv, ok_bind]
    have hlt := (Array.getElem?_eq_some_iff.mp hw).1
    refine .pure (mem_setWord hlt (fun m hm => ?_) fun m hm => ?_)
    · have hbit : m % 64 < 64 := Nat.mod_lt _ (by decide)
      rw [BitVec.getLsbD_and, BitVec.getLsbD_not, decide_eq_true hbit, Bool.true_and,
        Bool.and_eq_true, Bool.not_eq_true', ← Bool.not_eq_true, hmask, getLsbD_word_iff hw hm]
      rw [wordIndex_eq] at hm
      exact and_congr_right' (by omega)
    · rw [wordIndex_eq] at hm
      rw [iff_self_and]
      omega
  · next hnone =>
    refine .pure fun m => iff_self_and.mpr ?_
    rintro hmem rfl
    have hlt := div_lt_of_mem hmem
    rw [← wordIndex_eq] at hlt
    exact absurd (Array.getElem?_eq_none_iff.mp hnone) (Nat.not_le.mpr hlt)

theorem contains_eq_ok (s : PackedSet) (n : UInt32) : s.contains n = .ok (s.holds n.toNat) := by
  rw [contains]
  split
  · next w hw =>
    obtain ⟨v, hv, hmask⟩ := mask_eq_ok n
    rw [hv, ok_bind]
    refine congrArg Except.ok (Bool.eq_iff_iff.mpr ?_)
    rw [bne_iff_ne]
    exact and_mask_ne_zero_iff (getLsbD_word_iff hw (wordIndex_eq n).symm) hmask
  · next hnone =>
    rw [wordIndex_eq] at hnone
    rw [holds, hnone, Option.getD_none, BitVec.ofNat_eq_ofNat, BitVec.getLsbD_zero]
    rfl

/-! ### Ranges -/

theorem firstBit_lt (lo : UInt32) (i : Nat) : firstBit lo i < width := by
  rw [firstBit]
  split
  · exact Nat.mod_lt _ (by decide)
  · decide

theorem firstBit_le_iff {b : Nat} (h : wordIndex lo ≤ i) :
    (firstBit lo i).toNat ≤ b ↔ lo.toNat ≤ 64 * i + b := by
  have hmod : (lo % width).toNat = lo.toNat % 64 := UInt32.toNat_mod lo width
  rw [wordIndex_eq] at h
  rw [firstBit, wordIndex_eq]
  split
  · omega
  · rw [UInt32.toNat_zero]
    omega

theorem lastBit_lt (hi : UInt32) (i : Nat) : lastBit hi i < width := by
  rw [lastBit]
  split
  · exact Nat.mod_lt _ (by decide)
  · decide

theorem le_lastBit_iff {b : Nat} (h : i ≤ wordIndex hi) (hb : b < 64) :
    b ≤ (lastBit hi i).toNat ↔ 64 * i + b ≤ hi.toNat := by
  have hmod : (hi % width).toNat = hi.toNat % 64 := UInt32.toNat_mod hi width
  have hlast : (width - 1).toNat = 63 := rfl
  rw [wordIndex_eq] at h
  rw [lastBit, wordIndex_eq]
  split <;> omega

theorem fillWord_returns (hlt : i < s.words.size) (hlo : wordIndex lo ≤ i)
    (hhi : i ≤ wordIndex hi) : Returns (fillWord lo hi s i) fun t =>
      t.words.size = s.words.size ∧
        ∀ m, m ∈ t ↔ (m / 64 = i ∧ lo.toNat ≤ m ∧ m ≤ hi.toNat) ∨ m ∈ s := by
  obtain ⟨w, hw, hsome⟩ := exists_word hlt
  obtain ⟨v, hv, hspan⟩ := span_eq_ok (firstBit_lt lo i) (lastBit_lt hi i)
  rw [fillWord, hw, ok_bind, hv, ok_bind]
  refine .pure ⟨size_setWord, mem_setWord hlt (fun m hm => ?_) fun m hm => ?_⟩
  · have hbit : m % 64 < 64 := Nat.mod_lt _ (by decide)
    have hdiv : 64 * i + m % 64 = m := by rw [← hm, Nat.div_add_mod]
    rw [BitVec.getLsbD_or, Bool.or_eq_true, getLsbD_word_iff hsome hm, hspan _ hbit,
      firstBit_le_iff hlo, le_lastBit_iff hhi hbit, hdiv, or_comm, and_iff_right hm]
  · rw [or_iff_right fun h => hm h.1]

theorem mem_range'_words (h : wordIndex lo ≤ wordIndex hi) :
    i ∈ List.range' (wordIndex lo) (wordIndex hi + 1 - wordIndex lo) ↔
      wordIndex lo ≤ i ∧ i ≤ wordIndex hi := by
  rw [List.mem_range'_1]
  omega

theorem insertRange_returns (s : PackedSet) (lo hi : UInt32) :
    Returns (s.insertRange lo hi) fun t =>
      ∀ m, m ∈ t ↔ (lo.toNat ≤ m ∧ m ≤ hi.toNat) ∨ m ∈ s := by
  rw [insertRange]
  split
  · next hinverted =>
    rw [UInt32.lt_iff_toNat_lt] at hinverted
    exact .pure fun m => by rw [or_iff_right (by omega)]
  next hle =>
  have hwords : wordIndex lo ≤ wordIndex hi := by
    rw [UInt32.lt_iff_toNat_lt, Nat.not_lt] at hle
    rw [wordIndex_eq, wordIndex_eq]
    exact Nat.div_le_div_right hle
  refine (growTo_returns s hi).bind fun t ⟨hlt, hmem⟩ => ?_
  -- what the words that are left still lack and what the set holds make up the result at any time
  let inv (rest : List Nat) (u : PackedSet) : Prop :=
    wordIndex hi < u.words.size ∧ (∀ i ∈ rest, wordIndex lo ≤ i ∧ i ≤ wordIndex hi) ∧
      ∀ m, (m / 64 ∈ rest ∧ lo.toNat ≤ m ∧ m ≤ hi.toNat) ∨ m ∈ u ↔
        (lo.toNat ≤ m ∧ m ≤ hi.toNat) ∨ m ∈ s
  have hstart : inv (List.range' (wordIndex lo) (wordIndex hi + 1 - wordIndex lo)) t := by
    refine ⟨hlt, fun i hi => (mem_range'_words hwords).mp hi, fun m => ?_⟩
    rw [hmem, mem_range'_words hwords, wordIndex_eq, wordIndex_eq, and_iff_right_of_imp]
    exact fun ⟨hlo, hhi⟩ => ⟨Nat.div_le_div_right hlo, Nat.div_le_div_right hhi⟩
  refine (Returns.foldlM hstart fun i rest u ⟨hsize, hrest, hall⟩ => ?_).mono
    fun u ⟨_, _, hall⟩ m => by simpa using hall m
  obtain ⟨⟨hlo, hhi⟩, hrest⟩ := List.forall_mem_cons.mp hrest
  refine (fillWord_returns (Nat.lt_of_le_of_lt hhi hsize) hlo hhi).mono fun v ⟨hsame, hfill⟩ =>
    ⟨hsame ▸ hsize, hrest, fun m => ?_⟩
  rw [hfill, ← hall, List.mem_cons, or_and_right, or_assoc, or_left_comm]

theorem covers_toInterval {l : List Interval32} : Covers (l.map Interval32.toInterval) m ↔
    ∃ i ∈ l, i.lo.toNat ≤ m ∧ m ≤ i.hi.toNat := by
  simp [Covers, Interval.mem_def, Interval32.toInterval]

theorem insertIntervals_returns (s : PackedSet) (l : List Interval32) :
    Returns (s.insertIntervals l) fun t =>
      ∀ m, m ∈ t ↔ Covers (l.map Interval32.toInterval) m ∨ m ∈ s := by
  refine (foldlM_returns (fun s i => insertRange_returns s i.lo i.hi) s l).mono fun t hmem m => ?_
  rw [hmem, covers_toInterval]

/-! ### Whole sets -/

theorem mem_bit_iff {b : Nat} (h : s.words[i]? = some w) (hb : b < 64) :
    64 * i + b ∈ s ↔ w.getLsbD b = true := by
  rw [← getLsbD_word_iff h (by omega), Nat.mul_add_mod, Nat.mod_eq_of_lt hb]

theorem mem_of_bit {b : Nat} (h : s.words[i]? = some w) (hb : w.getLsbD b = true) :
    64 * i + b ∈ s :=
  (mem_bit_iff h (BitVec.lt_of_getLsbD hb)).mpr hb

theorem exists_word_of_mem (h : m ∈ s) :
    ∃ w, s.words[m / 64]? = some w ∧ w.getLsbD (m % 64) = true := by
  have hsome := Array.getElem?_eq_getElem (div_lt_of_mem h)
  exact ⟨_, hsome, (getLsbD_word_iff hsome rfl).mpr h⟩

@[simp] theorem not_mem_empty : m ∉ (∅ : PackedSet) := fun h =>
  absurd (div_lt_of_mem h) (Nat.not_lt_zero _)

theorem ofList_returns (l : List UInt32) : Returns (ofList l) fun t =>
    ∀ m, m ∈ t ↔ m ∈ l.map UInt32.toNat :=
  (insertAll_returns ∅ l).mono fun t hmem m => by simpa using hmem m

theorem ofIntervals_returns (l : List Interval32) : Returns (ofIntervals l) fun t =>
    ∀ m, m ∈ t ↔ Covers (l.map Interval32.toInterval) m :=
  (insertIntervals_returns ∅ l).mono fun t hmem m => by simpa using hmem m

theorem withCapacity_returns (n : UInt32) : Returns (withCapacity n) fun t => ∀ m, m ∉ t := by
  rw [withCapacity, count_wordIndex, ok_bind]
  exact .pure fun m hm => not_mem_empty (mem_resize.mp hm).1

@[simp] theorem not_mem_clear : m ∉ s.clear := by
  rw [mem_def, clear, Array.getElem?_map]
  cases s.words[m / 64]? <;> simp

theorem isEmpty_iff : s.isEmpty = true ↔ ∀ m, m ∉ s := by
  rw [isEmpty, Array.all_eq_true]
  constructor
  · intro h m hm
    obtain ⟨w, hw, hbit⟩ := exists_word_of_mem hm
    obtain ⟨hlt, rfl⟩ := Array.getElem?_eq_some_iff.mp hw
    exact ne_zero_iff.mpr ⟨_, hbit⟩ (beq_iff_eq.mp (h _ hlt))
  · intro h i hi
    rw [beq_iff_eq]
    by_contra hne
    obtain ⟨b, hb⟩ := ne_zero_iff.mp hne
    exact h _ (mem_of_bit (Array.getElem?_eq_getElem hi) hb)

@[simp] theorem mem_inter : m ∈ s.inter t ↔ m ∈ s ∧ m ∈ t := by
  rw [mem_def, inter, Array.getElem?_mapIdx, mem_def, mem_def]
  cases s.words[m / 64]? <;> simp

/-- Some pair of words at one position has a property. -/
theorem any_zip_iff {p : Word → Word → Bool} :
    ((s.words.zip t.words).any fun x => p x.1 x.2) = true ↔
      ∃ (i : Nat) (w v : Word), s.words[i]? = some w ∧ t.words[i]? = some v ∧ p w v = true := by
  rw [Array.any_eq_true']
  constructor
  · rintro ⟨x, hx, hp⟩
    obtain ⟨i, hi⟩ := Array.mem_iff_getElem?.mp hx
    obtain ⟨hw, hv⟩ := Array.getElem?_zip_eq_some.mp hi
    exact ⟨i, x.1, x.2, hw, hv, hp⟩
  · rintro ⟨i, w, v, hw, hv, hp⟩
    exact ⟨(w, v), Array.mem_iff_getElem?.mpr ⟨i, Array.getElem?_zip_eq_some.mpr ⟨hw, hv⟩⟩, hp⟩

theorem intersects_iff : s.intersects t = true ↔ ∃ m, m ∈ s ∧ m ∈ t := by
  refine (any_zip_iff (p := fun w v => w &&& v != 0)).trans ⟨?_, ?_⟩
  · rintro ⟨i, w, v, hw, hv, hne⟩
    obtain ⟨b, hbw, hbv⟩ := and_ne_zero_iff.mp (bne_iff_ne.mp hne)
    exact ⟨_, mem_of_bit hw hbw, mem_of_bit hv hbv⟩
  · rintro ⟨m, hs, ht⟩
    obtain ⟨w, hw, hbw⟩ := exists_word_of_mem hs
    obtain ⟨v, hv, hbv⟩ := exists_word_of_mem ht
    exact ⟨_, w, v, hw, hv, bne_iff_ne.mpr (and_ne_zero_iff.mpr ⟨_, hbw, hbv⟩)⟩

/-- The set to which the members of `t` are added, with a word for each of theirs. -/
theorem grown_spec (s t : PackedSet) :
    let u := if s.words.size < t.words.size then s.resize t.words.size t.size_le else s
    t.words.size ≤ u.words.size ∧ ∀ m, m ∈ u ↔ m ∈ s := by
  split
  · next hlt =>
    refine ⟨Nat.le_of_eq size_resize.symm, fun m => ?_⟩
    rw [mem_resize, and_iff_left_iff_imp]
    exact fun h => Nat.lt_trans (div_lt_of_mem h) hlt
  · next hge => exact ⟨Nat.not_lt.mp hge, fun m => Iff.rfl⟩

theorem mem_unionNew : m ∈ (s.unionNew t).2 ↔ m ∈ s ∨ m ∈ t := by
  obtain ⟨hsize, hmem⟩ := grown_spec s t
  rw [← hmem, mem_def, unionNew, Array.getElem?_mapIdx]
  generalize (if s.words.size < t.words.size then s.resize t.words.size t.size_le else s) = u at *
  rw [mem_def, mem_def]
  by_cases hm : m / 64 < u.words.size
  · simp [hm]
  · rw [Array.getElem?_eq_none (Nat.not_lt.mp hm),
      Array.getElem?_eq_none (Nat.le_trans hsize (Nat.not_lt.mp hm))]
    simp

theorem unionNew_fst : (s.unionNew t).1 = true ↔ ∃ m, m ∈ t ∧ m ∉ s := by
  obtain ⟨hsize, hmem⟩ := grown_spec s t
  simp only [unionNew, ← hmem]
  generalize (if s.words.size < t.words.size then s.resize t.words.size t.size_le else s) = u at *
  refine (any_zip_iff (p := fun w v => w ||| v != w)).trans ⟨?_, ?_⟩
  · rintro ⟨i, w, v, hw, hv, hne⟩
    obtain ⟨b, hbv, hbw⟩ := or_ne_left_iff.mp (bne_iff_ne.mp hne)
    have hlt : b < 64 := BitVec.lt_of_getLsbD hbv
    exact ⟨64 * i + b, mem_of_bit hv hbv, fun hu => hbw ((mem_bit_iff hw hlt).mp hu)⟩
  · rintro ⟨m, ht, hu⟩
    obtain ⟨v, hv, hbv⟩ := exists_word_of_mem ht
    obtain ⟨w, _, hw⟩ := exists_word (Nat.lt_of_lt_of_le (div_lt_of_mem ht) hsize)
    refine ⟨_, w, v, hw, hv, bne_iff_ne.mpr (or_ne_left_iff.mpr ⟨_, hbv, ?_⟩)⟩
    exact fun hbw => hu ((getLsbD_word_iff hw rfl).mp hbw)

theorem complementWithin_returns (s : PackedSet) (h : limit % width = 0) :
    Returns (s.complementWithin limit) fun t => ∀ m, m ∈ t ↔ m < limit.toNat ∧ m ∉ s := by
  rw [complementWithin, if_pos h]
  refine .pure fun m => ?_
  have hlimit : m / 64 < wordIndex limit ↔ m < limit.toNat := by
    have hmod : limit.toNat % 64 = 0 := by
      rw [← UInt32.toNat_inj, UInt32.toNat_mod] at h
      exact h
    rw [wordIndex_eq]
    omega
  have hbit : m % 64 < 64 := Nat.mod_lt _ (by decide)
  rw [mem_def, Array.getElem?_map]
  by_cases hm : m / 64 < wordIndex limit
  · obtain ⟨w, _, hw⟩ := exists_word (s := s.resize (wordIndex limit)
      (Nat.le_of_lt (wordIndex_lt limit))) (i := m / 64) (by rwa [size_resize])
    have hmem := getLsbD_word_iff hw rfl
    rw [mem_resize, and_iff_left hm] at hmem
    rw [hw, Option.map_some, Option.getD_some, BitVec.getLsbD_not, decide_eq_true hbit,
      Bool.true_and, Bool.not_eq_true', ← Bool.not_eq_true, hmem, and_iff_right (hlimit.mp hm)]
  · rw [Array.getElem?_eq_none (by rw [size_resize]; exact Nat.not_lt.mp hm)]
    simp [mt hlimit.mpr hm]

end PackedSet
end ScannerTables
