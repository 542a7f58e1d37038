import Mathlib.Algebra.Ring.Nat
import Mathlib.Data.Finset.Card
import Mathlib.Data.List.DropRight
import ScannerTables.Proofs.PackedMembers
/-!
# Listing, counting and comparing packed sets

The members are listed word by word and within a word from the lowest bit, so that the list ascends.
It is as long as the count of the bits. Without the empty words at the end, the words are determined
by the members.
-/

namespace ScannerTables
namespace PackedSet

open Machine Checked

variable {s t : PackedSet} {w : Word} {ws : List Word} {l : List UInt32} {P : Nat → Prop}

/-- The numbers with a property, in ascending order. -/
structure Listing (l : List UInt32) (P : Nat → Prop) : Prop where
  ascending : l.Pairwise (· < ·)
  mem_iff : ∀ m, m ∈ l.map UInt32.toNat ↔ P m

namespace Listing

theorem nil (h : ∀ m, ¬ P m) : Listing [] P := ⟨.nil, by simpa using h⟩

theorem holds (h : Listing l P) {n : UInt32} (hn : n ∈ l) : P n.toNat :=
  (h.mem_iff _).mp (List.mem_map_of_mem hn)

theorem cons {n : UInt32} {Q : Nat → Prop} (h : Listing l P) (hlt : ∀ m, P m → n.toNat < m)
    (hiff : ∀ m, Q m ↔ m = n.toNat ∨ P m) : Listing (n :: l) Q where
  ascending := List.pairwise_cons.mpr ⟨fun k hk => hlt _ (h.holds hk), h.ascending⟩
  mem_iff m := by rw [List.map_cons, List.mem_cons, h.mem_iff, hiff]

theorem append {l' : List UInt32} {P' Q : Nat → Prop} (h : Listing l P) (h' : Listing l' P')
    (hlt : ∀ m m', P m → P' m' → m < m') (hiff : ∀ m, Q m ↔ P m ∨ P' m) :
    Listing (l ++ l') Q where
  ascending := List.pairwise_append.mpr
    ⟨h.ascending, h'.ascending, fun _ hk _ hk' => hlt _ _ (h.holds hk) (h'.holds hk')⟩
  mem_iff m := by rw [List.map_append, List.mem_append, h.mem_iff, h'.mem_iff, hiff]

/-- A listing is as long as there are numbers. -/
theorem length_eq {F : Finset Nat} (h : Listing l P) (hF : ∀ m, m ∈ F ↔ P m) :
    l.length = F.card := by
  have hnodup : (l.map UInt32.toNat).Nodup :=
    List.Pairwise.map _ (fun a b hab => Nat.ne_of_lt (UInt32.lt_iff_toNat_lt.mp hab)) h.ascending
  have hset : (l.map UInt32.toNat).toFinset = F := by
    ext m
    rw [List.mem_toFinset, h.mem_iff, hF]
  rw [← hset, List.toFinset_card_of_nodup hnodup, List.length_map]

end Listing

/-! ### Listing -/

/-- The numbers listed for a word, for a base that leaves room for all of its bits. -/
theorem numbersFrom_returns {base : UInt32} (h : base.toNat + 64 ≤ UInt32.size) (w : Word) :
    Returns (numbersFrom base w) fun l =>
      Listing l fun m => ∃ b, w.getLsbD b = true ∧ m = base.toNat + b := by
  fun_induction numbersFrom base w with
  | case1 => exact .pure (.nil fun m ⟨b, hb, _⟩ => ne_zero_iff.mpr ⟨b, hb⟩ rfl)
  | case2 w hne ih =>
      obtain ⟨hlowest, hbelow⟩ := trailingZeros_spec hne
      have hbit : (trailingZeros w).toNat < 64 := BitVec.lt_of_getLsbD hlowest
      obtain ⟨n, hn, hnat⟩ := add_eq_ok (a := base) (b := trailingZeros w) (by omega)
      rw [hn, ok_bind]
      refine ih.bind fun l hl => .pure (hl.cons ?_ fun m => ?_)
      · rintro m ⟨b, hb, rfl⟩
        obtain ⟨hset, hne⟩ := (getLsbD_clearLowest _).mp hb
        have hle : (trailingZeros w).toNat ≤ b := by
          by_contra hlt
          exact Bool.false_ne_true ((hbelow b (Nat.not_le.mp hlt)).symm.trans hset)
        omega
      · simp only [getLsbD_clearLowest, hnat]
        constructor
        · rintro ⟨b, hb, rfl⟩
          by_cases hne : b = (trailingZeros w).toNat
          · exact .inl (by rw [hne])
          · exact .inr ⟨b, ⟨hb, hne⟩, rfl⟩
        · rintro (rfl | ⟨b, ⟨hb, -⟩, rfl⟩)
          · exact ⟨_, hlowest, rfl⟩
          · exact ⟨b, hb, rfl⟩

/-- The numbers that the bits of the word at a position stand for. -/
def AtWord (w : Word) (i m : Nat) : Prop := m / 64 = i ∧ w.getLsbD (m % 64) = true

theorem atWord_iff {i m : Nat} : AtWord w i m ↔ ∃ b, w.getLsbD b = true ∧ m = 64 * i + b := by
  constructor
  · rintro ⟨rfl, hbit⟩
    exact ⟨m % 64, hbit, (Nat.div_add_mod m 64).symm⟩
  · rintro ⟨b, hbit, rfl⟩
    have hlt : b < 64 := BitVec.lt_of_getLsbD hbit
    refine ⟨by omega, ?_⟩
    rwa [Nat.mul_add_mod, Nat.mod_eq_of_lt hlt]

theorem numbersAt_returns (w : Word) {i : Nat} (h : i < wordLimit) :
    Returns (numbersAt w i) fun l => Listing l (AtWord w i) ∧ l.length = countOnes w := by
  rw [wordLimit] at h
  have hi : (UInt32.ofNat i).toNat = i :=
    UInt32.toNat_ofNat_of_lt' (Nat.lt_trans h (by decide))
  have hwidth : width.toNat = 64 := rfl
  have hsize : UInt32.size = 4294967296 := rfl
  obtain ⟨base, hbase, hnat⟩ := mul_eq_ok (a := .ofNat i) (b := width) (by rw [hi, hwidth]; omega)
  have hnat : base.toNat = 64 * i := by rw [hnat, hi, Nat.mul_comm, hwidth]
  rw [numbersAt, hbase, ok_bind]
  refine (numbersFrom_returns (by omega) w).mono fun l hl => ?_
  have hlist : Listing l (AtWord w i) :=
    ⟨hl.ascending, fun m => by rw [hl.mem_iff, atWord_iff, hnat]⟩
  refine ⟨hlist, ?_⟩
  let bits := (Finset.range 64).filter (w.getLsbD · = true)
  have hbits : ∀ m, m ∈ bits.image (64 * i + ·) ↔ AtWord w i m := by
    intro m
    simp only [bits, Finset.mem_image, Finset.mem_filter, Finset.mem_range, atWord_iff]
    constructor
    · rintro ⟨b, ⟨-, hb⟩, rfl⟩
      exact ⟨b, hb, rfl⟩
    · rintro ⟨b, hb, rfl⟩
      exact ⟨b, ⟨BitVec.lt_of_getLsbD hb, hb⟩, rfl⟩
  rw [hlist.length_eq hbits, Finset.card_image_of_injective _ (fun _ _ => Nat.add_left_cancel),
    countOnes_eq]

/-- The members are listed in ascending order, each once. -/
theorem toList_returns (s : PackedSet) : Returns s.toList fun l =>
    Listing l (· ∈ s) ∧ l.length = (s.words.toList.map countOnes).sum := by
  -- what is listed are the members in the words before the next one
  let inv (rest : List Word) (r : Nat × Array UInt32) : Prop :=
    rest = s.words.toList.drop r.1 ∧ Listing r.2.toList (fun m => m ∈ s ∧ m / 64 < r.1) ∧
      r.2.toList.length + (rest.map countOnes).sum = (s.words.toList.map countOnes).sum
  have hstart : inv s.words.toList (0, #[]) := ⟨rfl, .nil (by simp), by simp⟩
  rw [toList, ← Array.foldlM_toList]
  refine (Returns.foldlM hstart fun w rest r ⟨hrest, hlist, hlength⟩ => ?_).bind
    fun r ⟨hrest, hlist, hlength⟩ => .pure ⟨⟨hlist.ascending, fun m => ?_⟩, hlength⟩
  · obtain ⟨i, listed⟩ := r
    have hword : s.words[i]? = some w := by
      rw [← Array.getElem?_toList, ← List.head?_drop, ← hrest, List.head?_cons]
    have hlt : i < wordLimit :=
      Nat.lt_of_lt_of_le (Array.getElem?_eq_some_iff.mp hword).1 s.size_le
    refine (numbersAt_returns w hlt).bind fun l ⟨hl, hlen⟩ => .pure ⟨?_, ?_, ?_⟩
    · rw [← List.drop_drop, ← hrest, List.drop_one, List.tail_cons]
    · rw [Array.toList_appendList]
      refine hlist.append hl (fun m m' hm hm' => ?_) fun m => ?_
      · have := hm'.1
        have := hm.2
        omega
      · rw [Nat.lt_succ_iff_lt_or_eq, and_or_left]
        exact or_congr_right ⟨fun ⟨hm, hi⟩ => ⟨hi, (getLsbD_word_iff hword hi).mpr hm⟩,
          fun ⟨hi, hbit⟩ => ⟨(getLsbD_word_iff hword hi).mp hbit, hi⟩⟩
    · rw [Array.toList_appendList, List.length_append, hlen, ← hlength, List.map_cons,
        List.sum_cons, Nat.add_assoc]
  · refine (hlist.mem_iff m).trans (and_iff_left_of_imp fun hm => ?_)
    have hsize : s.words.toList.length ≤ r.1 := List.drop_eq_nil_iff.mp hrest.symm
    rw [Array.length_toList] at hsize
    exact Nat.lt_of_lt_of_le (div_lt_of_mem hm) hsize

/-! ### Counting -/

theorem countOnes_le (w : Word) : countOnes w ≤ 64 := by
  rw [countOnes_eq]
  exact (Finset.card_filter_le _ _).trans_eq (Finset.card_range 64)

theorem foldlM_count (ws : List Word) {n : Nat} (h : n + 64 * ws.length < UInt64.size) :
    ws.foldlM (fun n w => count (n + countOnes w)) n = .ok (n + (ws.map countOnes).sum) := by
  induction ws generalizing n with
  | nil => rfl
  | cons w ws ih =>
      have hle := countOnes_le w
      rw [List.length_cons] at h
      rw [List.foldlM_cons, count, if_pos (by omega), ok_bind, ih (by omega), List.map_cons,
        List.sum_cons, Nat.add_assoc]

theorem card_eq_ok {F : Finset Nat} (hF : ∀ m, m ∈ F ↔ m ∈ s) : s.card = .ok F.card := by
  obtain ⟨l, -, hl, hlen⟩ := toList_returns s
  have hsize := s.size_le
  rw [wordLimit] at hsize
  have hbound : 0 + 64 * s.words.toList.length < UInt64.size := by
    rw [Array.length_toList, UInt64.size]
    omega
  rw [card, ← Array.foldlM_toList, foldlM_count _ hbound, Nat.zero_add, ← hlen, hl.length_eq hF]

/-! ### Comparing -/

theorem significantWords_eq (s : PackedSet) :
    s.significantWords = s.words.toList.rdropWhile (· == 0) := rfl

/-- The significant words hold what the words hold. -/
theorem getD_significantWords (s : PackedSet) (i : Nat) :
    s.significantWords[i]?.getD 0 = s.words[i]?.getD 0 := by
  have hsplit : s.significantWords ++ s.words.toList.rtakeWhile (· == 0) = s.words.toList := by
    rw [significantWords_eq, List.rdropWhile_append_rtakeWhile]
  rw [← Array.getElem?_toList, ← hsplit, List.getElem?_append]
  split
  · rfl
  · next hge =>
    rw [List.getElem?_eq_none (Nat.not_lt.mp hge), Option.getD_none]
    cases hw : (s.words.toList.rtakeWhile (· == 0))[i - s.significantWords.length]? with
    | none => rfl
    | some w =>
        have hzero := List.mem_rtakeWhile_imp (List.mem_of_getElem? hw)
        exact (beq_iff_eq.mp hzero).symm

theorem mem_iff_significantWords {i b : Nat} (hi : i < s.significantWords.length) (hb : b < 64) :
    64 * i + b ∈ s ↔ s.significantWords[i].getLsbD b = true := by
  have hdiv : (64 * i + b) / 64 = i := by omega
  rw [mem_def, ← getD_significantWords, hdiv, Nat.mul_add_mod, Nat.mod_eq_of_lt hb,
    List.getElem?_eq_getElem hi, Option.getD_some]

/-- The last significant word has a member. -/
theorem exists_mem_of_significantWords {i : Nat} (h : s.significantWords.length = i + 1) :
    ∃ m ∈ s, m / 64 = i := by
  have hi : i < s.significantWords.length := h ▸ Nat.lt_succ_self i
  have hne : s.significantWords ≠ [] := List.ne_nil_of_length_eq_add_one h
  have hget : s.significantWords.getLast hne = s.significantWords[i] := by
    rw [List.getLast_eq_getElem]
    congr 1
    rw [h, Nat.add_sub_cancel]
  have hlast : s.significantWords[i] ≠ 0 := fun hzero =>
    List.rdropWhile_last_not (· == 0) s.words.toList hne (beq_iff_eq.mpr (hget.trans hzero))
  obtain ⟨b, hb⟩ := ne_zero_iff.mp hlast
  have hlt : b < 64 := BitVec.lt_of_getLsbD hb
  exact ⟨64 * i + b, (mem_iff_significantWords hi hlt).mpr hb, by omega⟩

theorem div_lt_significantWords {m : Nat} (h : m ∈ s) : m / 64 < s.significantWords.length := by
  by_contra hge
  rw [mem_def, ← getD_significantWords, List.getElem?_eq_none (Nat.not_lt.mp hge),
    Option.getD_none] at h
  exact absurd h (by simp)

theorem length_significantWords_le (h : ∀ m, m ∈ s → m ∈ t) :
    s.significantWords.length ≤ t.significantWords.length := by
  cases hs : s.significantWords.length with
  | zero => exact Nat.zero_le _
  | succ i =>
      obtain ⟨m, hm, rfl⟩ := exists_mem_of_significantWords hs
      exact div_lt_significantWords (h m hm)

/-- The significant words are those of any set with the same members. -/
theorem significantWords_eq_iff :
    s.significantWords = t.significantWords ↔ ∀ m, m ∈ s ↔ m ∈ t := by
  constructor
  · intro h m
    rw [mem_def, mem_def, ← getD_significantWords, ← getD_significantWords, h]
  · intro h
    have hlength : s.significantWords.length = t.significantWords.length :=
      Nat.le_antisymm (length_significantWords_le fun m => (h m).mp)
        (length_significantWords_le fun m => (h m).mpr)
    refine List.ext_getElem hlength fun i hs ht => BitVec.eq_of_getLsbD_eq fun b hb => ?_
    rw [Bool.eq_iff_iff, ← mem_iff_significantWords hs hb, ← mem_iff_significantWords ht hb, h]

theorem beq_iff : (s == t) = true ↔ ∀ m, m ∈ s ↔ m ∈ t := by
  change (s.significantWords == t.significantWords) = true ↔ _
  rw [beq_iff_eq, significantWords_eq_iff]

theorem hashed_eq_iff : s.hashed = t.hashed ↔ ∀ m, m ∈ s ↔ m ∈ t := by
  rw [hashed, hashed, Prod.mk_inj, and_iff_right_of_imp (congrArg _), significantWords_eq_iff]

end PackedSet
end ScannerTables
