import Mathlib.Algebra.BigOperators.Group.List.Defs
import ScannerTables.Proofs.Extension
import ScannerTables.Proofs.Language
/-!
# The construction is exact

For each operator of patterns: if the builders of the parts make fragments whose paths from entry to
exit are the words of given languages, then the builder of the operator makes one for the language
that the operator forms of them. `Build.Recognizes` is what is shown of every builder; it also says
that the builder only adds states of its token and fails for no reason but a fault of a definition.

The languages are those of `TokenRegistry.language`, so the builder of a pattern recognizes exactly
the words that the pattern matches, references included.
-/

namespace ScannerTables

open Computability

/-! ### The graphs of the operators -/

namespace Path

variable {M M' : Moves} {R : Nat → Prop} {x y : Nat} {L K : Language Nat} {w : List Nat}

/-- A region entered at `y` and left from `x`, followed by what can be done from `target`. -/
theorem seq_iff {target t : Nat} (closed : ∀ p o q, R p → M p o q → R q) (hx : R x) (hy : R y)
    (htarget : ¬ R target) (ht : ¬ R t) (lang : ∀ w, Path M y w x ↔ w ∈ L)
    (moves : ∀ p o q, R p → (M' p o q ↔ M p o q ∨ o = none ∧ p = x ∧ q = target))
    (rest : ∀ w, Path M' target w t ↔ w ∈ K) : Path M' y w t ↔ w ∈ L * K := by
  rw [Language.mem_mul]
  constructor
  · intro path
    have exits : ∀ p o q, R p → M' p o q → (M p o q ∧ R q) ∨ (p = x ∧ o = none ∧
        (¬ R q ∧ (∀ v, Path M' q v t → v ∈ K) ∨
          R q ∧ ∀ u v, Path M q u x → v ∈ K → u ++ v ∈ K)) := by
      intro p o q hp hm
      rcases (moves p o q hp).mp hm with hm | ⟨ho, hpx, rfl⟩
      · exact .inl ⟨hm, closed p o q hp hm⟩
      · exact .inr ⟨hpx, ho, .inl ⟨htarget, fun v => (rest v).mp⟩⟩
    obtain ⟨u, v, rfl, inner, hv⟩ := path.split_of_exit ht exits hy
    exact ⟨u, (lang u).mp inner, v, hv, rfl⟩
  · rintro ⟨u, hu, v, hv, rfl⟩
    have inner : Path M' y u x := (((lang u).mpr hu).mono_of_closed
      (fun p o q hp hm => ⟨(moves p o q hp).mpr (.inl hm), closed p o q hp hm⟩) hy).1
    exact inner.trans (.epsilon ((moves _ _ _ hx).mpr (.inr ⟨rfl, rfl, rfl⟩)) ((rest v).mpr hv))

/-- Round a loop through a region as often as wanted, and out of it in the end. -/
theorem of_mem_kstar {exit : Nat} (pass : ∀ u ∈ L, Path M y u x) (again : M x none y)
    (leave : M x none exit) (hw : w ∈ L∗) : Path M x w exit := by
  obtain ⟨ws, rfl, hws⟩ := Language.mem_kstar.mp hw
  clear hw
  induction ws with
  | nil => exact .epsilon leave (.refl _)
  | cons w ws ih =>
      rw [List.forall_mem_cons] at hws
      exact .epsilon again ((pass w hws.1).trans (ih hws.2))

/-- What follows one pass through a region that may be gone through again (`loop`). -/
def further (L : Language Nat) (loop : Prop) : Language Nat := {w | w ∈ L∗ ∧ (w = [] ∨ loop)}

theorem mem_further {loop : Prop} : w ∈ further L loop ↔ w ∈ L∗ ∧ (w = [] ∨ loop) := Iff.rfl

@[simp] theorem further_true : further L True = L∗ := by
  ext w
  simp [mem_further]

@[simp] theorem further_false : further L False = 1 := by
  ext w
  rw [mem_further, or_false, Language.mem_one]
  constructor
  · rintro ⟨-, rfl⟩
    rfl
  · rintro rfl
    exact ⟨Language.nil_mem_kstar L, rfl⟩

theorem nil_mem_further {loop : Prop} : [] ∈ further L loop :=
  ⟨Language.nil_mem_kstar L, .inl rfl⟩

theorem append_mem_further {loop : Prop} {u v : List Nat} (hloop : loop) (hu : u ∈ L)
    (hv : v ∈ further L loop) : u ++ v ∈ further L loop := by
  obtain ⟨vs, rfl, hvs⟩ := Language.mem_kstar.mp hv.1
  have hvs' : ∀ w ∈ u :: vs, w ∈ L := List.forall_mem_cons.mpr ⟨hu, hvs⟩
  exact ⟨Language.mem_kstar.mpr ⟨u :: vs, rfl, hvs'⟩, .inr hloop⟩

/-- A region that is left for an exit, where nothing follows, and may be gone through again. -/
theorem loop_iff {exit : Nat} {loop : Prop} (closed : ∀ p o q, R p → M p o q → R q) (hx : R x)
    (hy : R y) (hexit : ¬ R exit) (stuck : ∀ o q, ¬ M' exit o q)
    (lang : ∀ w, Path M y w x ↔ w ∈ L)
    (moves : ∀ p o q, R p →
      (M' p o q ↔ M p o q ∨ o = none ∧ p = x ∧ (q = exit ∨ loop ∧ q = y))) :
    Path M' y w exit ↔ w ∈ L * further L loop := by
  rw [Language.mem_mul]
  constructor
  · intro path
    -- what follows the first pass belongs to `further`, and only a loop makes it more than nothing
    have exits : ∀ p o q, R p → M' p o q → (M p o q ∧ R q) ∨ (p = x ∧ o = none ∧
        (¬ R q ∧ (∀ v, Path M' q v exit → v ∈ further L loop) ∨
          R q ∧ ∀ u v, Path M q u x → v ∈ further L loop → u ++ v ∈ further L loop)) := by
      intro p o q hp hm
      rcases (moves p o q hp).mp hm with hm | ⟨ho, hpx, rfl | ⟨hloop, rfl⟩⟩
      · exact .inl ⟨hm, closed p o q hp hm⟩
      · refine .inr ⟨hpx, ho, .inl ⟨hexit, ?_⟩⟩
        intro v hv
        rw [(Path.stuck_iff stuck).mp hv]
        exact nil_mem_further
      · refine .inr ⟨hpx, ho, .inr ⟨hy, ?_⟩⟩
        intro u v hu
        exact append_mem_further hloop ((lang u).mp hu)
    obtain ⟨u, v, rfl, inner, hv⟩ := path.split_of_exit hexit exits hy
    exact ⟨u, (lang u).mp inner, v, hv, rfl⟩
  · rintro ⟨u, hu, v, ⟨hv, hloop⟩, rfl⟩
    have pass : ∀ u ∈ L, Path M' y u x := by
      intro u hu
      exact (((lang u).mpr hu).mono_of_closed
        (fun p o q hp hm => ⟨(moves p o q hp).mpr (.inl hm), closed p o q hp hm⟩) hy).1
    have leave : M' x none exit := (moves _ _ _ hx).mpr (.inr ⟨rfl, rfl, .inl rfl⟩)
    apply (pass u hu).trans
    rcases hloop with rfl | hloop
    · exact .epsilon leave (.refl _)
    · exact of_mem_kstar pass ((moves _ _ _ hx).mpr (.inr ⟨rfl, rfl, .inr ⟨hloop, rfl⟩⟩)) leave hv

/-- A region between an entry and an exit that may be skipped (`skip`) and may be gone through again
(`loop`). -/
theorem bracket_iff {entry exit : Nat} {skip loop : Prop}
    (closed : ∀ p o q, R p → M p o q → R q) (hx : R x) (hy : R y)
    (hentry : ¬ R entry) (hexit : ¬ R exit) (hne : entry ≠ exit)
    (stuck_entry : ∀ o q, ¬ M entry o q) (stuck_exit : ∀ o q, ¬ M exit o q)
    (lang : ∀ w, Path M y w x ↔ w ∈ L)
    (moves : ∀ p o q, M' p o q ↔ M p o q ∨ o = none ∧
      (p = entry ∧ (q = y ∨ skip ∧ q = exit) ∨ p = x ∧ (q = exit ∨ loop ∧ q = y))) :
    Path M' entry w exit ↔ skip ∧ w = [] ∨ w ∈ L * further L loop := by
  have hxe : entry ≠ x := fun h => hentry (h ▸ hx)
  have hxe' : exit ≠ x := fun h => hexit (h ▸ hx)
  have stuck : ∀ o q, ¬ M' exit o q := by
    intro o q
    simp [moves, stuck_exit, Ne.symm hne, hxe']
  have only : ∀ o q, M' entry o q ↔ o = none ∧ (q = y ∨ skip ∧ q = exit) := by
    intro o q
    simp [moves, stuck_entry, hxe]
  have inside : ∀ p o q, R p →
      (M' p o q ↔ M p o q ∨ o = none ∧ p = x ∧ (q = exit ∨ loop ∧ q = y)) := by
    intro p o q hp
    have : p ≠ entry := fun h => hentry (h ▸ hp)
    simp [moves, this]
  rw [epsilons_iff only hne]
  simp only [or_and_right, exists_or, exists_eq_left, and_assoc, exists_and_left,
    loop_iff closed hx hy hexit stuck lang inside, stuck_iff stuck]
  exact or_comm

end Path

/-! ### What is shown of a builder -/

/-- A fragment that a builder added to `a`: its states are new, its exit can take further epsilon
moves, and its paths from entry to exit are the words of the language. -/
structure Fragment.Spans (f : Fragment) (token : Nat) (L : Language Nat) (a a' : Automaton) : Prop
    extends Automaton.Extends token a.size a a' where
  entry_mem : a.size ≤ f.entry ∧ f.entry < a'.size
  exit_mem : a.size ≤ f.exit ∧ f.exit < a'.size
  router_exit : a'.IsRouter f.exit
  path_iff : ∀ w, Path a'.moves f.entry w f.exit ↔ w ∈ L

namespace Build

/-- How a builder fails: for a fault of a definition, having added to the states from `base` on. -/
def Failed (token base : Nat) (a : Automaton) (e : Failure) (a' : Automaton) : Prop :=
  (∃ d, e = .faulty d) ∧ Automaton.Extends token base a a'

/-- A builder that makes fragments for a language or fails. -/
def Recognizes (token : Nat) (L : Language Nat) (b : Build Fragment) : Prop :=
  ∀ a, WP b (fun f a' => f.Spans token L a a') (Failed token a.size a) a

variable {token : Nat} {L : Language Nat} {b part : Build Fragment} {a a₁ : Automaton}

theorem recognizes_fault (e : DefinitionError) : Recognizes token L (fault e) := fun a =>
  wp_fault.mpr ⟨⟨e, rfl⟩, .refl token a⟩

theorem Recognizes.congr {L' : Language Nat} (h : Recognizes token L b) (hL : L = L') :
    Recognizes token L' b := hL ▸ h

theorem Failed.trans {base : Nat} {e : Failure} {a₂ : Automaton}
    (h : Automaton.Extends token base a a₁) (hbase : base ≤ a₁.size)
    (hf : Failed token a₁.size a₁ e a₂) : Failed token base a e a₂ :=
  ⟨hf.1, h.trans hbase hf.2⟩

/-- A part is built on top of what is there already. -/
theorem Recognizes.wp_bind {α : Type} {k : Fragment → Build α} {base : Nat} {a₀ : Automaton}
    {post : α → Automaton → Prop} (h : Recognizes token L part)
    (ha : Automaton.Extends token base a₀ a) (hbase : base ≤ a.size)
    (hk : ∀ f a', f.Spans token L a a' → Automaton.Extends token base a₀ a' →
      WP (k f) post (Failed token base a₀) a') :
    WP (part >>= k) post (Failed token base a₀) a := by
  refine Build.wp_bind.mpr ((h a).mono ?_ (fun e a' hf => hf.trans ha hbase))
  intro f a' hf
  exact hk f a' hf (ha.trans hbase hf.toExtends)

/-! ### One part between brackets -/

/-- The automaton with two new states for a token. -/
def brackets (token : Nat) (a : Automaton) : Automaton :=
  (a.addState (some token)).addState (some token)

@[simp] theorem size_brackets : (brackets token a).size = a.size + 2 := by simp [brackets]

theorem extends_brackets : Automaton.Extends token a.size a (brackets token a) := by
  have h := (Automaton.Extends.refl token a).addState (Nat.le_refl _)
  exact h.addState (by simp)

theorem fresh_brackets_entry : (brackets token a).IsFresh a.size token := by
  rw [Automaton.IsFresh, brackets, Automaton.state?_addState_of_lt (by simp)]
  exact Automaton.state?_addState_self

theorem fresh_brackets_exit : (brackets token a).IsFresh (a.size + 1) token := by
  have h := @Automaton.state?_addState_self (a.addState (some token)) (some token)
  rwa [Automaton.size_addState] at h

/-- Two new states are added before anything is built between them. -/
theorem wp_brackets {α : Type} {k : Nat → Nat → Build α} {post : α → Automaton → Prop}
    {fail : Failure → Automaton → Prop}
    (h : WP (k a.size (a.size + 1)) post fail (brackets token a)) :
    WP (do let entry ← newState token; let exit ← newState token; k entry exit) post fail a := by
  refine Build.wp_bind.mpr (wp_newState.mpr (Build.wp_bind.mpr (wp_newState.mpr ?_)))
  rwa [Automaton.size_addState]

/-- A part that was built between two new states, with which it is not yet linked. -/
structure Bracketed (token : Nat) (L : Language Nat) (f : Fragment) (a a₁ : Automaton) : Prop
    extends Automaton.Extends token a.size a a₁ where
  spans : f.Spans token L (brackets token a) a₁

namespace Bracketed

variable {f : Fragment} {E : Nat → Nat → Prop} {a' : Automaton}

theorem fresh_entry (h : Bracketed token L f a a₁) : a₁.IsFresh a.size token :=
  (h.spans.state_below _ (by simp)).trans fresh_brackets_entry

theorem fresh_exit (h : Bracketed token L f a a₁) : a₁.IsFresh (a.size + 1) token :=
  (h.spans.state_below _ (by simp)).trans fresh_brackets_exit

theorem entry_mem (h : Bracketed token L f a a₁) : a.size + 2 ≤ f.entry ∧ f.entry < a₁.size :=
  size_brackets ▸ h.spans.entry_mem

theorem exit_mem (h : Bracketed token L f a a₁) : a.size + 2 ≤ f.exit ∧ f.exit < a₁.size :=
  size_brackets ▸ h.spans.exit_mem

/-- Some epsilon moves were added between the brackets and the part. -/
structure Wired (token : Nat) (a a₁ : Automaton) (E : Nat → Nat → Prop) (a' : Automaton) : Prop
    extends Automaton.Extends token a.size a a' where
  size_eq : a'.size = a₁.size
  isRouter : ∀ i, a₁.IsRouter i → a'.IsRouter i
  moves_iff : ∀ p o q, a'.moves p o q ↔ a₁.moves p o q ∨ o = none ∧ E p q

theorem wired (h : Bracketed token L f a a₁) : Wired token a a₁ (fun _ _ => False) a₁ where
  toExtends := h.toExtends
  size_eq := rfl
  isRouter _ := id
  moves_iff := by simp

/-- Moves may be added from the entry and from the exit of the part, to its entry and to the exit.
-/
theorem wp_link (h : Bracketed token L f a a₁) (hw : Wired token a a₁ E a') {source target : Nat}
    {post : Unit → Automaton → Prop} {fail : Failure → Automaton → Prop}
    (hs : source = a.size ∨ source = f.exit) (ht : target = f.entry ∨ target = a.size + 1)
    (hp : ∀ a₂, Wired token a a₁ (fun p q => E p q ∨ p = source ∧ q = target) a₂ → post () a₂) :
    WP (link source target) post fail a' := by
  have hentry := h.entry_mem
  have hexit := h.exit_mem
  have hsource : a.size ≤ source ∧ source < a'.size := by
    rw [hw.size_eq]
    omega
  have htarget : a.size ≤ target ∧ target < a'.size := by
    rw [hw.size_eq]
    omega
  have hrouter : a'.IsRouter source := by
    rcases hs with rfl | rfl
    · exact hw.isRouter _ h.fresh_entry.isRouter
    · exact hw.isRouter _ h.spans.router_exit
  refine Build.wp_link hsource.2 fun a₂ hl => hp a₂ ?_
  refine ⟨hw.linked hl hsource.1 hrouter htarget.1 htarget.2, hl.size_eq.trans hw.size_eq,
    fun i hi => hl.isRouter (hw.isRouter i hi), ?_⟩
  intro p o q
  rw [hl.moves_iff, hw.moves_iff, or_assoc, ← and_or_left]

/-- The moves of `*`, `+` or `?` make a fragment for its language. -/
theorem spans_of_wired (skip loop : Prop) {L' : Language Nat} (h : Bracketed token L f a a₁)
    (hw : Wired token a a₁ E a')
    (hE : ∀ p q, E p q ↔ p = a.size ∧ (q = f.entry ∨ skip ∧ q = a.size + 1) ∨
      p = f.exit ∧ (q = a.size + 1 ∨ loop ∧ q = f.entry))
    (hL : ∀ w, w ∈ L' ↔ skip ∧ w = [] ∨ w ∈ L * Path.further L loop) :
    Fragment.Spans ⟨a.size, a.size + 1⟩ token L' a a' := by
  have hentry := h.entry_mem
  have hexit := h.exit_mem
  have hsize := hw.size_eq
  refine ⟨hw.toExtends, ⟨Nat.le_refl _, by simp only; omega⟩, ⟨Nat.le_succ _, by simp only; omega⟩,
    hw.isRouter _ h.fresh_exit.isRouter, fun w => ?_⟩
  rw [hL]
  have closed : ∀ p o q, a.size + 2 ≤ p → a₁.moves p o q → a.size + 2 ≤ q := by
    intro p o q hp hm
    have := h.spans.mem_of_moves (size_brackets ▸ hp) hm
    rw [size_brackets] at this
    exact this.1
  refine Path.bracket_iff (R := fun i => a.size + 2 ≤ i) closed hexit.1 hentry.1
    (show ¬ a.size + 2 ≤ a.size by omega) (show ¬ a.size + 2 ≤ a.size + 1 by omega)
    (show a.size ≠ a.size + 1 by omega) h.fresh_entry.stuck h.fresh_exit.stuck h.spans.path_iff ?_
  intro p o q
  rw [hw.moves_iff, hE]

end Bracketed

theorem Recognizes.wp_bracket {α : Type} {k : Nat → Nat → Fragment → Build α}
    {post : α → Automaton → Prop} (h : Recognizes token L part)
    (hk : ∀ f a₁, Bracketed token L f a a₁ →
      WP (k a.size (a.size + 1) f) post (Failed token a.size a) a₁) :
    WP (do let entry ← newState token; let exit ← newState token; let f ← part; k entry exit f)
      post (Failed token a.size a) a := by
  apply wp_brackets
  apply h.wp_bind (a := brackets token a) extends_brackets (by simp)
  intro f a₁ hf ha
  exact hk f a₁ ⟨ha, hf⟩

theorem recognizes_zeroOrMore (h : Recognizes token L part) :
    Recognizes token L∗ (zeroOrMore token part) := by
  intro a
  apply h.wp_bracket
  intro f a₁ hf
  refine wp_bind.mpr (hf.wp_link hf.wired (.inl rfl) (.inl rfl) ?_)
  intro a₂ h₂
  refine wp_bind.mpr (hf.wp_link h₂ (.inl rfl) (.inr rfl) ?_)
  intro a₃ h₃
  refine wp_bind.mpr (hf.wp_link h₃ (.inr rfl) (.inr rfl) ?_)
  intro a₄ h₄
  refine wp_bind.mpr (hf.wp_link h₄ (.inr rfl) (.inl rfl) ?_)
  intro a₅ h₅
  refine wp_pure.mpr (hf.spans_of_wired True True h₅ ?_ ?_)
  · intro p q
    tauto
  · intro w
    rw [← Language.one_add_self_mul_kstar_eq_kstar, Language.mem_add, Language.mem_one]
    simp

theorem recognizes_oneOrMore (h : Recognizes token L part) :
    Recognizes token (L * L∗) (oneOrMore token part) := by
  intro a
  apply h.wp_bracket
  intro f a₁ hf
  refine wp_bind.mpr (hf.wp_link hf.wired (.inl rfl) (.inl rfl) ?_)
  intro a₂ h₂
  refine wp_bind.mpr (hf.wp_link h₂ (.inr rfl) (.inl rfl) ?_)
  intro a₃ h₃
  refine wp_bind.mpr (hf.wp_link h₃ (.inr rfl) (.inr rfl) ?_)
  intro a₄ h₄
  refine wp_pure.mpr (hf.spans_of_wired False True h₄ ?_ ?_)
  · intro p q
    tauto
  · intro w
    simp

theorem recognizes_zeroOrOne (h : Recognizes token L part) :
    Recognizes token (1 + L) (zeroOrOne token part) := by
  intro a
  apply h.wp_bracket
  intro f a₁ hf
  refine wp_bind.mpr (hf.wp_link hf.wired (.inl rfl) (.inl rfl) ?_)
  intro a₂ h₂
  refine wp_bind.mpr (hf.wp_link h₂ (.inl rfl) (.inr rfl) ?_)
  intro a₃ h₃
  refine wp_bind.mpr (hf.wp_link h₃ (.inr rfl) (.inr rfl) ?_)
  intro a₄ h₄
  refine wp_pure.mpr (hf.spans_of_wired True False h₄ ?_ ?_)
  · intro p q
    tauto
  · intro w
    rw [Language.mem_add, Language.mem_one]
    simp

/-! ### Parts one after the other -/

/-- What linking `previous` through all parts to `exit` does: one move from `previous`, to a state
from which the words that lead to `exit` are those of the parts in turn. -/
structure Threaded (token base : Nat) (L : Language Nat) (previous exit : Nat)
    (a₀ a a' : Automaton) : Prop extends Automaton.Extends token base a₀ a' where
  size_mono : a.size ≤ a'.size
  state_ne : ∀ i, i < a.size → i ≠ previous → a'.state? i = a.state? i
  path_iff : ∃ target, (target = exit ∨ a.size ≤ target) ∧
    (∀ o q, a'.moves previous o q ↔ a.moves previous o q ∨ o = none ∧ q = target) ∧
    ∀ w, Path a'.moves target w exit ↔ w ∈ L

/-- With no part left, `previous` is linked to `exit` itself. -/
theorem Threaded.nil {base previous exit : Nat} {a₀ a' : Automaton}
    (ha : Automaton.Extends token base a₀ a') (hl : Automaton.Linked previous exit a a')
    (hfresh : a.IsFresh exit token) (hne : previous ≠ exit) :
    Threaded token base 1 previous exit a₀ a a' := by
  refine ⟨ha, Nat.le_of_eq hl.size_eq.symm, fun i _ hi => hl.state_ne i hi, exit, .inl rfl, ?_, ?_⟩
  · intro o q
    rw [hl.moves_iff]
    simp
  · intro w
    rw [Language.mem_one]
    exact Path.stuck_iff (hl.isFresh (Ne.symm hne) hfresh).stuck

/-- A part in front of what is threaded behind its exit. -/
theorem Threaded.cons {K : Language Nat} {f : Fragment} {base previous exit : Nat}
    {a₀ a₂ a' : Automaton} (hf : f.Spans token L a a₁) (hprev : previous < a.size)
    (hexit : exit < a.size) (hl : Automaton.Linked previous f.entry a₁ a₂)
    (ht : Threaded token base K f.exit exit a₀ a₂ a') :
    Threaded token base (L * K) previous exit a₀ a a' := by
  have hsize := hf.size_le
  have hsize₂ := hl.size_eq
  have hsize' := ht.size_mono
  have hentry := hf.entry_mem
  have hfexit := hf.exit_mem
  obtain ⟨target, htarget, hmoves, hpath⟩ := ht.path_iff
  refine ⟨ht.toExtends, by omega, ?_, f.entry, .inr hentry.1, ?_, ?_⟩
  · intro i hi hne
    rw [ht.state_ne i (by omega) (by omega), hl.state_ne i hne, hf.state_below i hi]
  · intro o q
    rw [Automaton.moves_congr (ht.state_ne previous (by omega) (by omega)), hl.moves_iff,
      Automaton.moves_congr (hf.state_below previous hprev)]
    simp
  · intro w
    -- the part is the region; `f.exit` is the only state of it that got a move
    refine Path.seq_iff (R := fun i => a.size ≤ i ∧ i < a₁.size) (M := a₁.moves)
      (fun p o q hp hm => hf.mem_of_moves hp.1 hm) hfexit hentry (by omega) (by omega)
      hf.path_iff ?_ hpath
    intro p o q hp
    by_cases hpx : p = f.exit
    · subst hpx
      rw [hmoves, hl.moves_iff]
      have : f.exit ≠ previous := by omega
      simp [this]
    · rw [Automaton.moves_congr (ht.state_ne p (by omega) hpx), hl.moves_iff]
      have : p ≠ previous := by omega
      simp [this, hpx]

theorem wp_sequenceFrom {parts : List (Build Fragment)} {Ls : List (Language Nat)}
    (h : List.Forall₂ (Recognizes token) Ls parts) {base previous exit : Nat} {a₀ : Automaton}
    (ha : Automaton.Extends token base a₀ a) (hbase : base ≤ previous) (hprev : a.IsRouter previous)
    (hexit : base ≤ exit) (hfresh : a.IsFresh exit token) (hne : previous ≠ exit) :
    WP (sequenceFrom previous exit parts)
      (fun _ a' => Threaded token base Ls.prod previous exit a₀ a a')
      (Failed token base a₀) a := by
  have hlt := hprev.lt_size
  have hlt' := Automaton.lt_size hfresh
  induction h generalizing a previous with
  | nil =>
      apply wp_link hlt
      intro a' hl
      exact .nil (ha.linked hl hbase hprev hexit hlt') hl hfresh hne
  | @cons L part Ls parts hpart _ ih =>
      apply hpart.wp_bind ha (by omega)
      intro f a₁ hf ha₁
      have hsize := hf.size_le
      have hentry := hf.entry_mem
      have hfexit := hf.exit_mem
      have hprev₁ : a₁.IsRouter previous := hprev.congr (hf.state_below previous hlt)
      refine wp_bind.mpr (wp_link (by omega) ?_)
      intro a₂ hl
      have hsize₂ := hl.size_eq
      have hfresh₂ : a₂.IsFresh exit token :=
        hl.isFresh (Ne.symm hne) ((hf.state_below exit hlt').trans hfresh)
      have ha₂ := ha₁.linked hl hbase hprev₁ (Nat.le_trans (by omega) hentry.1) hentry.2
      apply (ih ha₂ (by omega) (hl.isRouter hf.router_exit) hfresh₂ (by omega) (by omega)
        (by omega)).mono
      · intro _ a' ht
        rw [List.prod_cons]
        exact .cons hf hlt hlt' hl ht
      · exact fun _ _ => id

theorem sequence_of_length_ne {parts : List (Build Fragment)} (h : parts.length ≠ 1) :
    sequence token parts = do
      let entry ← newState token
      let exit ← newState token
      sequenceFrom entry exit parts
      return ⟨entry, exit⟩ := by
  match parts, h with
  | [], _ => rfl
  | _ :: _ :: _, _ => rfl

theorem recognizes_sequence {parts : List (Build Fragment)} {Ls : List (Language Nat)}
    (h : List.Forall₂ (Recognizes token) Ls parts) :
    Recognizes token Ls.prod (sequence token parts) := by
  by_cases hone : parts.length = 1
  · obtain ⟨part, rfl⟩ := List.length_eq_one_iff.mp hone
    cases h with
    | cons hpart hnil =>
        cases hnil
        exact hpart.congr List.prod_singleton.symm
  · intro a
    rw [sequence_of_length_ne hone]
    refine wp_brackets (wp_bind.mpr ?_)
    have hentry : (brackets token a).IsFresh a.size token := fresh_brackets_entry
    have hexit : (brackets token a).IsFresh (a.size + 1) token := fresh_brackets_exit
    refine (wp_sequenceFrom h (a := brackets token a) extends_brackets (Nat.le_refl _)
      hentry.isRouter (Nat.le_succ _) hexit (Nat.ne_of_lt (Nat.lt_succ_self _))).mono
      (fun _ a' ht => wp_pure.mpr ?_) fun _ _ => id
    obtain ⟨target, -, hmoves, hpath⟩ := ht.path_iff
    have hsize := ht.size_mono
    rw [size_brackets] at hsize
    have hfresh : a'.IsFresh (a.size + 1) token :=
      (ht.state_ne _ (by simp) (by omega)).trans hexit
    refine ⟨ht.toExtends, ⟨Nat.le_refl _, by simp only; omega⟩,
      ⟨Nat.le_succ _, by simp only; omega⟩, hfresh.isRouter, fun w => ?_⟩
    have only : ∀ o q, a'.moves a.size o q ↔ o = none ∧ q = target := by
      intro o q
      rw [hmoves]
      simp [hentry.stuck]
    rw [Path.epsilons_iff only (by simp), exists_eq_left, hpath]

/-! ### Parts side by side -/

/-- What linking every part between `entry` and `exit` does: moves from `entry`, to states from
which the words that lead to `exit` are those of some part. -/
structure Branched (token base : Nat) (Ls : List (Language Nat)) (entry exit : Nat)
    (a₀ a a' : Automaton) : Prop extends Automaton.Extends token base a₀ a' where
  size_mono : a.size ≤ a'.size
  state_ne : ∀ i, i < a.size → i ≠ entry → a'.state? i = a.state? i
  path_iff : ∃ target : Nat → Prop,
    (∀ o q, a'.moves entry o q ↔ a.moves entry o q ∨ o = none ∧ target q) ∧
    ∀ w, (∃ q, target q ∧ Path a'.moves q w exit) ↔ ∃ L ∈ Ls, w ∈ L

/-- A part beside those that are branched to after it. -/
theorem Branched.cons {Ls : List (Language Nat)} {f : Fragment} {base entry exit : Nat}
    {a₀ a₂ a₃ a' : Automaton} (hf : f.Spans token L a a₁) (hentry : entry < a.size)
    (hfresh : a.IsFresh exit token) (hne : entry ≠ exit)
    (hl : Automaton.Linked entry f.entry a₁ a₂) (hl' : Automaton.Linked f.exit exit a₂ a₃)
    (ht : Branched token base Ls entry exit a₀ a₃ a') :
    Branched token base (L :: Ls) entry exit a₀ a a' := by
  have hexit := Automaton.lt_size hfresh
  have hsize := hf.size_le
  have hsize₂ := hl.size_eq
  have hsize₃ := hl'.size_eq
  have hsize' := ht.size_mono
  have hfentry := hf.entry_mem
  have hfexit := hf.exit_mem
  obtain ⟨target, hmoves, hpath⟩ := ht.path_iff
  have same : ∀ i, i < a.size → i ≠ entry → a'.state? i = a.state? i := by
    intro i hi hne'
    rw [ht.state_ne i (by omega) hne', hl'.state_ne i (by omega), hl.state_ne i hne',
      hf.state_below i hi]
  refine ⟨ht.toExtends, by omega, same, fun q => q = f.entry ∨ target q, ?_, ?_⟩
  · intro o q
    rw [hmoves, hl'.moves_iff, hl.moves_iff, Automaton.moves_congr (hf.state_below entry hentry)]
    have : entry ≠ f.exit := by omega
    simp only [this, false_and, and_false, or_false, true_and, or_assoc, ← and_or_left]
  · intro w
    have hstuck : ∀ o q, ¬ a'.moves exit o q :=
      Automaton.IsFresh.stuck ((same exit hexit (Ne.symm hne)).trans hfresh)
    have stop : ∀ w, Path a'.moves exit w exit ↔ w ∈ (1 : Language Nat) := by
      intro w
      rw [Language.mem_one]
      exact Path.stuck_iff hstuck
    have moves : ∀ p o q, a.size ≤ p ∧ p < a₁.size →
        (a'.moves p o q ↔ a₁.moves p o q ∨ o = none ∧ p = f.exit ∧ q = exit) := by
      intro p o q hp
      have : p ≠ entry := by omega
      rw [Automaton.moves_congr (ht.state_ne p (by omega) this), hl'.moves_iff, hl.moves_iff]
      simp [this]
    have first : Path a'.moves f.entry w exit ↔ w ∈ L * 1 :=
      Path.seq_iff (R := fun i => a.size ≤ i ∧ i < a₁.size)
        (fun p o q hp hm => hf.mem_of_moves hp.1 hm) hfexit hfentry (by omega) (by omega)
        hf.path_iff moves stop
    rw [mul_one] at first
    simp only [or_and_right, exists_or, exists_eq_left, first, hpath, List.mem_cons]

theorem wp_branches {parts : List (Build Fragment)} {Ls : List (Language Nat)}
    (h : List.Forall₂ (Recognizes token) Ls parts) {base entry exit : Nat} {a₀ : Automaton}
    (ha : Automaton.Extends token base a₀ a) (hbase : base ≤ entry) (hentry : a.IsRouter entry)
    (hexit : base ≤ exit) (hfresh : a.IsFresh exit token) (hne : entry ≠ exit) :
    WP (parts.forM fun part => do
        let f ← part
        link entry f.entry
        link f.exit exit)
      (fun _ a' => Branched token base Ls entry exit a₀ a a') (Failed token base a₀) a := by
  have hlt := hentry.lt_size
  have hlt' := Automaton.lt_size hfresh
  induction h generalizing a with
  | nil =>
      exact wp_pure.mpr ⟨ha, Nat.le_refl _, fun _ _ _ => rfl, fun _ => False, by simp, by simp⟩
  | @cons L part Ls parts hpart _ ih =>
      apply wp_bind.mpr
      apply hpart.wp_bind ha (by omega)
      intro f a₁ hf ha₁
      have hsize := hf.size_le
      have hfentry := hf.entry_mem
      have hfexit := hf.exit_mem
      have hentry₁ : a₁.IsRouter entry := hentry.congr (hf.state_below entry hlt)
      have hfresh₁ : a₁.IsFresh exit token := (hf.state_below exit hlt').trans hfresh
      refine wp_bind.mpr (wp_link (by omega) ?_)
      intro a₂ hl
      have hsize₂ := hl.size_eq
      have ha₂ := ha₁.linked hl hbase hentry₁ (Nat.le_trans (by omega) hfentry.1) hfentry.2
      apply wp_link (by omega)
      intro a₃ hl'
      have hsize₃ := hl'.size_eq
      have ha₃ := ha₂.linked hl' (Nat.le_trans (by omega) hfexit.1)
        (hl.isRouter hf.router_exit) hexit (by omega)
      have hfresh₃ : a₃.IsFresh exit token :=
        hl'.isFresh (by omega) (hl.isFresh (Ne.symm hne) hfresh₁)
      apply (ih ha₃ (hl'.isRouter (hl.isRouter hentry₁)) hfresh₃ (by omega) (by omega)).mono
      · intro _ a' ht
        exact .cons hf hlt hfresh hne hl hl' ht
      · exact fun _ _ => id

theorem choice_of_length_ne {parts : List (Build Fragment)} (h : parts.length ≠ 1) :
    choice token parts = do
      let entry ← newState token
      let exit ← newState token
      parts.forM fun part => do
        let f ← part
        link entry f.entry
        link f.exit exit
      return ⟨entry, exit⟩ := by
  match parts, h with
  | [], _ => rfl
  | _ :: _ :: _, _ => rfl

theorem recognizes_choice {parts : List (Build Fragment)} {Ls : List (Language Nat)}
    (h : List.Forall₂ (Recognizes token) Ls parts) (hL : ∀ w, w ∈ L ↔ ∃ L' ∈ Ls, w ∈ L') :
    Recognizes token L (choice token parts) := by
  by_cases hone : parts.length = 1
  · obtain ⟨part, rfl⟩ := List.length_eq_one_iff.mp hone
    cases h with
    | cons hpart hnil =>
        cases hnil
        apply hpart.congr
        ext w
        simp [hL]
  · intro a
    rw [choice_of_length_ne hone]
    refine wp_brackets (wp_bind.mpr ?_)
    have hentry : (brackets token a).IsFresh a.size token := fresh_brackets_entry
    have hexit : (brackets token a).IsFresh (a.size + 1) token := fresh_brackets_exit
    refine (wp_branches h (a := brackets token a) extends_brackets (Nat.le_refl _)
      hentry.isRouter (Nat.le_succ _) hexit (Nat.ne_of_lt (Nat.lt_succ_self _))).mono
      (fun _ a' ht => wp_pure.mpr ?_) fun _ _ => id
    obtain ⟨target, hmoves, hpath⟩ := ht.path_iff
    have hsize := ht.size_mono
    rw [size_brackets] at hsize
    have hfresh : a'.IsFresh (a.size + 1) token :=
      (ht.state_ne _ (by simp) (by omega)).trans hexit
    refine ⟨ht.toExtends, ⟨Nat.le_refl _, by simp only; omega⟩,
      ⟨Nat.le_succ _, by simp only; omega⟩, hfresh.isRouter, fun w => ?_⟩
    rw [hL, ← hpath]
    have only : ∀ o q, a'.moves a.size o q ↔ o = none ∧ target q := by
      intro o q
      rw [hmoves]
      simp [hentry.stuck]
    exact Path.epsilons_iff only (by simp)

/-! ### Copies -/

theorem forall₂_replicate (h : Recognizes token L part) (n : Nat) :
    List.Forall₂ (Recognizes token) (List.replicate n L) (List.replicate n part) := by
  induction n with
  | zero => exact .nil
  | succ n ih => exact .cons h ih

theorem recognizes_repetition {min : Nat} {max : Option Nat} {L' : Language Nat}
    (h : Recognizes token L part)
    (hL : ∀ w, w ∈ L' ↔ ∃ k, min ≤ k ∧ (∀ n ∈ max, k ≤ n) ∧ w ∈ L ^ k) :
    Recognizes token L' (repetition token min max part) := by
  cases max with
  | none =>
      refine (recognizes_sequence (List.rel_append (forall₂_replicate h min)
        (.cons (recognizes_zeroOrMore h) .nil))).congr ?_
      ext w
      rw [hL, List.prod_append, List.prod_replicate, List.prod_singleton,
        Language.mem_pow_mul_kstar]
      simp
  | some max =>
      rw [repetition]
      split
      · exact recognizes_fault _
      · next hle =>
        refine (recognizes_sequence (List.rel_append (forall₂_replicate h min)
          (forall₂_replicate (recognizes_zeroOrOne h) (max - min)))).congr ?_
        ext w
        rw [hL, List.prod_append, List.prod_replicate, List.prod_replicate,
          Language.mem_pow_mul_one_add_pow (Nat.le_of_not_lt hle)]
        simp

end Build

end ScannerTables
