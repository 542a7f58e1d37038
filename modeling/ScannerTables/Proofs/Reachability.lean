import Mathlib.Data.List.Sort
import Mathlib.Data.List.TakeWhile
import Mathlib.Logic.Relation
import ScannerTables.Proofs.Checked
import ScannerTables.Traversal
/-!
# What a traversal visits

A traversal that ends without misuse visits exactly the vertices that can be reached, each of them
once and the one it starts from first. The invariant is about any marks and any stack: what is
visited was not marked and can be reached from the stack, all of the stack is marked or visited, and
so are the successors of what is visited.
-/

namespace ScannerTables.Graph

open Relation

/-- An edge from a vertex to one of its successors. -/
def Edge (g : Graph) (u v : Nat) : Prop := ∃ succs, g[u]? = some succs ∧ v ∈ succs

/-- A vertex can be reached from another along edges, or is that vertex. -/
abbrev Reach (g : Graph) : Nat → Nat → Prop := ReflTransGen g.Edge

/-- What a traversal visits, given the marks and the stack it began with. -/
structure Visited (g : Graph) (marks : Marks g.size) (stack l : List Nat) : Prop where
  lt_size : ∀ v ∈ l, v < g.size
  unmarked : ∀ v ∈ l, marks.isMarked v = false
  nodup : l.Nodup
  reach : ∀ v ∈ l, ∃ u ∈ stack, g.Reach u v
  stack_mem : ∀ v ∈ stack, marks.isMarked v = true ∨ v ∈ l
  edge_mem : ∀ v ∈ l, ∀ u, g.Edge v u → marks.isMarked u = true ∨ u ∈ l
  head_eq : l.head? = (stack.dropWhile marks.isMarked).head?

variable {g : Graph} {marks : Marks g.size} {stack l : List Nat} {n : Nat} {rest : List Nat}

theorem mem_of_dropWhile (hs : stack.dropWhile marks.isMarked = n :: rest) {v : Nat}
    (hv : v ∈ stack) : marks.isMarked v = true ∨ v = n ∨ v ∈ rest := by
  rw [← List.takeWhile_append_dropWhile (p := marks.isMarked) (l := stack), hs] at hv
  rcases List.mem_append.mp hv with hv | hv
  · exact .inl (List.mem_takeWhile_imp hv)
  · exact .inr (List.mem_cons.mp hv)

/-- What a traversal visits next is not marked. -/
theorem isMarked_eq_false_of_dropWhile (hs : stack.dropWhile marks.isMarked = n :: rest) :
    marks.isMarked n = false := by
  have := List.head?_dropWhile_not marks.isMarked stack
  rw [hs] at this
  simpa using this

theorem Visited.nil (hs : stack.dropWhile marks.isMarked = []) : Visited g marks stack [] where
  lt_size := by simp
  unmarked := by simp
  nodup := .nil
  reach := by simp
  stack_mem v hv := .inl (List.dropWhile_eq_nil_iff.mp hs v hv)
  edge_mem := by simp
  head_eq := by rw [hs]

/-- Visiting one vertex and then what is left. -/
theorem Visited.cons (hs : stack.dropWhile marks.isMarked = n :: rest) (hn : n < g.size)
    (h : Visited g (marks.mark n hn) (g[n] ++ rest) l) : Visited g marks stack (n :: l) := by
  have mem_stack : ∀ v ∈ n :: rest, v ∈ stack := fun v hv =>
    (List.dropWhile_sublist marks.isMarked).subset (hs ▸ hv)
  have hmark : marks.isMarked n = false := isMarked_eq_false_of_dropWhile hs
  have edge_n : ∀ u, g.Edge n u ↔ u ∈ g[n] := by
    intro u
    simp [Edge, hn]
  have visited : ∀ u, (marks.mark n hn).isMarked u = true ∨ u ∈ l →
      marks.isMarked u = true ∨ u ∈ n :: l := by
    intro u hu
    rw [Marks.isMarked_mark, Bool.or_eq_true, decide_eq_true_eq] at hu
    rw [List.mem_cons]
    rcases hu with (hu | hu) | hu
    · exact .inr (.inl hu)
    · exact .inl hu
    · exact .inr (.inr hu)
  refine ⟨?_, ?_, ?_, ?_, ?_, ?_, ?_⟩
  · exact List.forall_mem_cons.mpr ⟨hn, h.lt_size⟩
  · refine List.forall_mem_cons.mpr ⟨hmark, ?_⟩
    intro v hv
    have := h.unmarked v hv
    rw [Marks.isMarked_mark, Bool.or_eq_false_iff] at this
    exact this.2
  · refine List.nodup_cons.mpr ⟨?_, h.nodup⟩
    intro hl
    simpa using h.unmarked n hl
  · refine List.forall_mem_cons.mpr ⟨⟨n, mem_stack n List.mem_cons_self, .refl⟩, ?_⟩
    intro v hv
    obtain ⟨u, hu, huv⟩ := h.reach v hv
    rcases List.mem_append.mp hu with hu | hu
    · exact ⟨n, mem_stack n List.mem_cons_self, .head ((edge_n u).mpr hu) huv⟩
    · exact ⟨u, mem_stack u (List.mem_cons_of_mem n hu), huv⟩
  · intro v hv
    rcases mem_of_dropWhile hs hv with hv | rfl | hv
    · exact .inl hv
    · exact .inr List.mem_cons_self
    · exact visited v (h.stack_mem v (List.mem_append_right _ hv))
  · refine List.forall_mem_cons.mpr ⟨?_, ?_⟩
    · intro u hu
      exact visited u (h.stack_mem u (List.mem_append_left _ ((edge_n u).mp hu)))
    · intro v hv u hu
      exact visited u (h.edge_mem v hv u hu)
  · rw [hs]
    rfl

theorem visited_preorderFrom (h : g.preorderFrom marks stack = .ok l) :
    Visited g marks stack l := by
  fun_induction preorderFrom g marks stack generalizing l with
  | case1 marks stack hs =>
      obtain rfl := Except.ok.inj h
      exact .nil hs
  | case2 marks stack n rest hs hn ih =>
      obtain ⟨l', hl', rfl⟩ := Checked.map_eq_ok.mp h
      exact (ih hl').cons hs hn
  | case3 => exact absurd h (by simp)

/-- A traversal ends without misuse where all vertices exist. -/
theorem exists_preorderFrom (hg : ∀ u v, g.Edge u v → v < g.size)
    (hstack : ∀ v ∈ stack, v < g.size) : ∃ l, g.preorderFrom marks stack = .ok l := by
  fun_induction preorderFrom g marks stack with
  | case1 => exact ⟨[], rfl⟩
  | case2 marks stack n rest hs hn ih =>
      have hrest : ∀ v ∈ g[n] ++ rest, v < g.size := by
        intro v hv
        rcases List.mem_append.mp hv with hv | hv
        · exact hg n v ⟨g[n], Array.getElem?_eq_getElem hn, hv⟩
        · refine hstack v ((List.dropWhile_sublist marks.isMarked).subset ?_)
          rw [hs]
          exact List.mem_cons_of_mem n hv
      obtain ⟨l, hl⟩ := ih hrest
      exact ⟨n :: l, by rw [hl]; rfl⟩
  | case3 marks stack n rest hs hn =>
      refine absurd (hstack n ((List.dropWhile_sublist marks.isMarked).subset ?_)) hn
      rw [hs]
      exact List.mem_cons_self

section Preorder

variable {start v : Nat}

theorem exists_preorder (hg : ∀ u v, g.Edge u v → v < g.size) (hstart : start < g.size) :
    ∃ l, g.preorder start = .ok l :=
  exists_preorderFrom hg fun _ hv => List.mem_singleton.mp hv ▸ hstart

theorem mem_preorder (h : g.preorder start = .ok l) : v ∈ l ↔ g.Reach start v := by
  have hl := visited_preorderFrom h
  have closed : ∀ u ∈ l, ∀ w, g.Edge u w → w ∈ l := by
    intro u hu w huw
    simpa using hl.edge_mem u hu w huw
  constructor
  · intro hv
    obtain ⟨u, hu, huv⟩ := hl.reach v hv
    rwa [List.mem_singleton.mp hu] at huv
  · intro hv
    induction hv with
    | refl => simpa using hl.stack_mem start (List.mem_singleton_self start)
    | tail _ huw ih => exact closed _ ih _ huw

theorem nodup_preorder (h : g.preorder start = .ok l) : l.Nodup :=
  (visited_preorderFrom h).nodup

theorem head?_preorder (h : g.preorder start = .ok l) : l.head? = some start := by
  rw [(visited_preorderFrom h).head_eq]
  simp

theorem lt_size_of_preorder (h : g.preorder start = .ok l) (hv : v ∈ l) : v < g.size :=
  (visited_preorderFrom h).lt_size v hv

end Preorder

/-! ### What a flood marks -/

section Flood

variable {start v : Nat} {ns : List Nat} {marks' : Marks g.size}

theorem isMarked_lt {size : Nat} {marks : Marks size} (h : marks.isMarked v = true) : v < size := by
  by_contra hv
  rw [Marks.isMarked, Vector.getElem?_eq_none (Nat.le_of_not_lt hv)] at h
  exact absurd h (by decide)

theorem isMarked_pushNew : (marks.pushNew stack ns).1.isMarked v = true ↔
    marks.isMarked v = true ∨ v ∈ ns ∧ v < g.size := by
  induction ns generalizing marks stack with
  | nil => simp [Marks.pushNew]
  | cons n ns ih =>
      rw [Marks.pushNew, List.mem_cons]
      split_ifs with hn h
      · rw [ih]
        grind
      · rw [ih, Marks.isMarked_mark]
        grind
      · rw [ih]
        grind

theorem mem_pushNew : v ∈ (marks.pushNew stack ns).2 ↔
    v ∈ stack ∨ v ∈ ns ∧ marks.isMarked v = false := by
  induction ns generalizing marks stack with
  | nil => simp [Marks.pushNew]
  | cons n ns ih =>
      rw [Marks.pushNew, List.mem_cons]
      split_ifs with hn h
      · rw [ih]
        grind
      · rw [ih, Marks.isMarked_mark]
        grind
      · rw [ih]
        grind

/-- Between two steps of a flood: what is marked or on the stack can be reached, the vertices on the
stack are marked, and the successors of what has left the stack are marked or on the stack. -/
structure Flooding (g : Graph) (start : Nat) (marks : Marks g.size) (stack : List Nat) : Prop where
  marked : ∀ v ∈ stack, v < g.size → marks.isMarked v = true
  start_mem : marks.isMarked start = true ∨ start ∈ stack
  reach : ∀ v, marks.isMarked v = true ∨ v ∈ stack → g.Reach start v
  edge_mem : ∀ v, marks.isMarked v = true → v ∉ stack → ∀ u, g.Edge v u →
    marks.isMarked u = true ∨ u ∈ stack

theorem Flooding.init : Flooding g start ((Marks.none : Marks g.size).pushNew [] [start]).1
    ((Marks.none : Marks g.size).pushNew [] [start]).2 where
  marked v hv hsize := by
    rw [mem_pushNew] at hv
    rw [isMarked_pushNew]
    exact .inr ⟨(hv.resolve_left List.not_mem_nil).1, hsize⟩
  start_mem :=
    .inr (mem_pushNew.mpr (.inr ⟨List.mem_singleton_self start, Marks.isMarked_none start⟩))
  reach v hv := by
    rw [isMarked_pushNew, mem_pushNew, Marks.isMarked_none] at hv
    have hstart : v = start := by
      simp only [List.mem_singleton, List.not_mem_nil] at hv
      tauto
    exact hstart ▸ .refl
  edge_mem v hv hstack := by
    rw [isMarked_pushNew, Marks.isMarked_none] at hv
    refine absurd (mem_pushNew.mpr (.inr ⟨?_, Marks.isMarked_none v⟩)) hstack
    exact (hv.resolve_left Bool.false_ne_true).1

/-- A vertex leaves the stack once its successors are marked. -/
theorem Flooding.next (h : Flooding g start marks (n :: rest)) (hn : n < g.size) :
    Flooding g start (marks.pushNew rest g[n]).1 (marks.pushNew rest g[n]).2 := by
  have hmarked : marks.isMarked n = true := h.marked n List.mem_cons_self hn
  have edge_n : ∀ u, g.Edge n u ↔ u ∈ g[n] := by
    intro u
    simp [Edge, hn]
  -- everything seen before is seen still, and so are the successors of `n`
  have seen : ∀ u, (marks.pushNew rest g[n]).1.isMarked u = true ∨
      u ∈ (marks.pushNew rest g[n]).2 ↔
      (marks.isMarked u = true ∨ u ∈ n :: rest) ∨ u ∈ g[n] := by
    intro u
    rw [isMarked_pushNew, mem_pushNew, List.mem_cons]
    grind
  refine ⟨?_, ?_, ?_, ?_⟩
  · intro v hv hsize
    rw [isMarked_pushNew]
    obtain hv | hv := mem_pushNew.mp hv
    · exact .inl (h.marked v (List.mem_cons_of_mem n hv) hsize)
    · exact .inr ⟨hv.1, hsize⟩
  · exact (seen start).mpr (.inl h.start_mem)
  · intro v hv
    obtain hv | hv := (seen v).mp hv
    · exact h.reach v hv
    · exact (h.reach n (.inl hmarked)).tail ((edge_n v).mpr hv)
  · intro v hv hstack u huv
    rw [mem_pushNew, not_or] at hstack
    refine (seen u).mpr ?_
    obtain rfl | hvn := eq_or_ne v n
    · exact .inr ((edge_n u).mp huv)
    · have hold : marks.isMarked v = true := by
        rw [isMarked_pushNew] at hv
        grind
      exact .inl (h.edge_mem v hold (by grind) u huv)

/-- A flood that ends without misuse has marked what can be reached. -/
theorem Flooding.isMarked_iff (h : Flooding g start marks stack)
    (hok : g.floodFrom marks stack = .ok marks') : marks'.isMarked v = true ↔ g.Reach start v := by
  fun_induction floodFrom g marks stack with
  | case1 marks =>
      obtain rfl := Except.ok.inj hok
      have hstart : marks.isMarked start = true := h.start_mem.resolve_right List.not_mem_nil
      refine ⟨fun hv => h.reach v (.inl hv), fun hv => ?_⟩
      induction hv with
      | refl => exact hstart
      | tail _ huw ih =>
          exact (h.edge_mem _ ih List.not_mem_nil _ huw).resolve_right List.not_mem_nil
  | case2 marks n rest hn next ih => exact ih (h.next hn) hok
  | case3 => exact absurd hok (by simp)

/-- A flood ends without misuse where all vertices exist. -/
theorem exists_floodFrom (hg : ∀ u v, g.Edge u v → v < g.size)
    (hstack : ∀ v ∈ stack, v < g.size) : ∃ marks', g.floodFrom marks stack = .ok marks' := by
  fun_induction floodFrom g marks stack with
  | case1 marks => exact ⟨marks, rfl⟩
  | case2 marks n rest hn next ih =>
      refine ih fun v hv => ?_
      obtain hv | hv := mem_pushNew.mp hv
      · exact hstack v (List.mem_cons_of_mem n hv)
      · exact hg n v ⟨g[n], Array.getElem?_eq_getElem hn, hv.1⟩
  | case3 marks n rest hn => exact absurd (hstack n List.mem_cons_self) hn

theorem exists_reachable (hg : ∀ u v, g.Edge u v → v < g.size) (hstart : start < g.size) :
    ∃ l, g.reachable start = .ok l := by
  have hstack : ∀ v ∈ ((Marks.none : Marks g.size).pushNew [] [start]).2, v < g.size := by
    intro v hv
    obtain hv | hv := mem_pushNew.mp hv
    · exact absurd hv List.not_mem_nil
    · exact List.mem_singleton.mp hv.1 ▸ hstart
  obtain ⟨marks', hok⟩ := exists_floodFrom hg hstack
  exact ⟨_, Checked.bind_eq_ok.mpr ⟨marks', hok, rfl⟩⟩

theorem mem_reachable (h : g.reachable start = .ok l) : v ∈ l ↔ g.Reach start v := by
  obtain ⟨marks', hok, heq⟩ := Checked.bind_eq_ok.mp h
  obtain rfl := Except.ok.inj heq
  rw [List.mem_filter, List.mem_range, Flooding.init.isMarked_iff hok, and_iff_right_iff_imp]
  exact fun hv => isMarked_lt ((Flooding.init.isMarked_iff hok).mpr hv)

theorem pairwise_reachable (h : g.reachable start = .ok l) : l.Pairwise (· < ·) := by
  obtain ⟨marks', -, heq⟩ := Checked.bind_eq_ok.mp h
  obtain rfl := Except.ok.inj heq
  exact List.pairwise_lt_range.filter _

end Flood

end ScannerTables.Graph
