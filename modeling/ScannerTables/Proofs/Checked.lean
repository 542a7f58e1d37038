import Mathlib.Data.List.Forall2
/-!
# Checked computations that succeed

When a chain of computations that may fail has answered, so has each of them.
-/

namespace ScannerTables.Checked

variable {ε α β : Type} {x : Except ε α}

theorem map_eq_ok {f : α → β} {b : β} : x.map f = .ok b ↔ ∃ a, x = .ok a ∧ f a = b := by
  cases x <;> simp [Except.map]

theorem ok_bind {a : α} {f : α → Except ε β} : (Except.ok a >>= f) = f a := rfl

theorem bind_eq_ok {f : α → Except ε β} {b : β} :
    x >>= f = .ok b ↔ ∃ a, x = .ok a ∧ f a = .ok b := by
  cases x <;> simp [bind, Except.bind]

theorem mapM_eq_ok {f : α → Except ε β} {l : List α} {l' : List β} :
    l.mapM f = .ok l' ↔ List.Forall₂ (fun a b => f a = .ok b) l l' := by
  induction l generalizing l' with
  | nil => simp [pure, Except.pure, eq_comm]
  | cons a l ih =>
      simp only [List.mapM_cons, bind_eq_ok, ih, List.forall₂_cons_left_iff]
      constructor
      · rintro ⟨b, hb, bs, hbs, h⟩
        exact ⟨b, bs, hb, hbs, (Except.ok.inj h).symm⟩
      · rintro ⟨b, bs, hb, hbs, rfl⟩
        exact ⟨b, hb, bs, hbs, rfl⟩

theorem exists_mapM_eq_ok {f : α → Except ε β} {l : List α} (h : ∀ a ∈ l, ∃ b, f a = .ok b) :
    ∃ l', l.mapM f = .ok l' := by
  induction l with
  | nil => exact ⟨[], rfl⟩
  | cons a l ih =>
      rw [List.forall_mem_cons] at h
      obtain ⟨⟨b, hb⟩, hl⟩ := h
      obtain ⟨l', hl'⟩ := ih hl
      exact ⟨b :: l', mapM_eq_ok.mpr (.cons hb (mapM_eq_ok.mp hl'))⟩

/-- Where each of a list has an answer, the list of the answers is the answer. -/
theorem mapM_eq_ok_map {f : α → Except ε β} {g : α → β} {l : List α}
    (h : ∀ a ∈ l, f a = .ok (g a)) : l.mapM f = .ok (l.map g) :=
  mapM_eq_ok.mpr (List.forall₂_map_right_iff.mpr (List.forall₂_same.mpr h))

theorem throw_ne_ok {e : ε} {a : α} : (throw e : Except ε α) ≠ .ok a :=
  nofun

/-- A list is gone through up to the first failure. -/
theorem mapM_eq_error {f : α → Except ε β} {l : List α} {e : ε} (h : l.mapM f = .error e) :
    ∃ before a after, l = before ++ a :: after ∧ (∀ b ∈ before, ∃ c, f b = .ok c) ∧
      f a = .error e := by
  induction l with
  | nil => exact absurd h.symm throw_ne_ok
  | cons a l ih =>
      rw [List.mapM_cons] at h
      cases ha : f a with
      | error e' =>
          rw [ha] at h
          obtain rfl : e' = e := Except.error.inj h
          exact ⟨[], a, l, rfl, fun _ h => absurd h List.not_mem_nil, ha⟩
      | ok c =>
          rw [ha] at h
          have hrest : l.mapM f = .error e := by
            cases hl : l.mapM f with
            | error e' =>
                rw [hl] at h
                exact h
            | ok cs =>
                rw [hl] at h
                exact absurd h.symm throw_ne_ok
          obtain ⟨before, b, after, rfl, hbefore, hb⟩ := ih hrest
          exact ⟨a :: before, b, after, rfl, List.forall_mem_cons.mpr ⟨⟨c, ha⟩, hbefore⟩, hb⟩

/-! ### Total correctness -/

/-- The computation has an answer, and it is as demanded. -/
def Returns (x : Except ε α) (post : α → Prop) : Prop := ∃ a, x = .ok a ∧ post a

namespace Returns

variable {post : α → Prop} {post' : β → Prop}

theorem pure {a : α} (h : post a) : Returns (Pure.pure a : Except ε α) post := ⟨a, rfl, h⟩

theorem bind {f : α → Except ε β} (hx : Returns x post)
    (hf : ∀ a, post a → Returns (f a) post') : Returns (x >>= f) post' := by
  obtain ⟨a, rfl, ha⟩ := hx
  exact hf a ha

theorem mono {post' : α → Prop} (h : Returns x post) (himp : ∀ a, post a → post' a) :
    Returns x post' := by
  obtain ⟨a, rfl, ha⟩ := h
  exact ⟨a, rfl, himp a ha⟩

/-- A loop returns if each step does; the invariant may speak of what is left of the list. -/
theorem foldlM {f : β → α → Except ε β} {inv : List α → β → Prop} {l : List α} {b : β}
    (start : inv l b) (step : ∀ a l b, inv (a :: l) b → Returns (f b a) (inv l)) :
    Returns (l.foldlM f b) (inv []) := by
  induction l generalizing b with
  | nil => exact pure start
  | cons a l ih =>
      rw [List.foldlM_cons]
      exact (step a l b start).bind fun b hb => ih hb

end Returns
section

variable {σ : Type}

theorem error_ne_ok {e : ε} {a : α} {s t : σ} :
    (EStateM.Result.error e s : EStateM.Result ε σ α) ≠ .ok a t :=
  nofun

/-- True if a computation with a state answers. -/
def succeeds (x : EStateM ε σ α) (s : σ) : Bool :=
  match x s with
  | .ok _ _ => true
  | .error _ _ => false

theorem exists_of_succeeds {x : EStateM ε σ α} {s : σ} (h : succeeds x s = true) :
    ∃ a t, x s = .ok a t := by
  rw [succeeds] at h
  split at h
  · next a t hx => exact ⟨a, t, hx⟩
  · exact absurd h Bool.false_ne_true

theorem succeeds_eq_true {x : EStateM ε σ α} {s t : σ} {a : α} (h : x s = .ok a t) :
    succeeds x s = true := by
  rw [succeeds, h]

theorem run_bind_eq_ok {x : EStateM ε σ α} {f : α → EStateM ε σ β} {s s' : σ} {b : β} :
    (x >>= f) s = .ok b s' ↔ ∃ a t, x s = .ok a t ∧ f a t = .ok b s' := by
  simp only [bind, EStateM.bind]
  cases x s with
  | ok a t => simp
  | error e t => simp

theorem run_bind_eq_error {x : EStateM ε σ α} {f : α → EStateM ε σ β} {s t : σ} {e : ε} :
    (x >>= f) s = .error e t ↔ x s = .error e t ∨ ∃ a u, x s = .ok a u ∧ f a u = .error e t := by
  simp only [bind, EStateM.bind]
  cases x s with
  | ok a u => simp
  | error e' u => simp

theorem run_bind_congr {x : EStateM ε σ α} {f g : α → EStateM ε σ β} {s : σ}
    (h : ∀ a t, x s = .ok a t → f a t = g a t) : (x >>= f) s = (x >>= g) s := by
  simp only [bind, EStateM.bind]
  cases hx : x s with
  | ok a t => exact h a t hx
  | error e t => rfl

theorem run_get_bind {f : σ → EStateM ε σ α} {s : σ} : (get >>= f) s = f s s := rfl

theorem run_modify_bind {g : σ → σ} {f : PUnit → EStateM ε σ α} {s : σ} :
    (modify g >>= f) s = f ⟨⟩ (g s) := rfl

theorem run_throw_ne_ok {e : ε} {a : α} {s s' : σ} : (throw e : EStateM ε σ α) s ≠ .ok a s' :=
  nofun

/-- Of the computations in a row that fail, those before the fault were carried out. -/
theorem forM_congr {f g : α → EStateM ε σ PUnit} {l : List α} (h : ∀ a ∈ l, f a = g a) :
    l.forM f = l.forM g := by
  induction l with
  | nil => rfl
  | cons a l ih =>
      rw [List.forall_mem_cons] at h
      change (f a >>= fun _ => l.forM f) = (g a >>= fun _ => l.forM g)
      rw [h.1, ih h.2]

theorem forM_eq_error {f : α → EStateM ε σ PUnit} {l : List α} {s t : σ} {e : ε}
    (h : l.forM f s = .error e t) : ∃ before a after u, l = before ++ a :: after ∧
      before.forM f s = .ok ⟨⟩ u ∧ f a u = .error e t := by
  induction l generalizing s with
  | nil => exact absurd h.symm error_ne_ok
  | cons a l ih =>
      rcases run_bind_eq_error.mp h with ha | ⟨⟨⟩, u, ha, hl⟩
      · exact ⟨[], a, l, s, rfl, rfl, ha⟩
      · obtain ⟨before, b, after, v, rfl, hbefore, hb⟩ := ih hl
        exact ⟨a :: before, b, after, v, rfl, run_bind_eq_ok.mpr ⟨⟨⟩, u, ha, hbefore⟩, hb⟩

/-- The state that a computation leaves, whether it answers or fails. -/
def final (x : EStateM ε σ α) (s : σ) : σ :=
  match x s with
  | .ok _ t => t
  | .error _ t => t

theorem final_eq_of_eq_ok {x : EStateM ε σ α} {s t : σ} {a : α} (h : x s = .ok a t) :
    final x s = t := by
  rw [final, h]

theorem eq_ok_of_succeeds {x : EStateM ε σ α} {s : σ} (h : succeeds x s = true) :
    ∃ a, x s = .ok a (final x s) := by
  obtain ⟨a, t, hx⟩ := exists_of_succeeds h
  exact ⟨a, by rw [final, hx]⟩

theorem final_get_bind {f : σ → EStateM ε σ α} {s : σ} : final (get >>= f) s = final (f s) s := rfl

theorem final_set_bind {f : PUnit → EStateM ε σ α} {s t : σ} :
    final (set t >>= f) s = final (f ⟨⟩) t := rfl

theorem final_modify_bind {g : σ → σ} {f : PUnit → EStateM ε σ α} {s : σ} :
    final (modify g >>= f) s = final (f ⟨⟩) (g s) := rfl

theorem succeeds_get_bind {f : σ → EStateM ε σ α} {s : σ} :
    succeeds (get >>= f) s = succeeds (f s) s := rfl

theorem succeeds_set_bind {f : PUnit → EStateM ε σ α} {s t : σ} :
    succeeds (set t >>= f) s = succeeds (f ⟨⟩) t := rfl

theorem final_bind_eq {x : EStateM ε σ α} {f : α → EStateM ε σ β} {s : σ} : final (x >>= f) s =
    match x s with
    | .ok a t => final (f a) t
    | .error _ t => t := by
  rw [final]
  simp only [bind, EStateM.bind]
  cases x s <;> rfl

theorem succeeds_bind {x : EStateM ε σ α} {f : α → EStateM ε σ β} {s : σ} :
    succeeds (x >>= f) s =
      match x s with
      | .ok a t => succeeds (f a) t
      | .error _ _ => false := by
  rw [succeeds]
  simp only [bind, EStateM.bind]
  cases x s <;> rfl

/-- What each part of a computation keeps, the whole keeps. -/
theorem final_bind {P : σ → Prop} {x : EStateM ε σ α} {f : α → EStateM ε σ β} {s : σ}
    (hx : P (final x s)) (hf : ∀ a t, x s = .ok a t → P t → P (final (f a) t)) :
    P (final (x >>= f) s) := by
  rw [final] at hx ⊢
  simp only [bind, EStateM.bind]
  cases hs : x s with
  | ok a t =>
      rw [hs] at hx
      exact hf a t hs hx
  | error e t =>
      rw [hs] at hx
      exact hx

theorem final_forM {P : σ → Prop} {f : α → EStateM ε σ PUnit} {l : List α} {s : σ}
    (hf : ∀ a ∈ l, ∀ t, P t → P (final (f a) t)) (hs : P s) : P (final (l.forM f) s) := by
  induction l generalizing s with
  | nil => exact hs
  | cons a l ih =>
      rw [List.forall_mem_cons] at hf
      exact final_bind (hf.1 s hs) fun _ t _ ht => ih hf.2 ht

/-- A result whose state is changed afterwards. -/
def mapState (φ : σ → σ) : EStateM.Result ε σ α → EStateM.Result ε σ α
  | .ok a s => .ok a (φ s)
  | .error e s => .error e (φ s)

theorem run_bind_mapState {φ : σ → σ} {x x' : EStateM ε σ α} {f f' : α → EStateM ε σ β} {s : σ}
    (hx : x' (φ s) = mapState φ (x s))
    (hf : ∀ a t, x s = .ok a t → f' a (φ t) = mapState φ (f a t)) :
    (x' >>= f') (φ s) = mapState φ ((x >>= f) s) := by
  simp only [bind, EStateM.bind]
  rw [hx]
  cases hs : x s with
  | ok a t => exact hf a t hs
  | error e t => rfl

/-- A change that may as well be made after each computation may be made after all of them. -/
theorem forM_mapState {φ : σ → σ} {f : α → EStateM ε σ PUnit}
    (hf : ∀ a s, f a (φ s) = mapState φ (f a s)) (l : List α) (s : σ) :
    l.forM f (φ s) = mapState φ (l.forM f s) := by
  induction l generalizing s with
  | nil => rfl
  | cons a l ih => exact run_bind_mapState (hf a s) fun _ t _ => ih t

end

end ScannerTables.Checked
