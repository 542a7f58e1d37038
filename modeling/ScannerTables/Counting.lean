/-!
# Counting what is left

Two recursions of the library end because fewer and fewer members of a fixed list are still to be
dealt with. This is the fact about counting that both use.
-/

namespace ScannerTables

/-- Fewer members of a list satisfy a stronger condition, if some member tells the two apart. -/
theorem countP_lt_countP {α : Type} {p q : α → Bool} {l : List α} {x : α}
    (hpq : ∀ y, p y = true → q y = true) (hx : x ∈ l) (hp : p x = false) (hq : q x = true) :
    l.countP p < l.countP q := by
  obtain ⟨l₁, l₂, rfl⟩ := List.append_of_mem hx
  have h₁ := List.countP_mono_left (l := l₁) fun y _ => hpq y
  have h₂ := List.countP_mono_left (l := l₂) fun y _ => hpq y
  simp only [List.countP_append, List.countP_cons, hp, hq]
  simp
  omega

end ScannerTables
