/-!
# Claimed names

Labels of definitions and images of literals belong to the token that claimed them first. A list of
claims records who owns which name; a later claim of an owned name changes nothing.
-/

namespace ScannerTables

/-- Names with the tokens that own them, in the order of the claims. -/
abbrev Claims := List (String × Nat)

namespace Claims

variable (c : Claims) (name : String) (token : Nat)

/-- The token that owns a name. -/
def owner? : Option Nat := List.lookup name c

/-- Gives a name to a token unless it has an owner. -/
def claim : Claims := if (c.owner? name).isSome then c else c ++ [(name, token)]

/-- The owner of a name once a token has claimed it. -/
def ownerAfter : Nat := (c.owner? name).getD token

/-- Takes a name from a token that owns it; other names and owners stay. -/
def release : Claims :=
  if c.owner? name = some token then c.filter fun entry => entry.1 ≠ name else c

variable {c name token}

@[simp] theorem owner?_nil : owner? [] name = none := rfl

theorem owner?_claim {name' : String} : (c.claim name token).owner? name' =
    if name' = name then some (c.ownerAfter name token) else c.owner? name' := by
  rw [claim, ownerAfter]
  split
  · next h =>
    obtain ⟨t, ht⟩ := Option.isSome_iff_exists.1 h
    split
    · next e => rw [e, ht, Option.getD_some]
    · rfl
  · next h =>
    have h : List.lookup name c = none := Option.not_isSome_iff_eq_none.1 h
    have one : List.lookup name' [(name, token)] = if name' = name then some token else none := by
      rw [List.lookup_cons]
      split <;> simp_all
    rw [owner?, List.lookup_append, one, owner?, owner?, h]
    split
    · next e => rw [e, h]; rfl
    · rw [Option.or_none]

theorem mem_of_owner? (h : c.owner? name = some token) : (name, token) ∈ c := by
  obtain ⟨l₁, l₂, h, -⟩ := List.lookup_eq_some_iff.1 h
  simp [h]

end Claims
end ScannerTables
