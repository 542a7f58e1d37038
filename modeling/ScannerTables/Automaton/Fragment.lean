import ScannerTables.Automaton.Basic
import ScannerTables.Counting
import ScannerTables.Diagnostic
import ScannerTables.Token.Registry
/-!
# Building the states of a pattern

Each operator of a pattern has a way to join the states of its parts, given here as an operation on
builders: `Build.sequence`, `Build.choice`, `Build.zeroOrMore` and so on. A builder adds states to
an automaton and answers with the fragment it made; when it fails, the states made so far stay.
`Build.pattern` puts the operations together along a pattern, and `Build.inlined` resolves
references, each inlined where it stands.

Inlining ends because a label that is being inlined cannot be entered again, so that every step
inwards leaves fewer labels of the registry.
-/

namespace ScannerTables

/-- A part of an automaton with one way in and one way out. -/
structure Fragment where
  entry : Nat
  exit : Nat
deriving DecidableEq

/-- A step that adds to an automaton and may fail, keeping what it added before. -/
abbrev Build := EStateM Failure Automaton

namespace Build

/-- A change to the automaton whose preconditions hold in a correct build. -/
def change (f : Automaton → Except Misuse Automaton) : Build Unit := fun a =>
  match f a with
  | .ok a' => .ok () a'
  | .error m => .error (.misuse m) a

/-- Fails because of a fault in the definitions. -/
def fault {α : Type} (e : DefinitionError) : Build α := throw (.faulty e)

/-- Adds a state for a token and answers with its number. -/
def newState (token : Nat) : Build Nat := fun a => .ok a.size (a.addState (some token))

/-- Adds an epsilon move. -/
def link (source target : Nat) : Build Unit := change (·.addEpsilon source target)

/-! ### Characters -/

section

variable (token : Nat) (ignoreCase : Bool)

/-- Two states, with a move from the first to the second on the given ranges. -/
def ranges (l : List Interval) : Build Fragment := do
  let entry ← newState token
  let exit ← newState token
  l.forM fun i => change (·.addRange entry i.lo i.hi)
  change (·.setNext entry exit)
  return ⟨entry, exit⟩

/-- One state after the other, with a move on each of the given characters in turn; answers with
the last. -/
def chain (current : Nat) : List Char → Build Nat
  | [] => return current
  | c :: cs => do
    let next ← newState token
    change (·.setCharMove current c.toNat ignoreCase)
    change (·.setNext current next)
    chain next cs

/-- The characters of a text; the empty text has the same entry and exit. -/
def literal (text : String) : Build Fragment := do
  let entry ← newState token
  return ⟨entry, ← chain token ignoreCase entry text.toList⟩

end

/-! ### Operators -/

section

variable (token : Nat)

/-- Builds the parts one after the other, linked from `previous` through all of them to `exit`. -/
def sequenceFrom (previous exit : Nat) : List (Build Fragment) → Build Unit
  | [] => link previous exit
  | part :: parts => do
    let f ← part
    link previous f.entry
    sequenceFrom f.exit exit parts

/-- Every part in turn; a single part stands for itself. -/
def sequence : List (Build Fragment) → Build Fragment
  | [part] => part
  | parts => do
    let entry ← newState token
    let exit ← newState token
    sequenceFrom entry exit parts
    return ⟨entry, exit⟩

/-- One of the parts; a single part stands for itself. -/
def choice : List (Build Fragment) → Build Fragment
  | [part] => part
  | parts => do
    let entry ← newState token
    let exit ← newState token
    parts.forM fun part => do
      let f ← part
      link entry f.entry
      link f.exit exit
    return ⟨entry, exit⟩

/-- Any number of copies of the part. -/
def zeroOrMore (part : Build Fragment) : Build Fragment := do
  let entry ← newState token
  let exit ← newState token
  let f ← part
  link entry f.entry
  link entry exit
  link f.exit exit
  link f.exit f.entry
  return ⟨entry, exit⟩

/-- At least one copy of the part. -/
def oneOrMore (part : Build Fragment) : Build Fragment := do
  let entry ← newState token
  let exit ← newState token
  let f ← part
  link entry f.entry
  link f.exit f.entry
  link f.exit exit
  return ⟨entry, exit⟩

/-- The part or nothing. -/
def zeroOrOne (part : Build Fragment) : Build Fragment := do
  let entry ← newState token
  let exit ← newState token
  let f ← part
  link entry f.entry
  link entry exit
  link f.exit exit
  return ⟨entry, exit⟩

/-- From `min` to `max` copies of the part, without an upper bound if `max` is missing. -/
def repetition (min : Nat) (max : Option Nat) (part : Build Fragment) : Build Fragment :=
  match max with
  | none => sequence token (List.replicate min part ++ [zeroOrMore token part])
  | some max =>
    if max < min then fault (.invalidRepetition min max)
    else sequence token
      (List.replicate min part ++ List.replicate (max - min) (zeroOrOne token part))

end

/-! ### Patterns -/

section

variable (token : Nat) (ignoreCase : Bool) (refer : String → Build Fragment)

mutual

/-- The states of a pattern, where `refer` builds those of a reference. -/
def pattern : Pattern → Build Fragment
  | .charClass k => ranges token (k.orderedRanges ignoreCase)
  | .literal text => literal token ignoreCase text
  | .sequence units => sequence token (patterns units)
  | .choice alternatives => choice token (patterns alternatives)
  | .zeroOrMore body => zeroOrMore token (pattern body)
  | .oneOrMore body => oneOrMore token (pattern body)
  | .zeroOrOne body => zeroOrOne token (pattern body)
  | .repetition body min max => repetition token min max (pattern body)
  | .reference label => refer label

/-- The builders of a list of patterns. -/
def patterns : List Pattern → List (Build Fragment)
  | [] => []
  | p :: ps => pattern p :: patterns ps

end

@[simp] theorem patterns_eq_map (ps : List Pattern) :
    patterns token ignoreCase refer ps = ps.map (pattern token ignoreCase refer) := by
  induction ps with
  | nil => rfl
  | cons p ps ih => rw [patterns, ih, List.map_cons]

end

end Build

/-- The number of index entries whose label is not among those being inlined. -/
def TokenRegistry.unopened (r : TokenRegistry) (resolving : List String) : Nat :=
  r.labels.countP fun entry => entry.1 ∉ resolving

theorem TokenRegistry.mem_labels_of_resolve? {r : TokenRegistry} {label : String} {p : Pattern}
    (h : r.resolve? label = some p) : ∃ id, (label, id) ∈ r.labels := by
  rw [resolve?, Option.map_eq_some_iff] at h
  obtain ⟨d, h, -⟩ := h
  obtain ⟨id, h, -⟩ := Option.bind_eq_some_iff.1 h
  exact ⟨id, Claims.mem_of_owner? h⟩

theorem TokenRegistry.unopened_cons_lt {r : TokenRegistry} {label : String} {p : Pattern}
    {resolving : List String} (h : r.resolve? label = some p) (hl : label ∉ resolving) :
    r.unopened (label :: resolving) < r.unopened resolving := by
  obtain ⟨id, h⟩ := mem_labels_of_resolve? h
  refine countP_lt_countP ?_ h ?_ ?_
  · intro entry
    simp only [List.mem_cons, not_or, decide_eq_true_eq]
    exact And.right
  · simp
  · simpa using hl

namespace Build

/-- The states of a pattern with every reference inlined; `resolving` holds the labels on the way
to the pattern, none of which may be met again. -/
def inlined (r : TokenRegistry) (token : Nat) (ignoreCase : Bool) (resolving : List String)
    (p : Pattern) : Build Fragment :=
  pattern token ignoreCase (fun label =>
    if _hl : label ∈ resolving then fault (.recursiveReference label)
    else match _hr : r.resolve? label with
      | none => fault (.undefinedReference label)
      | some q => inlined r token ignoreCase (label :: resolving) q) p
termination_by r.unopened resolving
decreasing_by exact TokenRegistry.unopened_cons_lt _hr _hl

/-- The states of a token, entered from `initial` and final where the pattern ends. -/
def token (r : TokenRegistry) (ordinal : Nat) (ignoreCase : Bool) (initial : Nat) :
    Build Fragment := do
  let some d := r.get? ordinal | fault (.unknownToken ordinal)
  let f ← inlined r ordinal ignoreCase d.label.toList d.pattern
  change (·.setFinal f.exit)
  link initial f.entry
  return f

end Build
end ScannerTables
