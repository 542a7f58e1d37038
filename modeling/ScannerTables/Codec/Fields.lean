import ScannerTables.Json.Value
/-!
# Reading values out of JSON

A record is written as an object with a member for each field, in the order of the fields, and a
variant of several as an object with the name of the variant for its only member. Reading takes the
fields in any order, ignores members that are no fields, and also accepts a list of exactly the
values of all fields.

Lists and objects may be nested only so deep. A reader of a nested value is given a budget, the
number of levels that may still be opened.
-/

namespace ScannerTables.Json

/-- The number of levels that a text may open. -/
def nestingLimit : Nat := 127

/-- A natural below a limit. -/
def nat? (limit : Nat) : Json → Option Nat
  | nat n => if n < limit then some n else none
  | _ => none

/-- A truth value. -/
def bool? : Json → Option Bool
  | bool b => some b
  | _ => none

/-- A text. -/
def string? : Json → Option String
  | string text => some text
  | _ => none

/-- A value that may be missing, written as `null`. -/
def option? {α : Type} (f : Json → Option α) : Json → Option (Option α)
  | null => some none
  | v => (f v).map some

/-- A list, whose elements have one level less to open. -/
def list? {α : Type} (f : Nat → Json → Option α) : Nat → Json → Option (List α)
  | budget + 1, array vs => vs.mapM (f budget)
  | _, _ => none

/-- A record with the given names and values of its fields. -/
def record (names : List String) (values : List Json) : Json := object (names.zip values)

/-- The values of the fields with the given names, in the order of the names; a field occurs at most
once. -/
def fields? (names : List String) : Json → Option (List (Option Json))
  | object members =>
    if names.all fun name => members.countP (·.1 == name) ≤ 1 then
      some (names.map fun name => members.lookup name)
    else none
  | array vs => if vs.length = names.length then some (vs.map some) else none
  | _ => none

variable {names : List String} {values : List Json}

/-- No field of a record occurs twice. -/
theorem countP_zip_le_one (hn : names.Nodup) (hl : values.length = names.length) (name : String) :
    (names.zip values).countP (·.1 == name) ≤ 1 := by
  have hfst : (names.zip values).map Prod.fst = names := List.map_fst_zip (Nat.le_of_eq hl.symm)
  have hcount := List.nodup_iff_count.mp hn name
  rwa [← hfst, List.count_eq_countP, List.countP_map] at hcount

/-- The value of each field of a record is found by the name of the field. -/
theorem map_lookup_zip (hn : names.Nodup) (hl : values.length = names.length) :
    names.map (fun name => (names.zip values).lookup name) = values.map some := by
  induction names generalizing values with
  | nil => rw [List.length_eq_zero_iff.mp hl, List.map_nil, List.map_nil]
  | cons n ns ih =>
      obtain ⟨v, vs, rfl⟩ := List.exists_cons_of_length_eq_add_one hl
      obtain ⟨hne, hns⟩ := List.nodup_cons.mp hn
      rw [List.map_cons, List.zip_cons_cons, List.lookup_cons_self, List.map_cons,
        ← ih hns (Nat.succ.inj hl), List.cons_inj_right]
      refine List.map_congr_left fun m hm => ?_
      have hmn : (m == n) = false := beq_eq_false_iff_ne.mpr fun heq => hne (heq ▸ hm)
      rw [List.lookup_cons, hmn]

theorem fields?_record (hn : names.Nodup) (hl : values.length = names.length) :
    (record names values).fields? names = some (values.map some) := by
  have honce : (names.all fun name => (names.zip values).countP (·.1 == name) ≤ 1) = true :=
    List.all_eq_true.mpr fun name _ => decide_eq_true (countP_zip_le_one hn hl name)
  rw [record, fields?, if_pos honce, map_lookup_zip hn hl]

/-- The value of a field that must be there. -/
def required {α : Type} (f : Json → Option α) (v : Option Json) : Option α := v.bind f

/-- The value of a field that may be missing. -/
def optional {α : Type} (f : Json → Option α) : Option Json → Option (Option α)
  | none => some none
  | some v => option? f v

/-- The name and the value of the only member of an object. -/
def variant? : Json → Option (String × Json)
  | object [(name, v)] => some (name, v)
  | _ => none

end ScannerTables.Json
