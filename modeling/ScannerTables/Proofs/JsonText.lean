import Mathlib.Data.List.DropRight
import ScannerTables.Json.Printer
import ScannerTables.Proofs.JsonGrammar
/-!
# Reading and writing JSON

The reader finds the value in every text that stands for it (`StandsFor.read?_eq`), and the writer
writes such a text, on one line or on many (`Plain.standsFor_write`). The reader goes by the first
character, so what matters is how a part begins and that nothing behind it could belong to it, for
which `Delimited` is enough. The fuel of the reader is the length of the text, and every part leaves
enough of it for the next.
-/

namespace ScannerTables.Json

variable {c : Char} {cs rest text blanks : List Char} {n fuel : Nat} {v : Json} {name : String}

/-! ### Blanks -/

theorem skipBlanks_of_not_blank (h : isBlank c = false) : skipBlanks (c :: rest) = c :: rest := by
  rw [skipBlanks, List.dropWhile_cons, h]
  rfl

theorem Blanks.skipBlanks_append (h : Blanks blanks) (text : List Char) :
    skipBlanks (blanks ++ text) = skipBlanks text := by
  rw [skipBlanks, List.dropWhile_append_of_pos h]
  rfl

theorem skipBlanks_skipBlanks (text : List Char) :
    skipBlanks (skipBlanks text) = skipBlanks text := by
  rw [skipBlanks, skipBlanks, List.dropWhile_idempotent]

theorem readValue?_skipBlanks (fuel : Nat) (text : List Char) :
    readValue? fuel (skipBlanks text) = readValue? fuel text := by
  cases fuel with
  | zero => rfl
  | succ fuel => rw [readValue?, readValue?, skipBlanks_skipBlanks]

theorem Blanks.readValue?_append (h : Blanks blanks) :
    readValue? fuel (blanks ++ text) = readValue? fuel text := by
  rw [← readValue?_skipBlanks, h.skipBlanks_append, readValue?_skipBlanks]

theorem readElements?_skipBlanks (fuel : Nat) (text : List Char) :
    readElements? fuel (skipBlanks text) = readElements? fuel text := by
  cases fuel with
  | zero => rfl
  | succ fuel => rw [readElements?, readElements?, readValue?_skipBlanks]

theorem readMembers?_skipBlanks (fuel : Nat) (text : List Char) :
    readMembers? fuel (skipBlanks text) = readMembers? fuel text := by
  cases fuel with
  | zero => rfl
  | succ fuel => rw [readMembers?, readMembers?, skipBlanks_skipBlanks]

/-- Nothing, or a text that begins with a blank or with what ends a value. -/
inductive Delimited : List Char → Prop
  | nil : Delimited []
  | cons {c : Char} (h : c ∈ [' ', '\n', '\t', '\r', ',', ']', '}']) (rest : List Char) :
      Delimited (c :: rest)

theorem Blanks.delimited_append (hblanks : Blanks blanks) (h : Delimited rest) :
    Delimited (blanks ++ rest) := by
  cases blanks with
  | nil => exact h
  | cons c blanks =>
      have hc : isBlank c = true := hblanks c List.mem_cons_self
      refine .cons ?_ _
      simp only [isBlank, Bool.or_eq_true, decide_eq_true_eq] at hc
      simp only [List.mem_cons]
      tauto

/-! ### Numbers -/

theorem natOfDigits_toDigits (n : Nat) : natOfDigits (Nat.toDigits 10 n) = n :=
  Nat.ofDigitChars_toDigits (by decide) (by decide)

theorem isDigit_of_mem_toDigits (hc : c ∈ Nat.toDigits 10 n) : c.isDigit = true :=
  Nat.isDigit_of_mem_toDigits (by decide) (by decide) hc

theorem ne_of_isDigit {d : Char} (hc : c.isDigit = true) (hd : d.isDigit = false) : c ≠ d := by
  rintro rfl
  exact absurd (hc.symm.trans hd) (by decide)

theorem isBlank_eq_false_of_isDigit (hc : c.isDigit = true) : isBlank c = false := by
  rw [isBlank, Bool.or_eq_false_iff, Bool.or_eq_false_iff, Bool.or_eq_false_iff]
  simp only [decide_eq_false_iff_not]
  exact ⟨⟨⟨ne_of_isDigit hc rfl, ne_of_isDigit hc rfl⟩, ne_of_isDigit hc rfl⟩,
    ne_of_isDigit hc rfl⟩

/-- Only zero has a zero in front. -/
theorem exists_toDigits_eq_cons (hn : n ≠ 0) : ∃ c cs, Nat.toDigits 10 n = c :: cs ∧ c ≠ '0' := by
  induction n using Nat.strongRecOn with
  | ind n ih =>
      by_cases hlt : n < 10
      · refine ⟨_, [], Nat.toDigits_of_lt_base hlt, ?_⟩
        intro hzero
        have hval := congrArg Char.toNat hzero
        rw [Nat.toNat_digitChar_of_lt_ten hlt] at hval
        have : ('0' : Char).toNat = 48 := rfl
        omega
      · obtain ⟨c, cs, heq, hc⟩ := ih (n / 10) (by omega) (by omega)
        refine ⟨c, cs ++ [Nat.digitChar (n % 10)], ?_, hc⟩
        rw [Nat.toDigits_of_base_le (b := 10) (n := n) (by decide) (Nat.le_of_not_lt hlt), heq]
        rfl

theorem readDigits?_append {ds : List Char} (hne : ds ≠ []) (hds : ∀ c ∈ ds, c.isDigit = true)
    (hrest : ∀ c ∈ rest.head?, c.isDigit = false) :
    readDigits? (ds ++ rest) = some (ds, rest) := by
  have htake : (ds ++ rest).takeWhile Char.isDigit = ds := by
    rw [List.takeWhile_append_of_pos hds]
    cases rest with
    | nil => simp
    | cons c rest => simp [hrest c rfl]
  have hdrop : (ds ++ rest).dropWhile Char.isDigit = rest := by
    rw [List.dropWhile_append_of_pos hds]
    cases rest with
    | nil => rfl
    | cons c rest => simp [hrest c rfl]
  obtain ⟨c, cs, rfl⟩ := List.exists_cons_of_ne_nil hne
  have hhead : ((c :: cs) ++ rest).head?.any Char.isDigit = true := hds c List.mem_cons_self
  rw [readDigits?, if_pos hhead, htake, hdrop]

theorem readInteger?_toDigits (hrest : ∀ c ∈ rest.head?, c.isDigit = false) :
    readInteger? (Nat.toDigits 10 n ++ rest) = some (Nat.toDigits 10 n, rest) := by
  by_cases hn : n = 0
  · subst hn
    rfl
  · obtain ⟨c, cs, heq, hc⟩ := exists_toDigits_eq_cons hn
    have hdigits : readDigits? (Nat.toDigits 10 n ++ rest) = some (Nat.toDigits 10 n, rest) :=
      readDigits?_append (heq ▸ List.cons_ne_nil c cs) (fun _ => isDigit_of_mem_toDigits) hrest
    rw [heq] at hdigits ⊢
    rw [readInteger?, hdigits]
    rintro cs' heq'
    exact hc (List.cons.inj heq').1

/-- No number goes on where a value ends. -/
theorem Delimited.number (h : Delimited rest) : (∀ c ∈ rest.head?, c.isDigit = false) ∧
    skipFraction? rest = some (false, rest) ∧ skipExponent? rest = some (false, rest) := by
  cases h with
  | nil => exact ⟨nofun, rfl, rfl⟩
  | cons h cs =>
      simp only [List.mem_cons, List.not_mem_nil, or_false] at h
      rcases h with rfl | rfl | rfl | rfl | rfl | rfl | rfl <;>
        exact ⟨fun c hc => Option.some.inj hc ▸ rfl, rfl, rfl⟩

theorem exists_digit (n : Nat) : ∃ c cs, Nat.toDigits 10 n = c :: cs ∧ c.isDigit = true := by
  obtain ⟨c, cs, heq⟩ : ∃ c cs, Nat.toDigits 10 n = c :: cs :=
    List.exists_cons_of_ne_nil Nat.toDigits_ne_nil
  exact ⟨c, cs, heq, isDigit_of_mem_toDigits (heq ▸ List.mem_cons_self)⟩

theorem readNumber?_toDigits (h : Delimited rest) :
    readNumber? (Nat.toDigits 10 n ++ rest) = some (nat n, rest) := by
  obtain ⟨hdigit, hfraction, hexponent⟩ := h.number
  have hread := readInteger?_toDigits (n := n) hdigit
  obtain ⟨c, cs, heq, hc⟩ := exists_digit n
  rw [readNumber?, hread]
  · simp [hfraction, hexponent, natOfDigits_toDigits]
  · intro cs' heq'
    rw [heq] at heq'
    exact ne_of_isDigit hc rfl (List.cons.inj heq').1

/-! ### Texts -/

theorem readCodes?_unescape {d : Char} (hu : c ≠ 'u') (hc : unescape? c = some d)
    (rest : List Char) : readCodes? ('\\' :: c :: rest) =
      (readCodes? rest).map fun (codes, rest) => (d.toNat :: codes, rest) := by
  rw [readCodes?.eq_4 c rest (fun _ _ _ _ _ h => absurd h hu), hc]
  cases readCodes? rest <;> rfl

theorem HexCode.readCodes?_append {ds : List Char} {code : Nat} (h : HexCode ds code)
    (rest : List Char) : readCodes? ('\\' :: 'u' :: (ds ++ rest)) =
      (readCodes? rest).map fun (codes, rest) => (code :: codes, rest) := by
  obtain ⟨h₁, h₂, h₃, h₄⟩ := h
  simp only [List.cons_append, List.nil_append]
  rw [readCodes?, h₁, h₂, h₃, h₄]
  cases readCodes? rest <;> rfl

/-- Characters are no surrogates. -/
theorem isSurrogate_toNat (c : Char) :
    isHighSurrogate c.toNat = false ∧ isLowSurrogate c.toNat = false := by
  obtain h | h : c.toNat < 0xD800 ∨ 0xDFFF < c.toNat ∧ c.toNat < 0x110000 := c.valid
  all_goals
    simp only [isHighSurrogate, isLowSurrogate, Bool.and_eq_false_iff, decide_eq_false_iff_not]
    omega

theorem joinSurrogates?_char (c : Char) (codes : List Nat) :
    joinSurrogates? (c.toNat :: codes) = (joinSurrogates? codes).map (c :: ·) := by
  obtain ⟨hhigh, hlow⟩ := isSurrogate_toNat c
  cases codes with
  | nil => simp [joinSurrogates?, hhigh, hlow, Char.ofNat_toNat]
  | cons code codes => simp [joinSurrogates?, hhigh, hlow, Char.ofNat_toNat]

/-- However a character is spelled, its codes are read, and joined they are the character. -/
theorem Spells.exists_codes (h : Spells c cs) : ∃ codes : List Nat,
    (∀ rest, readCodes? (cs ++ rest) =
      (readCodes? rest).map fun (more, rest) => (codes ++ more, rest)) ∧
    ∀ more, joinSurrogates? (codes ++ more) = (joinSurrogates? more).map (c :: ·) := by
  cases h with
  | self hcontrol hquote hslash =>
      refine ⟨[c.toNat], fun rest => ?_, joinSurrogates?_char c⟩
      rw [List.singleton_append,
        readCodes?.eq_5 c rest hquote (fun _ _ _ _ _ h => absurd h hslash)
          (fun _ _ h => absurd h hslash),
        if_neg (by simp [Nat.not_lt.mpr hcontrol, hslash])]
      rfl
  | @letter d hd =>
      refine ⟨[c.toNat], readCodes?_unescape ?_ hd, joinSurrogates?_char c⟩
      rintro rfl
      exact absurd hd.symm (Option.some_ne_none c)
  | code h => exact ⟨[c.toNat], h.readCodes?_append, joinSurrogates?_char c⟩
  | @pair ds ds' high low hhigh hlow hc h h' =>
      refine ⟨[high, low], fun rest => ?_, fun more => ?_⟩
      · have happend : '\\' :: 'u' :: (ds ++ '\\' :: 'u' :: ds') ++ rest =
            '\\' :: 'u' :: (ds ++ '\\' :: 'u' :: (ds' ++ rest)) := by
          simp only [List.cons_append, List.append_assoc]
        rw [happend, h.readCodes?_append, h'.readCodes?_append]
        cases readCodes? rest <;> rfl
      · simp only [List.cons_append, List.nil_append]
        rw [joinSurrogates?, if_pos hhigh, if_pos hlow, ← hc, Char.ofNat_toNat]

/-- A text is read character by character up to the quote behind it. -/
theorem exists_codes_of_spells {l : List Char} {parts : List (List Char)}
    (h : List.Forall₂ Spells l parts) : ∃ codes,
      readCodes? (parts.flatten ++ '"' :: rest) = some (codes, rest) ∧
        joinSurrogates? codes = some l := by
  induction h with
  | nil => exact ⟨[], rfl, rfl⟩
  | cons hc _ ih =>
      obtain ⟨codes, hread, hjoin⟩ := hc.exists_codes
      obtain ⟨more, hmore, hl⟩ := ih
      refine ⟨codes ++ more, ?_, ?_⟩
      · rw [List.flatten_cons, List.append_assoc, hread, hmore]
        rfl
      · rw [hjoin, hl]
        rfl

/-- A text is read up to its closing quote. -/
theorem Quotes.readText?_eq {name : String} (h : Quotes name cs) : ∃ tail, cs = '"' :: tail ∧
    ∀ rest, readText? (tail ++ rest) = some (some name, rest) := by
  obtain ⟨h⟩ := h
  refine ⟨_, rfl, fun rest => ?_⟩
  obtain ⟨codes, hread, hjoin⟩ := exists_codes_of_spells h
  rw [readText?, List.append_assoc, List.singleton_append, hread, Option.map_some]
  dsimp only
  rw [hjoin, Option.map_some, String.ofList_toList]

/-! ### Values by their first character -/

/-- Behind a bracket that is not closed at once there are elements. -/
theorem readValue?_array (h : ∀ cs, skipBlanks text ≠ ']' :: cs) :
    readValue? (fuel + 1) ('[' :: text) =
      (readElements? fuel text).map fun (vs, rest) => (array vs, rest) := by
  rw [readValue?, skipBlanks_of_not_blank (by decide), ← readElements?_skipBlanks]
  split
  case h_5 rest heq =>
    obtain rfl := (List.cons.inj heq).2
    split
    · next heq => exact absurd heq (h _)
    · rfl
  case h_7 hopening _ => exact absurd rfl (hopening text)
  all_goals exact absurd (List.cons.inj ‹_›).1 (by decide)

/-- Behind a brace that is not closed at once there are members. -/
theorem readValue?_object (h : ∀ cs, skipBlanks text ≠ '}' :: cs) :
    readValue? (fuel + 1) ('{' :: text) =
      (readMembers? fuel text).map fun (ms, rest) => (ofMembers ms, rest) := by
  rw [readValue?, skipBlanks_of_not_blank (by decide), ← readMembers?_skipBlanks]
  split
  case h_6 rest heq =>
    obtain rfl := (List.cons.inj heq).2
    split
    · next heq => exact absurd heq (h _)
    · rfl
  case h_7 hopening => exact absurd rfl (hopening text)
  all_goals exact absurd (List.cons.inj ‹_›).1 (by decide)

theorem readValue?_digit (hc : c.isDigit = true) :
    readValue? (fuel + 1) (c :: text) = readNumber? (c :: text) := by
  rw [readValue?, skipBlanks_of_not_blank (isBlank_eq_false_of_isDigit hc)]
  split
  case h_7 => rfl
  all_goals
    next heq => exact absurd (List.cons.inj heq).1 (ne_of_isDigit hc (by decide))

theorem readValue?_emptyArray (h : Blanks blanks) :
    readValue? (fuel + 1) ('[' :: (blanks ++ ']' :: rest)) = some (array [], rest) := by
  have hskip : skipBlanks (blanks ++ ']' :: rest) = ']' :: rest := by
    rw [h.skipBlanks_append, skipBlanks_of_not_blank (by decide)]
  rw [readValue?, skipBlanks_of_not_blank (by decide)]
  split
  case h_5 heq =>
    rw [← (List.cons.inj heq).2, hskip]
    rfl
  case h_7 hopening _ => exact absurd rfl (hopening _)
  all_goals exact absurd (List.cons.inj ‹_›).1 (by decide)

theorem readValue?_emptyObject (h : Blanks blanks) :
    readValue? (fuel + 1) ('{' :: (blanks ++ '}' :: rest)) = some (object [], rest) := by
  have hskip : skipBlanks (blanks ++ '}' :: rest) = '}' :: rest := by
    rw [h.skipBlanks_append, skipBlanks_of_not_blank (by decide)]
  rw [readValue?, skipBlanks_of_not_blank (by decide)]
  split
  case h_6 heq =>
    rw [← (List.cons.inj heq).2, hskip]
    rfl
  case h_7 hopening => exact absurd rfl (hopening _)
  all_goals exact absurd (List.cons.inj ‹_›).1 (by decide)

/-! ### Elements and members, one by one -/

/-- A text in which a reader finds a value, whatever ends it. -/
def Holding (cs : List Char) (v : Json) : Prop := ∀ fuel rest, cs.length ≤ fuel →
  Delimited rest → readValue? fuel (cs ++ rest) = some (v, rest)

/-- What is read of an item: its value, and then what stands behind the blanks. -/
theorem Item.Padded.readValue?_chars {i : Item} (h : i.Padded) (hv : Holding i.text v)
    (hfuel : i.chars.length ≤ fuel) (hc : c ∈ [',', ']', '}']) (rest : List Char) :
    readValue? fuel (i.chars ++ c :: rest) = some (v, i.after ++ c :: rest) ∧
      skipBlanks (i.after ++ c :: rest) = c :: rest := by
  have hdelimited : Delimited (c :: rest) :=
    .cons (List.mem_append_right [' ', '\n', '\t', '\r'] hc) rest
  constructor
  · rw [Item.chars, List.length_append, List.length_append] at hfuel
    rw [Item.chars, List.append_assoc, List.append_assoc, h.before.readValue?_append]
    exact hv fuel _ (by omega) (h.after.delimited_append hdelimited)
  · rw [h.after.skipBlanks_append, skipBlanks_of_not_blank]
    simp only [List.mem_cons, List.not_mem_nil, or_false] at hc
    rcases hc with rfl | rfl | rfl <;> rfl

theorem readElements?_last {i : Item} (h : i.Padded) (hv : Holding i.text v)
    (hfuel : i.chars.length ≤ fuel) :
    readElements? (fuel + 1) (i.chars ++ ']' :: rest) = some ([v], rest) := by
  obtain ⟨hread, hskip⟩ := h.readValue?_chars hv hfuel (c := ']') (by decide) rest
  rw [readElements?, hread, Option.bind_eq_bind, Option.bind_some]
  dsimp only
  rw [hskip]
  rfl

theorem readElements?_comma {i : Item} (h : i.Padded) (hv : Holding i.text v)
    (hfuel : i.chars.length ≤ fuel) :
    readElements? (fuel + 1) (i.chars ++ ',' :: rest) =
      (readElements? fuel rest).map fun (vs, rest) => (v :: vs, rest) := by
  obtain ⟨hread, hskip⟩ := h.readValue?_chars hv hfuel (c := ',') (by decide) rest
  rw [readElements?, hread, Option.bind_eq_bind, Option.bind_some]
  dsimp only
  rw [hskip]
  change (readElements? fuel rest).bind _ = _
  cases readElements? fuel rest <;> rfl

/-- Once its name and its value are read, a member is the last or others follow. -/
theorem readMembers?_chars {i : Item} (h : i.Padded) (hname : Quotes name i.text) :
    readMembers? (fuel + 1) (i.chars ++ ':' :: text) =
      (readValue? fuel text).bind fun (v, rest) =>
        match skipBlanks rest with
        | ',' :: rest => (readMembers? fuel rest).bind fun (ms, rest) =>
          some ((some name, v) :: ms, rest)
        | '}' :: rest => some ([(some name, v)], rest)
        | _ => none := by
  obtain ⟨tail, htail, hread⟩ := hname.readText?_eq
  rw [readMembers?, Item.chars, List.append_assoc, h.before.skipBlanks_append, htail,
    List.append_assoc, List.cons_append, skipBlanks_of_not_blank (by decide)]
  change (readText? _).bind _ = _
  rw [hread, Option.bind_some]
  dsimp only
  rw [h.after.skipBlanks_append, skipBlanks_of_not_blank (by decide)]
  rfl

theorem readMembers?_last {m : Member} (hn : m.nameItem.Padded) (h : m.valueItem.Padded)
    (hname : Quotes m.name m.nameItem.text) (hv : Holding m.valueItem.text m.value)
    (hfuel : m.chars.length ≤ fuel) :
    readMembers? (fuel + 1) (m.chars ++ '}' :: rest) = some ([(some m.name, m.value)], rest) := by
  rw [Member.chars, List.length_append, List.length_cons] at hfuel
  have hvalue : m.valueItem.chars.length ≤ fuel := by omega
  obtain ⟨hread, hskip⟩ := h.readValue?_chars hv hvalue (c := '}') (by decide) rest
  rw [Member.chars, List.append_assoc, List.cons_append, readMembers?_chars hn hname, hread,
    Option.bind_some]
  dsimp only
  rw [hskip]
  rfl

theorem readMembers?_comma {m : Member} (hn : m.nameItem.Padded) (h : m.valueItem.Padded)
    (hname : Quotes m.name m.nameItem.text) (hv : Holding m.valueItem.text m.value)
    (hfuel : m.chars.length ≤ fuel) :
    readMembers? (fuel + 1) (m.chars ++ ',' :: rest) =
      (readMembers? fuel rest).map fun (ms, rest) => ((some m.name, m.value) :: ms, rest) := by
  rw [Member.chars, List.length_append, List.length_cons] at hfuel
  have hvalue : m.valueItem.chars.length ≤ fuel := by omega
  obtain ⟨hread, hskip⟩ := h.readValue?_chars hv hvalue (c := ',') (by decide) rest
  rw [Member.chars, List.append_assoc, List.cons_append, readMembers?_chars hn hname, hread,
    Option.bind_some]
  dsimp only
  rw [hskip]
  exact Option.map_eq_bind.symm

/-! ### Values in their texts -/

theorem commas_cons {part : List Char} {parts : List (List Char)} (h : parts ≠ []) :
    commas (part :: parts) = part ++ ',' :: commas parts := by
  cases parts with
  | nil => exact absurd rfl h
  | cons => rfl

theorem readElements?_commas {elements : List Element} (hne : elements ≠ [])
    (hpadded : ∀ e ∈ elements, e.item.Padded) (h : ∀ e ∈ elements, Holding e.item.text e.value)
    (hfuel : (commas (elements.map (·.item.chars))).length < fuel) :
    readElements? fuel (commas (elements.map (·.item.chars)) ++ ']' :: rest) =
      some (elements.map (·.value), rest) := by
  induction elements generalizing fuel with
  | nil => exact absurd rfl hne
  | cons e elements ih =>
      rw [List.forall_mem_cons] at hpadded h
      obtain ⟨fuel, rfl⟩ := Nat.exists_eq_add_one.mpr (Nat.zero_lt_of_lt hfuel)
      obtain rfl | helements := eq_or_ne elements []
      · exact readElements?_last hpadded.1 h.1 (Nat.le_of_lt_succ hfuel)
      · rw [List.map_cons, commas_cons (by simpa using helements)] at hfuel ⊢
        rw [List.length_append, List.length_cons] at hfuel
        rw [List.append_assoc, List.cons_append, readElements?_comma hpadded.1 h.1 (by omega),
          ih helements hpadded.2 h.2 (by omega)]
        rfl

theorem readMembers?_commas {members : List Member} (hne : members ≠ [])
    (hpadded : ∀ m ∈ members, m.nameItem.Padded ∧ m.valueItem.Padded)
    (hname : ∀ m ∈ members, Quotes m.name m.nameItem.text)
    (h : ∀ m ∈ members, Holding m.valueItem.text m.value)
    (hfuel : (commas (members.map (·.chars))).length < fuel) :
    readMembers? fuel (commas (members.map (·.chars)) ++ '}' :: rest) =
      some (members.map fun m => (some m.name, m.value), rest) := by
  induction members generalizing fuel with
  | nil => exact absurd rfl hne
  | cons m members ih =>
      rw [List.forall_mem_cons] at hpadded hname h
      obtain ⟨fuel, rfl⟩ := Nat.exists_eq_add_one.mpr (Nat.zero_lt_of_lt hfuel)
      obtain rfl | hmembers := eq_or_ne members []
      · exact readMembers?_last hpadded.1.1 hpadded.1.2 hname.1 h.1 (Nat.le_of_lt_succ hfuel)
      · rw [List.map_cons, commas_cons (by simpa using hmembers)] at hfuel ⊢
        rw [List.length_append, List.length_cons] at hfuel
        rw [List.append_assoc, List.cons_append,
          readMembers?_comma hpadded.1.1 hpadded.1.2 hname.1 h.1 (by omega),
          ih hmembers hpadded.2 hname.2 h.2 (by omega)]
        rfl

theorem ofMembers_map {α : Type} (name : α → String) (value : α → Json) (l : List α) :
    ofMembers (l.map fun a => (some (name a), value a)) =
      object (l.map fun a => (name a, value a)) := by
  have hmap : (l.map fun a => (some (name a), value a)).mapM
      (fun m : Option String × Json => m.1.map (·, m.2)) =
        some (l.map fun a => (name a, value a)) := by
    induction l with
    | nil => rfl
    | cons a l ih => simp [ih]
  rw [ofMembers]
  split
  · next members heq => rw [Option.some.inj (heq.symm.trans hmap)]
  · next heq => exact absurd (heq.symm.trans hmap) (Option.some_ne_none _).symm

/-- How values begin: never with a blank or a closing bracket. -/
theorem Denotes.exists_eq_cons (h : Denotes cs v) : ∃ c tail, cs = c :: tail ∧
    isBlank c = false ∧ c ≠ ']' := by
  cases h with
  | @nat n =>
      obtain ⟨c, tail, heq, hc⟩ := exists_digit n
      exact ⟨c, tail, heq, isBlank_eq_false_of_isDigit hc, ne_of_isDigit hc rfl⟩
  | string h =>
      obtain ⟨h⟩ := h
      exact ⟨_, _, rfl, by decide, by decide⟩
  | null => exact ⟨_, _, rfl, by decide, by decide⟩
  | boolTrue => exact ⟨_, _, rfl, by decide, by decide⟩
  | boolFalse => exact ⟨_, _, rfl, by decide, by decide⟩
  | emptyArray => exact ⟨_, _, rfl, by decide, by decide⟩
  | array => exact ⟨_, _, rfl, by decide, by decide⟩
  | emptyObject => exact ⟨_, _, rfl, by decide, by decide⟩
  | object => exact ⟨_, _, rfl, by decide, by decide⟩

theorem exists_commas_eq (part : List Char) (parts : List (List Char)) :
    ∃ tail, commas (part :: parts) = part ++ tail := by
  obtain rfl | h := eq_or_ne parts []
  · exact ⟨[], (List.append_nil part).symm⟩
  · exact ⟨_, commas_cons h⟩

/-- Behind blanks an item begins as its part does. -/
theorem Item.Padded.skipBlanks_chars {i : Item} (h : i.Padded) {tail : List Char}
    (heq : i.text = c :: tail) (hc : isBlank c = false) (rest : List Char) :
    skipBlanks (i.chars ++ rest) = c :: (tail ++ (i.after ++ rest)) := by
  rw [Item.chars, List.append_assoc, h.before.skipBlanks_append, heq, List.append_assoc,
    List.cons_append, skipBlanks_of_not_blank hc]

/-- There is always something to read. -/
theorem Holding.of_succ (hne : cs ≠ []) (h : ∀ fuel rest, cs.length ≤ fuel + 1 → Delimited rest →
    readValue? (fuel + 1) (cs ++ rest) = some (v, rest)) : Holding cs v := by
  intro fuel rest hfuel hrest
  obtain ⟨fuel, rfl⟩ : ∃ k, fuel = k + 1 :=
    Nat.exists_eq_add_one.mpr (Nat.lt_of_lt_of_le (List.length_pos_of_ne_nil hne) hfuel)
  exact h fuel rest hfuel hrest

theorem holding_array {elements : List Element} (hne : elements ≠ [])
    (hpadded : ∀ e ∈ elements, e.item.Padded)
    (hdenotes : ∀ e ∈ elements, Denotes e.item.text e.value)
    (h : ∀ e ∈ elements, Holding e.item.text e.value) :
    Holding ('[' :: (commas (elements.map (·.item.chars)) ++ [']']))
      (array (elements.map (·.value))) := by
  refine .of_succ (List.cons_ne_nil _ _) fun fuel rest hfuel _ => ?_
  rw [List.length_cons, List.length_append, List.length_singleton] at hfuel
  rw [List.cons_append, List.append_assoc, List.singleton_append, readValue?_array,
    readElements?_commas hne hpadded h (by omega)]
  · rfl
  · obtain ⟨e, elements, rfl⟩ := List.exists_cons_of_ne_nil hne
    rw [List.forall_mem_cons] at hpadded hdenotes
    obtain ⟨c, tail, heq, hblank, hc⟩ := hdenotes.1.exists_eq_cons
    obtain ⟨more, hmore⟩ := exists_commas_eq e.item.chars (elements.map (·.item.chars))
    intro cs
    rw [List.map_cons, hmore, List.append_assoc, hpadded.1.skipBlanks_chars heq hblank]
    exact fun heq' => hc (List.cons.inj heq').1

theorem holding_object {members : List Member} (hne : members ≠ [])
    (hpadded : ∀ m ∈ members, m.nameItem.Padded ∧ m.valueItem.Padded)
    (hname : ∀ m ∈ members, Quotes m.name m.nameItem.text)
    (h : ∀ m ∈ members, Holding m.valueItem.text m.value) :
    Holding ('{' :: (commas (members.map (·.chars)) ++ ['}']))
      (object (members.map fun m => (m.name, m.value))) := by
  refine .of_succ (List.cons_ne_nil _ _) fun fuel rest hfuel _ => ?_
  rw [List.length_cons, List.length_append, List.length_singleton] at hfuel
  rw [List.cons_append, List.append_assoc, List.singleton_append, readValue?_object,
    readMembers?_commas hne hpadded hname h (by omega), Option.map_some]
  · dsimp only
    rw [ofMembers_map]
  · obtain ⟨m, members, rfl⟩ := List.exists_cons_of_ne_nil hne
    rw [List.forall_mem_cons] at hpadded hname
    obtain ⟨tail, heq, -⟩ := hname.1.readText?_eq
    obtain ⟨more, hmore⟩ := exists_commas_eq m.chars (members.map (·.chars))
    intro cs
    rw [List.map_cons, hmore, Member.chars, List.append_assoc, List.append_assoc,
      hpadded.1.1.skipBlanks_chars heq (by decide)]
    exact fun heq' => absurd (List.cons.inj heq').1 (by decide)

theorem holding_nat (n : Nat) : Holding (Nat.toDigits 10 n) (nat n) := by
  refine .of_succ Nat.toDigits_ne_nil fun fuel rest _ hrest => ?_
  obtain ⟨c, cs, heq, hc⟩ := exists_digit n
  have hread := readNumber?_toDigits (n := n) hrest
  rw [heq, List.cons_append] at hread ⊢
  rw [readValue?_digit hc, hread]

theorem holding_string (h : Quotes name cs) : Holding cs (string name) := by
  obtain ⟨tail, rfl, hread⟩ := h.readText?_eq
  refine .of_succ (List.cons_ne_nil _ _) fun fuel rest _ _ => ?_
  rw [List.cons_append, readValue?, skipBlanks_of_not_blank (by decide)]
  change (readText? _).map _ = _
  rw [hread]
  rfl

theorem Denotes.holding (h : Denotes cs v) : Holding cs v := by
  induction h with
  | null => exact .of_succ (List.cons_ne_nil _ _) fun _ _ _ _ => rfl
  | boolTrue => exact .of_succ (List.cons_ne_nil _ _) fun _ _ _ _ => rfl
  | boolFalse => exact .of_succ (List.cons_ne_nil _ _) fun _ _ _ _ => rfl
  | @nat n => exact holding_nat n
  | string h => exact holding_string h
  | emptyArray h =>
      refine .of_succ (List.cons_ne_nil _ _) fun fuel rest _ _ => ?_
      rw [List.cons_append, List.append_assoc]
      exact readValue?_emptyArray h
  | array hne hpadded h ih => exact holding_array hne hpadded h ih
  | emptyObject h =>
      refine .of_succ (List.cons_ne_nil _ _) fun fuel rest _ _ => ?_
      rw [List.cons_append, List.append_assoc]
      exact readValue?_emptyObject h
  | object hne hpadded hname _ ih => exact holding_object hne hpadded hname ih

/-- The reader finds the value in every text that stands for it. -/
theorem StandsFor.read?_eq {text : String} (h : StandsFor text v) : read? text = some v := by
  obtain ⟨i, hi, htext, hv⟩ := h
  rw [read?, htext, Item.chars, hi.before.readValue?_append]
  have hfuel : i.text.length ≤ (i.before ++ (i.text ++ i.after)).length + 1 := by
    simp only [List.length_append]
    omega
  have hafter : Delimited i.after := by
    have := hi.after.delimited_append .nil
    rwa [List.append_nil] at this
  have hblank : skipBlanks i.after = [] := by
    have := hi.after.skipBlanks_append []
    rwa [List.append_nil] at this
  rw [hv.holding _ _ hfuel hafter]
  dsimp only
  rw [hblank]
  rfl

/-! ### What is written -/

variable {level closing : Option Nat}

theorem blanks_lineBreak (level : Option Nat) : Blanks (lineBreak level) := by
  intro c hc
  cases level with
  | none => exact absurd hc List.not_mem_nil
  | some n =>
      obtain rfl | hc := List.mem_cons.mp hc
      · rfl
      · rw [List.eq_of_mem_replicate hc]
        rfl

theorem digits_eq_toDigits (n : Nat) : digits n = Nat.toDigits 10 n := by
  induction n using digits.induct with
  | case1 n hn => rw [digits, if_pos hn, Nat.toDigits_of_lt_base hn]
  | case2 n hn ih =>
      rw [digits, if_neg hn, ih,
        Nat.toDigits_of_base_le (b := 10) (n := n) (by decide) (Nat.le_of_not_lt hn)]

theorem hexDigit?_digitChar : ∀ n < 16, hexDigit? (Nat.digitChar n) = some n := by
  decide

theorem spells_escape (c : Char) : Spells c (escape c) := by
  rw [escape]
  split_ifs with hquote hslash hb ht hn hf hr hcontrol
  all_goals try subst c
  · exact .letter rfl
  · exact .letter rfl
  · exact .letter rfl
  · exact .letter rfl
  · exact .letter rfl
  · exact .letter rfl
  · exact .letter rfl
  · have hhigh := hexDigit?_digitChar (c.toNat / 16) (by omega)
    have hlow := hexDigit?_digitChar (c.toNat % 16) (by omega)
    have hcode : (0 * 16 + 0) * 256 + (c.toNat / 16 * 16 + c.toNat % 16) = c.toNat := by omega
    have hzero : hexDigit? '0' = some 0 := rfl
    have hdigits := HexCode.digits hzero hzero hhigh hlow
    rw [hcode] at hdigits
    exact .code hdigits
  · exact .self (Nat.le_of_not_lt hcontrol) hquote hslash

theorem quotes_quote (text : String) : Quotes text (quote text) := by
  rw [quote, List.flatMap_def]
  refine .spelled (List.forall₂_map_right_iff.mpr ?_)
  exact List.forall₂_same.mpr fun c _ => spells_escape c

theorem writeElements_eq_map (vs : List Json) :
    writeElements level vs = vs.map (write level) := by
  induction vs with
  | nil => rfl
  | cons v vs ih => rw [writeElements, ih, List.map_cons]

/-- A name with its value. -/
def writeMember (level : Option Nat) (m : String × Json) : List Char :=
  quote m.1 ++ (colon level ++ write level m.2)

theorem writeMembers_eq_map (ms : List (String × Json)) :
    writeMembers level ms = ms.map (writeMember level) := by
  induction ms with
  | nil => rfl
  | cons m ms ih => rw [writeMembers, ih, List.map_cons]; rfl

theorem separate_cons {part : List Char} {parts : List (List Char)} (h : parts ≠ []) :
    separate level (part :: parts) = lineBreak level ++ (part ++ ',' :: separate level parts) := by
  cases parts with
  | nil => exact absurd rfl h
  | cons => rfl

/-- Parts on lines of their own, up to the break before the closing bracket, are parts with commas
between them, each of them with the break before it and only the last one with a break behind it. -/
theorem exists_commas_eq_separate {α : Type} (level closing : Option Nat) (part : α → List Char)
    {l : List α} (hne : l ≠ []) :
    ∃ pairs : List (α × List Char), pairs.map Prod.fst = l ∧ (∀ p ∈ pairs, Blanks p.2) ∧
      separate level (l.map part) ++ lineBreak closing =
        commas (pairs.map fun p => lineBreak level ++ (part p.1 ++ p.2)) := by
  induction l with
  | nil => exact absurd rfl hne
  | cons a l ih =>
      obtain rfl | hl := eq_or_ne l []
      · refine ⟨[(a, lineBreak closing)], rfl, ?_, List.append_assoc _ _ _⟩
        exact List.forall_mem_singleton.mpr (blanks_lineBreak closing)
      · obtain ⟨pairs, rfl, hblanks, heq⟩ := ih hl
        refine ⟨(a, []) :: pairs, rfl, List.forall_mem_cons.mpr ⟨nofun, hblanks⟩, ?_⟩
        rw [List.map_cons, separate_cons (by simpa using hl), List.map_cons,
          commas_cons (by simpa using hl), ← heq]
        simp only [List.append_assoc, List.cons_append, List.append_nil]

theorem enclose_of_ne_nil {opening : Char} {parts : List (List Char)} (h : parts ≠ []) :
    enclose opening c level parts =
      opening :: (separate (level.map (· + 1)) parts ++ (lineBreak level ++ [c])) := by
  rw [enclose, if_neg (by simpa using h)]

/-- The blank between a colon and a value. -/
def colonBlank : Option Nat → List Char
  | none => []
  | some _ => [' ']

theorem blanks_colonBlank (level : Option Nat) : Blanks (colonBlank level) := by
  cases level with
  | none => exact nofun
  | some => exact List.forall_mem_singleton.mpr rfl

theorem colon_eq_cons (level : Option Nat) : colon level = ':' :: colonBlank level := by
  cases level <;> rfl

theorem denotes_write_array {vs : List Json} (h : ∀ v ∈ vs, ∀ level, Denotes (write level v) v) :
    Denotes (write level (array vs)) (array vs) := by
  rw [write, writeElements_eq_map]
  obtain rfl | hne := eq_or_ne vs []
  · have hnone : Blanks [] := nofun
    exact .emptyArray hnone
  · rw [enclose_of_ne_nil (by simpa using hne), ← List.append_assoc]
    obtain ⟨pairs, rfl, hblanks, heq⟩ :=
      exists_commas_eq_separate (level.map (· + 1)) level (write (level.map (· + 1))) hne
    rw [heq]
    let element (p : Json × List Char) : Element :=
      ⟨⟨lineBreak (level.map (· + 1)), write (level.map (· + 1)) p.1, p.2⟩, p.1⟩
    have hdenotes := @Denotes.array (pairs.map element) (by simpa using hne)
      (List.forall_mem_map.mpr fun p hp => ⟨blanks_lineBreak _, hblanks p hp⟩)
      (List.forall_mem_map.mpr fun p hp => h p.1 (List.mem_map_of_mem hp) _)
    rwa [List.map_map, List.map_map] at hdenotes

theorem denotes_write_object {ms : List (String × Json)}
    (h : ∀ m ∈ ms, ∀ level, Denotes (write level m.2) m.2) :
    Denotes (write level (object ms)) (object ms) := by
  rw [write, writeMembers_eq_map]
  obtain rfl | hne := eq_or_ne ms []
  · have hnone : Blanks [] := nofun
    exact .emptyObject hnone
  · rw [enclose_of_ne_nil (by simpa using hne), ← List.append_assoc]
    obtain ⟨pairs, rfl, hblanks, heq⟩ :=
      exists_commas_eq_separate (level.map (· + 1)) level (writeMember (level.map (· + 1))) hne
    rw [heq]
    let member (p : (String × Json) × List Char) : Member :=
      ⟨⟨lineBreak (level.map (· + 1)), quote p.1.1, []⟩,
        ⟨colonBlank (level.map (· + 1)), write (level.map (· + 1)) p.1.2, p.2⟩, p.1.1, p.1.2⟩
    have hdenotes := @Denotes.object (pairs.map member) (by simpa using hne)
      (List.forall_mem_map.mpr fun p hp =>
        ⟨⟨blanks_lineBreak _, nofun⟩, ⟨blanks_colonBlank _, hblanks p hp⟩⟩)
      (List.forall_mem_map.mpr fun p _ => quotes_quote p.1.1)
      (List.forall_mem_map.mpr fun p hp => h p.1 (List.mem_map_of_mem hp) _)
    rw [List.map_map, List.map_map] at hdenotes
    have hchars : ((·.chars) ∘ member) = fun p : (String × Json) × List Char =>
        lineBreak (level.map (· + 1)) ++ (writeMember (level.map (· + 1)) p.1 ++ p.2) := by
      funext p
      simp only [Function.comp_apply, member, Member.chars, Item.chars, writeMember,
        colon_eq_cons, List.append_assoc, List.cons_append, List.nil_append]
    rwa [hchars] at hdenotes

/-- What is written of a plain value stands for it, on one line or on many. -/
theorem Plain.denotes_write (h : Plain v) (level : Option Nat) : Denotes (write level v) v := by
  induction h generalizing level with
  | null => exact .null
  | bool b =>
      cases b with
      | false => exact .boolFalse
      | true => exact .boolTrue
  | nat h =>
      rw [write, digits_eq_toDigits]
      exact .nat h
  | string text => exact .string (quotes_quote text)
  | array _ ih => exact denotes_write_array ih
  | object _ ih => exact denotes_write_object ih

theorem Plain.standsFor_write (h : Plain v) (level : Option Nat) :
    StandsFor (String.ofList (write level v)) v := by
  refine ⟨⟨[], write level v, []⟩, ⟨nofun, nofun⟩, ?_, h.denotes_write level⟩
  rw [String.toList_ofList, Item.chars, List.nil_append, List.append_nil]

end ScannerTables.Json
