import ScannerTables.Packed.Machine
/-!
# Packed sets

A `PackedSet` keeps a finite set of numbers of 32 bits in words of 64, one bit for each number. It
grows as far as its largest number asks for and does not shrink, so that sets with the same members
may differ by empty words at the end; comparing and hashing leave these out.

Here every step is taken in machine arithmetic, and stops if a result does not fit.
-/

namespace ScannerTables

/-- As many words as there are blocks of 64 among the numbers of 32 bits. -/
def wordLimit : Nat := 0x4000000

/-- A finite set of numbers of 32 bits. Bit `b` of word `i` is set if `64 * i + b` is a member. -/
structure PackedSet where
  words : Array Word
  size_le : words.size ≤ wordLimit

namespace PackedSet

open Machine

/-! ### Words -/

/-- The word with the bit of a number. -/
def wordIndex (n : UInt32) : Nat := (n / width).toNat

theorem wordIndex_eq (n : UInt32) : wordIndex n = n.toNat / 64 := UInt32.toNat_div n width

theorem wordIndex_lt (n : UInt32) : wordIndex n < wordLimit := by
  have hn := n.toNat_lt
  rw [wordIndex_eq, wordLimit]
  omega

/-- The bit of a number in its word. -/
def mask (n : UInt32) : Except Trap Word := bit (n % width)

/-- The word at a position. -/
def word (s : PackedSet) (i : Nat) : Except Trap Word :=
  match s.words[i]? with
  | some w => .ok w
  | none => .error .noSuchWord

/-- Replaces the word at a position. -/
def setWord (s : PackedSet) (i : Nat) (w : Word) : PackedSet where
  words := s.words.setIfInBounds i w
  size_le := by simpa using s.size_le

/-- Cuts the words down to a number of them, or adds empty ones up to it. -/
def resize (s : PackedSet) (size : Nat) (h : size ≤ wordLimit) : PackedSet where
  words := s.words.take size ++ Array.replicate (size - s.words.size) 0
  size_le := by
    rw [Array.size_append, Array.size_replicate, Array.take_eq_extract, Array.size_extract]
    omega

/-- Adds empty words until there is one for a number. -/
def growTo (s : PackedSet) (n : UInt32) : Except Trap PackedSet := do
  let _ ← count (wordIndex n + 1)
  return if s.words.size < wordIndex n + 1 then s.resize (wordIndex n + 1) (wordIndex_lt n) else s

/-- The words up to the last one that is not empty. -/
def significantWords (s : PackedSet) : List Word :=
  (s.words.toList.reverse.dropWhile (· == 0)).reverse

instance : BEq PackedSet := ⟨fun s t => s.significantWords == t.significantWords⟩

/-- What a hash is computed from: the number of the significant words, then the words. -/
def hashed (s : PackedSet) : Nat × List Word := (s.significantWords.length, s.significantWords)

/-! ### Members -/

/-- The set without members. -/
def empty : PackedSet := ⟨#[], Nat.zero_le _⟩

instance : EmptyCollection PackedSet := ⟨empty⟩

/-- The set without members, with room for the numbers up to `n`. -/
def withCapacity (n : UInt32) : Except Trap PackedSet := do
  let _ ← count (wordIndex n + 1)
  return (∅ : PackedSet).resize (wordIndex n + 1) (wordIndex_lt n)

/-- Adds a number and says whether it was new. -/
def insertNew (s : PackedSet) (n : UInt32) : Except Trap (Bool × PackedSet) := do
  let s ← s.growTo n
  let w ← s.word (wordIndex n)
  let m ← mask n
  return (w &&& m == 0, s.setWord (wordIndex n) (w ||| m))

/-- Adds every number of a list. -/
def insertAll (s : PackedSet) (l : List UInt32) : Except Trap PackedSet :=
  l.foldlM (fun s n => return (← s.insertNew n).2) s

/-- The set of the numbers in a list. -/
def ofList (l : List UInt32) : Except Trap PackedSet := insertAll ∅ l

/-- The first bit to set in word `i`, of the words from that of `lo` on. -/
def firstBit (lo : UInt32) (i : Nat) : UInt32 := if i = wordIndex lo then lo % width else 0

/-- The last bit to set in word `i`, of the words up to that of `hi`. -/
def lastBit (hi : UInt32) (i : Nat) : UInt32 := if i = wordIndex hi then hi % width else width - 1

/-- Sets the bits of a word that stand for numbers from `lo` to `hi`. -/
def fillWord (lo hi : UInt32) (s : PackedSet) (i : Nat) : Except Trap PackedSet := do
  let w ← s.word i
  return s.setWord i (w ||| (← span (firstBit lo i) (lastBit hi i)))

/-- Adds the numbers from `lo` to `hi`; none if the pair is inverted. -/
def insertRange (s : PackedSet) (lo hi : UInt32) : Except Trap PackedSet :=
  if hi < lo then return s
  else do
    let s ← s.growTo hi
    (List.range' (wordIndex lo) (wordIndex hi + 1 - wordIndex lo)).foldlM (fillWord lo hi) s

/-- Removes a number. -/
def erase (s : PackedSet) (n : UInt32) : Except Trap PackedSet :=
  match s.words[wordIndex n]? with
  | some w => return s.setWord (wordIndex n) (w &&& ~~~(← mask n))
  | none => return s

/-- True if a number is a member. -/
def contains (s : PackedSet) (n : UInt32) : Except Trap Bool :=
  match s.words[wordIndex n]? with
  | some w => return w &&& (← mask n) != 0
  | none => return false

/-- True if there are no members. -/
def isEmpty (s : PackedSet) : Bool := s.words.all (· == 0)

/-- The number of members. -/
def card (s : PackedSet) : Except Trap Nat :=
  s.words.foldlM (fun n w => count (n + countOnes w)) 0

/-- Removes every member and keeps the words. -/
def clear (s : PackedSet) : PackedSet where
  words := s.words.map fun _ => 0
  size_le := by simpa using s.size_le

/-! ### Two sets -/

/-- True if the sets share a member. -/
def intersects (s t : PackedSet) : Bool := (s.words.zip t.words).any fun (w, v) => w &&& v != 0

/-- The members of `s` that are members of `t`. -/
def inter (s t : PackedSet) : PackedSet where
  words := s.words.mapIdx fun i w => w &&& t.words[i]?.getD 0
  size_le := by simpa using s.size_le

/-- Adds the members of `t` and says whether any of them was new. -/
def unionNew (s t : PackedSet) : Bool × PackedSet :=
  let s := if s.words.size < t.words.size then s.resize t.words.size t.size_le else s
  ((s.words.zip t.words).any fun (w, v) => w ||| v != w,
    { words := s.words.mapIdx fun i w => w ||| t.words[i]?.getD 0
      size_le := by simpa using s.size_le })

/-- The numbers below `limit` that are no members. The limit must be a whole number of words; words
behind it are dropped. -/
def complementWithin (s : PackedSet) (limit : UInt32) : Except Trap PackedSet :=
  if limit % width = 0 then
    let s := s.resize (wordIndex limit) (Nat.le_of_lt (wordIndex_lt limit))
    return { words := s.words.map (~~~ ·), size_le := by simpa using s.size_le }
  else throw (.misuse .unalignedLimit)

/-! ### Listing the members -/

/-- The numbers of the bits of a word, from the lowest, each added to `base`. -/
def numbersFrom (base : UInt32) (w : Word) : Except Trap (List UInt32) :=
  if h : w = 0 then return []
  else do
    let n ← add base (trailingZeros w)
    return n :: (← numbersFrom base (clearLowest w h))
termination_by w.toNat
decreasing_by exact toNat_clearLowest_lt h

/-- The numbers of the bits of the word at a position. -/
def numbersAt (w : Word) (i : Nat) : Except Trap (List UInt32) := do
  numbersFrom (← mul (.ofNat i) width) w

/-- The members in ascending order. -/
def toList (s : PackedSet) : Except Trap (List UInt32) := do
  let (_, listed) ← s.words.foldlM (fun (i, listed) w => do
    return (i + 1, listed ++ (← numbersAt w i))) (0, (#[] : Array UInt32))
  return listed.toList

end PackedSet
end ScannerTables
