import ScannerTables.Misuse
/-!
# Machine arithmetic

Packed sets hold numbers of 32 bits in words of 64. Their sums, differences, products and shifts are
checked: one that does not fit ends in a `Trap` and not in a wrong number. Counts have 64 bits.
-/

namespace ScannerTables

/-- What stops a computation on machine words. -/
inductive Trap where
  /-- A result does not fit. -/
  | overflow
  /-- A word was to be shifted by all of its bits or more. -/
  | longShift
  /-- A word was looked up that is not there. -/
  | noSuchWord
  /-- A precondition was broken. -/
  | misuse (m : Misuse)
deriving DecidableEq

/-- A word of 64 bits, numbered from the lowest. -/
abbrev Word := BitVec 64

namespace Machine

/-- The number of bits of a word. -/
def width : UInt32 := 64

/-! ### Numbers of 32 bits -/

def add (a b : UInt32) : Except Trap UInt32 :=
  if a.toNat + b.toNat < UInt32.size then .ok (a + b) else .error .overflow

def sub (a b : UInt32) : Except Trap UInt32 :=
  if b ≤ a then .ok (a - b) else .error .overflow

def mul (a b : UInt32) : Except Trap UInt32 :=
  if a.toNat * b.toNat < UInt32.size then .ok (a * b) else .error .overflow

/-- A count, which has 64 bits. -/
def count (n : Nat) : Except Trap Nat := if n < UInt64.size then .ok n else .error .overflow

/-! ### Words -/

def shiftLeft (w : Word) (n : UInt32) : Except Trap Word :=
  if n < width then .ok (w <<< n.toNat) else .error .longShift

def shiftRight (w : Word) (n : UInt32) : Except Trap Word :=
  if n < width then .ok (w >>> n.toNat) else .error .longShift

/-- The word with bit `n` alone. -/
def bit (n : UInt32) : Except Trap Word := shiftLeft 1 n

/-- The word with the bits from `start` to `stop`. -/
def span (start stop : UInt32) : Except Trap Word := do
  let low ← shiftRight (.allOnes 64) (← sub (width - 1) stop)
  return low &&& (← shiftLeft (.allOnes 64) start)

/-- The number of the lowest bit that is set; the width if there is none. -/
def trailingZeros (w : Word) : UInt32 := if w = 0 then width else .ofNat (w &&& -w).toNat.log2

/-- The word without its lowest bit; there must be one, so that nothing overflows. -/
def clearLowest (w : Word) (_ : w ≠ 0) : Word := w &&& (w - 1)

/-- The number of bits that are set. -/
def countOnes (w : Word) : Nat := w.cpop.toNat

theorem toNat_clearLowest_lt {w : Word} (h : w ≠ 0) : (clearLowest w h).toNat < w.toNat := by
  have hpos : w.toNat ≠ 0 := fun hzero => h (BitVec.eq_of_toNat_eq hzero)
  have hle : (w &&& (w - 1)).toNat ≤ (w - 1).toNat := by
    rw [BitVec.toNat_and]
    exact Nat.and_le_right
  have hpred : (w - 1).toNat = w.toNat - 1 := BitVec.toNat_sub_of_le (Nat.pos_of_ne_zero hpos)
  rw [clearLowest]
  omega

end Machine
end ScannerTables
