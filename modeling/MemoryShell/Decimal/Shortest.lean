/-!
# Shortest decimals

The decimal with the fewest digits that still reads back as a given double; of several such, the
one nearest to it, and of two equally near the even one. All arithmetic is on naturals, so the
search is exact. Headline:

* `shortest`: tries the two neighbours of the value on ever finer decimal grids.
-/

namespace MemoryShell

/-- The number `digits · 10 ^ exponent`. -/
structure Decimal where
  digits : Nat
  exponent : Int
deriving DecidableEq, Repr

namespace Decimal

/-- The number `significand · 2 ^ exponent`. -/
structure Binary where
  significand : Nat
  exponent : Int
deriving DecidableEq, Repr

/-- The smallest significand of full length, which has fifty-three binary digits. -/
def Binary.fullLength : Nat := 0x10000000000000

/-- The size of a finite double, from its bits without the sign. -/
def Binary.ofBits (bits : Nat) : Binary :=
  let fraction := bits % fullLength
  match bits / fullLength with
  | 0 => ⟨fraction, -1074⟩
  | e + 1 => ⟨fraction + fullLength, (e : Int) - 1074⟩

/-- The numbers that round to a double, in quarters of its unit; the ends belong to them exactly
if the significand is even. -/
structure Rounding where
  low : Nat
  value : Nat
  high : Nat
  closed : Bool

/-- Half a unit to each side, but a quarter below a power of two, where the doubles lie twice as
close. -/
def Rounding.of (b : Binary) : Rounding :=
  let below := if b.significand = Binary.fullLength ∧ b.exponent > -1074 then 1 else 2
  ⟨4 * b.significand - below, 4 * b.significand, 4 * b.significand + 2, b.significand % 2 == 0⟩

/-- Whether `n` on a scale of `decimalUnit` rounds to the double, whose quarters have the size
`binaryUnit`. -/
def Rounding.admits (r : Rounding) (binaryUnit decimalUnit n : Nat) : Bool :=
  if r.closed then r.low * binaryUnit ≤ n * decimalUnit && n * decimalUnit ≤ r.high * binaryUnit
  else r.low * binaryUnit < n * decimalUnit && n * decimalUnit < r.high * binaryUnit

/-- The point of the grid of step `10 ^ k` that rounds to the double, the nearer one of two. -/
def onGrid? (b : Binary) (k : Int) : Option Nat :=
  let r := Rounding.of b
  let q := b.exponent - 2
  let binaryUnit := Nat.pow 2 q.toNat * Nat.pow 10 (-k).toNat
  let decimalUnit := Nat.pow 2 (-q).toNat * Nat.pow 10 k.toNat
  let n := r.value * binaryUnit / decimalUnit
  let rest := r.value * binaryUnit % decimalUnit
  match r.admits binaryUnit decimalUnit n, r.admits binaryUnit decimalUnit (n + 1) with
  | true, true =>
    if 2 * rest < decimalUnit then some n
    else if decimalUnit < 2 * rest then some (n + 1)
    else if n % 2 = 0 then some n
    else some (n + 1)
  | true, false => some n
  | false, true => some (n + 1)
  | false, false => none

/-- The first of at most `tries` grids, each ten times finer than the one before, that has a
point for the double. -/
def firstGrid (b : Binary) (k : Int) : Nat → Decimal
  | 0 => ⟨0, k⟩
  | tries + 1 =>
    match onGrid? b k with
    | some n => ⟨n, k⟩
    | none => firstGrid b (k - 1) tries

/-- The shortest decimal that rounds to a positive double. The search begins above the number's
leading digit, which lies within a few places of three tenths of its binary length, and seventeen
digits always suffice. -/
def shortest (b : Binary) : Decimal :=
  let bits : Int := (b.significand.log2 : Int) + 1 + b.exponent
  firstGrid b (Int.fdiv (bits * 30103) 100000 + 2) 24

end Decimal

end MemoryShell
