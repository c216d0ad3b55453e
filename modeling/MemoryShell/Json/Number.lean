import MemoryShell.Decimal.Shortest

/-!
# Numbers of JSON

An integer that fits 64 bits, signed or unsigned, is exact; every other number is a double.
Headlines:

* `Number.ofLiteral?`: the number that a literal denotes, if it is in range;
* `Number.chars`: how a number is written, a double by its shortest decimal.
-/

namespace MemoryShell

/-- A JSON number. -/
inductive Number
  | integer (value : Int)
  | double (value : Float)
deriving BEq, Repr, Inhabited

namespace Number

/-! ## Reading -/

/-- The parts of a number literal: sign, digits before and behind the point, and the power of ten
with its sign. The digits behind the point and the power are empty where the literal has none. -/
structure Literal where
  negative : Bool
  whole : List Char
  fraction : List Char
  power : Option (Bool × List Char)
deriving DecidableEq, Repr

/-- The integers that are kept exact: those of 64 bits, signed or unsigned. -/
def inRange (n : Int) : Bool := -0x8000000000000000 ≤ n && n < 0x10000000000000000

/-- Significands below this one are carried exactly. -/
def significandLimit : Nat := 0x10000000000000000

/-- Digits taken into a significand as long as it stays below the limit: the significand and the
digits left over. -/
def takeDigits (significand : Nat) : List Char → Nat × List Char
  | [] => (significand, [])
  | d :: ds =>
    let next := significand * 10 + (d.toNat - '0'.toNat)
    if next < significandLimit then takeDigits next ds else (significand, d :: ds)

/-- Divides by a power of ten, in steps of at most 308 places. -/
def shiftDown (x : Float) (places : Nat) : Float :=
  if places ≤ 308 then x / Float.ofScientific 1 false places
  else if x == 0 then x
  else shiftDown (x / Float.ofScientific 1 false 308) (places - 308)
termination_by places

/-- The double `significand · 10 ^ exponent`, rounded after each step; none if it is too big. -/
def scaled? (significand : Nat) (exponent : Int) : Option Float :=
  let x := Float.ofNat significand
  match exponent with
  | .ofNat places =>
    if places ≤ 308 then
      let y := x * Float.ofScientific 1 false places
      if y.isInf then none else some y
    else if significand = 0 then some x
    else none
  | .negSucc places => some (shiftDown x (places + 1))

/-- Powers of ten below this one are read as numbers; a larger one stands for zero or for too
much. -/
def powerLimit : Nat := 0x80000000

/-- The double that a literal denotes, its sign apart. -/
def magnitude? (l : Literal) : Option Float :=
  let (s, dropped) := takeDigits 0 l.whole
  let (s, left) := takeDigits s l.fraction
  let exponent : Int := dropped.length - (l.fraction.length - left.length : Nat)
  match l.power with
  | none => scaled? s exponent
  | some (negative, digits) =>
    let power := Nat.ofDigitChars 10 digits 0
    if power < powerLimit then
      scaled? s (if negative then exponent - power else exponent + power)
    else if s = 0 || negative then some 0
    else none

/-- The number that a literal denotes: exact where the literal is a plain integer in range, though
a minus before zero makes a double of it; none if it is too big for a double. -/
def ofLiteral? (l : Literal) : Option Number :=
  let n : Int := Nat.ofDigitChars 10 l.whole 0
  let n := if l.negative then -n else n
  if l.fraction.isEmpty && l.power.isNone && inRange n && !(l.negative && n == 0) then
    some (.integer n)
  else (magnitude? l).map fun x => .double (if l.negative then -x else x)

/-! ## Writing -/

/-- An integer in decimal digits, with a minus if it is negative. -/
def integerChars : Int → List Char
  | .ofNat n => Nat.toDigits 10 n
  | .negSucc n => '-' :: Nat.toDigits 10 (n + 1)

/-- A power of ten behind its mark, always with a sign. -/
def powerChars (power : Int) : List Char :=
  'e' :: if power < 0 then integerChars power else '+' :: integerChars power

/-- A decimal written out: in places while its first digit stands at most sixteen places before
the point or five behind it, and with a power of ten otherwise. -/
def decimalChars (d : Decimal) : List Char :=
  let digits := Nat.toDigits 10 d.digits
  let point : Int := digits.length + d.exponent
  if 0 ≤ d.exponent ∧ point ≤ 16 then
    digits ++ List.replicate d.exponent.toNat '0' ++ ['.', '0']
  else if 0 < point ∧ point ≤ 16 then
    digits.take point.toNat ++ '.' :: digits.drop point.toNat
  else if -5 < point ∧ point ≤ 0 then
    '0' :: '.' :: (List.replicate (-point).toNat '0' ++ digits)
  else
    let behind := match digits.drop 1 with
      | [] => []
      | ds => '.' :: ds
    digits.take 1 ++ behind ++ powerChars (point - 1)

example : decimalChars ⟨1, 15⟩ = "1000000000000000.0".toList := by decide +kernel

example : decimalChars ⟨123, 14⟩ = "1.23e+16".toList := by decide +kernel

example : decimalChars ⟨123, -7⟩ = "0.0000123".toList := by decide +kernel

example : decimalChars ⟨1, -6⟩ = "1e-6".toList := by decide +kernel

/-- A finite double by its shortest decimal. -/
def doubleChars (x : Float) : List Char :=
  let bits := x.toBits.toNat
  let size := bits % 0x8000000000000000
  let sign := if bits = size then [] else ['-']
  sign ++ if size = 0 then ['0', '.', '0']
    else decimalChars (Decimal.shortest (.ofBits size))

/-- The characters of a number. -/
def chars : Number → List Char
  | integer n => integerChars n
  | double x => doubleChars x

end Number

end MemoryShell
