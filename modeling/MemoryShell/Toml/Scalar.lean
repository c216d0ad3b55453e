import MemoryShell.Toml.Text

/-!
# Numbers, truth values and moments of TOML

Headlines:

* `scanNumber?`: integers of 64 bits, in four bases, and floats;
* `scanMonthAndDay?`, `scanTimeOfDay?`: days of the calendar, and times of day behind them;
* `scanScalar?`: a number or a moment, whichever a text begins with.
-/

namespace MemoryShell.Toml

/-- A value without parts that is no text. -/
inductive Scalar
  | integer (value : Int)
  | float (value : Float)
  | boolean (value : Bool)
  | moment
deriving Repr, Inhabited

/-! ## Digits -/

/-- Further digits of a number, in which single underscores may stand between two digits. -/
def scanDigits? (isDigit : Char → Bool) : List Char → Option (List Char × List Char)
  | [] => some ([], [])
  | ['_'] => none
  | '_' :: d :: cs => if isDigit d then (scanDigits? isDigit cs).map (push d) else none
  | c :: cs => if isDigit c then (scanDigits? isDigit cs).map (push c) else some ([], c :: cs)

/-- The digits of a number, of which there must be one. -/
def scanSomeDigits? (isDigit : Char → Bool) : List Char → Option (List Char × List Char)
  | [] => none
  | c :: cs => if isDigit c then (scanDigits? isDigit cs).map (push c) else none

/-- The digits of a decimal number before its point: a lone zero, or digits that do not begin with
one. -/
def scanWhole? : List Char → Option (List Char × List Char)
  | '0' :: cs => some (['0'], cs)
  | cs => scanSomeDigits? Char.isDigit cs

/-- A sign, if there is one: whether it is a minus. -/
def scanSign : List Char → Bool × List Char
  | '+' :: cs => (false, cs)
  | '-' :: cs => (true, cs)
  | cs => (false, cs)

/-! ## Numbers -/

/-- An integer of 64 bits. -/
def integer? (n : Int) : Option Scalar :=
  if -0x8000000000000000 ≤ n ∧ n < 0x8000000000000000 then some (.integer n) else none

/-- The number that digits of a base spell. -/
def ofDigits? (base : Nat) (digits : List Char) : Option Nat :=
  digits.foldlM (fun n c => (Quoted.hexValue? c).map (n * base + ·)) 0

/-- An integer in another base than ten, behind the letter that names the base. -/
def scanBased? (base : Nat) (cs : List Char) : Option (Scalar × List Char) := do
  let isDigit (c : Char) := (Quoted.hexValue? c).any (· < base)
  let (digits, cs) ← scanSomeDigits? isDigit cs
  return (← integer? (← ofDigits? base digits), cs)

/-- The double nearest to `digits · 10 ^ exponent`; far outside the range of doubles only the size
counts. -/
def nearestDouble (digits : Nat) (exponent : Int) : Float :=
  let size : Int := (Nat.toDigits 10 digits).length + exponent
  if digits = 0 ∨ size < -400 then 0
  else if size > 400 then 1 / 0
  else Float.ofScientific digits (exponent < 0) exponent.natAbs

/-- The digits behind the point of a float, if it has a point. -/
def scanFraction? : List Char → Option (List Char × List Char)
  | '.' :: cs => scanSomeDigits? Char.isDigit cs
  | cs => some ([], cs)

/-- The power of ten of a float, if it has one. -/
def scanPower? : List Char → Option (Option Int × List Char)
  | [] => some (none, [])
  | c :: cs =>
    if c = 'e' ∨ c = 'E' then do
      let (negative, cs) := scanSign cs
      let (digits, cs) ← scanSomeDigits? Char.isDigit cs
      let power : Int := Nat.ofDigitChars 10 digits 0
      return (some (if negative then -power else power), cs)
    else some (none, c :: cs)

/-- A number in base ten: an integer, or a float if it has a point or a power of ten. A float may
be too small for a double but not too big, unless it is negative. -/
def scanDecimal? (cs : List Char) : Option (Scalar × List Char) := do
  let (negative, cs) := scanSign cs
  let (whole, cs) ← scanWhole? cs
  let (fraction, cs) ← scanFraction? cs
  let (power?, cs) ← scanPower? cs
  let digits := Nat.ofDigitChars 10 (whole ++ fraction) 0
  if fraction.isEmpty && power?.isNone then
    return (← integer? (if negative then -digits else digits), cs)
  else
    let x := nearestDouble digits (power?.getD 0 - fraction.length)
    if x.isInf && !negative then none
    else return (.float (if negative then -x else x), cs)

/-- A number. -/
def scanNumber? (cs : List Char) : Option (Scalar × List Char) :=
  match cs with
  | '0' :: 'x' :: cs => scanBased? 16 cs
  | '0' :: 'o' :: cs => scanBased? 8 cs
  | '0' :: 'b' :: cs => scanBased? 2 cs
  | _ =>
    match scanSign cs with
    | (negative, 'i' :: 'n' :: 'f' :: cs) => some (.float (if negative then -1 / 0 else 1 / 0), cs)
    | (_, 'n' :: 'a' :: 'n' :: cs) => some (.float (0 / 0), cs)
    | _ => scanDecimal? cs

/-! ## Moments -/

/-- A number of two digits. -/
def scanTwo? : List Char → Option (Nat × List Char)
  | a :: b :: cs =>
    if a.isDigit && b.isDigit then some (Nat.ofDigitChars 10 [a, b] 0, cs) else none
  | _ => none

/-- How many days a month has. -/
def daysIn (year month : Nat) : Nat :=
  if month = 2 then
    if year % 4 = 0 ∧ (year % 100 ≠ 0 ∨ year % 400 = 0) then 29 else 28
  else if month = 4 ∨ month = 6 ∨ month = 9 ∨ month = 11 then 30
  else 31

/-- The rest of a day of the calendar, behind the year and its dash. -/
def scanMonthAndDay? (year : Nat) (cs : List Char) : Option (List Char) := do
  let (month, cs) ← scanTwo? cs
  let '-' :: cs := cs | none
  let (day, cs) ← scanTwo? cs
  if 1 ≤ month ∧ month ≤ 12 ∧ 1 ≤ day ∧ day ≤ daysIn year month then some cs else none

/-- The rest of a time of day, behind the hour and its colon; the last second of a minute may be
a leap second. -/
def scanMinuteAndSecond? (cs : List Char) : Option (List Char) := do
  let (minute, cs) ← scanTwo? cs
  let ':' :: cs := cs | none
  let (second, cs) ← scanTwo? cs
  if 59 < minute ∨ 60 < second then none
  else
    match cs with
    | '.' :: d :: rest => some (if d.isDigit then rest.dropWhile Char.isDigit else cs)
    | _ => some cs

/-- An hour and its colon. -/
def scanHour? (cs : List Char) : Option (Nat × List Char) :=
  match scanTwo? cs with
  | some (hour, ':' :: cs) => if hour ≤ 23 then some (hour, cs) else none
  | _ => none

/-- The distance from universal time, if it is given. -/
def scanOffset? : List Char → Option (List Char)
  | [] => some []
  | c :: cs =>
    if c = 'Z' ∨ c = 'z' then some cs
    else if c = '+' ∨ c = '-' then do
      let (_, cs) ← scanHour? cs
      let (minute, cs) ← scanTwo? cs
      if minute ≤ 59 then some cs else none
    else some (c :: cs)

/-- The time of a day, if one follows the day behind a `T` or a blank. -/
def scanTimeOfDay? (cs : List Char) : Option (List Char) :=
  match cs with
  | d :: rest =>
    if d = 'T' ∨ d = 't' ∨ d = ' ' then
      match scanHour? rest with
      | some (_, rest) => (scanMinuteAndSecond? rest).bind scanOffset?
      | none => some cs
    else some cs
  | [] => some []

/-- Whether a text begins with a year and a dash. -/
def scanYear? : List Char → Option (Nat × List Char)
  | a :: b :: c :: d :: '-' :: cs =>
    if a.isDigit && b.isDigit && c.isDigit && d.isDigit then
      some (Nat.ofDigitChars 10 [a, b, c, d] 0, cs)
    else none
  | _ => none

/-- A scalar that begins with a digit or a sign. What begins like a day or a time must go on like
one. -/
def scanScalar? (cs : List Char) : Option (Scalar × List Char) :=
  match scanYear? cs with
  | some (year, rest) =>
    ((scanMonthAndDay? year rest).bind scanTimeOfDay?).map fun rest => (.moment, rest)
  | none =>
    match scanHour? cs with
    | some (_, rest) => (scanMinuteAndSecond? rest).map fun rest => (.moment, rest)
    | none => scanNumber? cs

end MemoryShell.Toml
