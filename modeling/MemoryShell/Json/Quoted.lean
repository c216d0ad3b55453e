/-!
# Quoted text

How a text stands between quotes in JSON. Headlines:

* `escape`: what is written for a character;
* `scan`: the pieces up to the closing quote, whatever they denote;
* `decode`: the text that the pieces denote, unless a surrogate lacks its partner.
-/

namespace MemoryShell.Quoted

/-! ## Writing -/

/-- The two last digits of a four-digit escape. -/
def hexPair (n : Nat) : List Char := [Nat.digitChar (n / 16), Nat.digitChar (n % 16)]

/-- The writing of a character: quote, backslash and the control characters by an escape, all
others by themselves. -/
def escape (c : Char) : List Char :=
  match c with
  | '\x22' => ['\\', '\x22']
  | '\\' => ['\\', '\\']
  | '\x08' => ['\\', 'b']
  | '\x0c' => ['\\', 'f']
  | '\n' => ['\\', 'n']
  | '\r' => ['\\', 'r']
  | '\t' => ['\\', 't']
  | _ => if c.toNat < 0x20 then '\\' :: 'u' :: '0' :: '0' :: hexPair c.toNat else [c]

/-- A text between quotes. -/
def chars (text : List Char) : List Char := '\x22' :: text.flatMap escape ++ ['\x22']

/-! ## Reading -/

/-- A piece of quoted text: a character, or a UTF-16 unit given by its number. -/
inductive Piece
  | char (c : Char)
  | unit (n : Nat)
deriving DecidableEq, Repr

/-- The character that a one-letter escape stands for. -/
def ofLetter? : Char → Option Char
  | '\x22' => some '\x22'
  | '\\' => some '\\'
  | '/' => some '/'
  | 'b' => some '\x08'
  | 'f' => some '\x0c'
  | 'n' => some '\n'
  | 'r' => some '\r'
  | 't' => some '\t'
  | _ => none

/-- The value of a hexadecimal digit, in either case. -/
def hexValue? (c : Char) : Option Nat :=
  if '0' ≤ c ∧ c ≤ '9' then some (c.toNat - '0'.toNat)
  else if 'a' ≤ c ∧ c ≤ 'f' then some (c.toNat - 'a'.toNat + 10)
  else if 'A' ≤ c ∧ c ≤ 'F' then some (c.toNat - 'A'.toNat + 10)
  else none

/-- The number that hexadecimal digits spell. -/
def hexNumber? (digits : List Char) : Option Nat :=
  digits.foldlM (fun n c => (hexValue? c).map (n * 16 + ·)) 0

/-- The pieces up to the closing quote, and the text behind it. A control character may not stand
between quotes. -/
def scan : List Char → Option (List Piece × List Char)
  | [] => none
  | '\x22' :: cs => some ([], cs)
  | '\\' :: 'u' :: a :: b :: c :: d :: cs => do
    let n ← hexNumber? [a, b, c, d]
    let (ps, rest) ← scan cs
    return (.unit n :: ps, rest)
  | '\\' :: e :: cs => do
    let c ← ofLetter? e
    let (ps, rest) ← scan cs
    return (.char c :: ps, rest)
  | c :: cs => do
    guard (0x20 ≤ c.toNat)
    let (ps, rest) ← scan cs
    return (.char c :: ps, rest)

/-- Whether a unit is the first half of a surrogate pair. -/
def isLead (n : Nat) : Bool := 0xD800 ≤ n && n < 0xDC00

/-- Whether a unit is the second half of a surrogate pair. -/
def isTrail (n : Nat) : Bool := 0xDC00 ≤ n && n < 0xE000

/-- The text that pieces denote; none if half of a surrogate pair stands alone. -/
def decode : List Piece → Option (List Char)
  | [] => some []
  | .char c :: ps => (decode ps).map (c :: ·)
  | [.unit n] => if isLead n || isTrail n then none else some [Char.ofNat n]
  | .unit m :: p :: ps =>
    if isLead m then
      match p with
      | .unit n =>
        if isTrail n then
          (decode ps).map (Char.ofNat (0x10000 + (m - 0xD800) * 0x400 + (n - 0xDC00)) :: ·)
        else none
      | .char _ => none
    else if isTrail m then none
    else (decode (p :: ps)).map (Char.ofNat m :: ·)

end MemoryShell.Quoted
