import MemoryShell.Json.Quoted

/-!
# Texts and keys of TOML

The four kinds of text, on one line or several, with escapes or without, and keys. A function
named `scan…?` reads from the front of a text and gives what it read with the text behind it.
Headlines:

* `scanBasic?`, `scanLiteral?`: texts on one line;
* `scanLongBasic?`, `scanLongLiteral?`: texts on several lines;
* `scanKey?`: a key, as the list of its parts.
-/

namespace MemoryShell.Toml

/-! ## Blanks -/

/-- A blank within a line. -/
def isBlank (c : Char) : Bool := c == ' ' || c == '\t'

/-- The text without blanks in front. -/
def skipBlank (cs : List Char) : List Char := cs.dropWhile isBlank

/-- A character that may stand in a text or a comment: all but the control characters, tab
excepted. -/
def isPrintable (c : Char) : Bool := c == '\t' || (0x20 ≤ c.toNat && c.toNat != 0x7F)

/-- The text without blanks, line ends and comments in front. In a comment, where `inComment`
holds, only the end of the line counts. -/
def skipGap : (inComment : Bool) → List Char → List Char
  | _, [] => []
  | _, '\n' :: cs => skipGap false cs
  | _, '\r' :: '\n' :: cs => skipGap false cs
  | true, c :: cs => if isPrintable c then skipGap true cs else c :: cs
  | false, c :: cs =>
    if isBlank c then skipGap false cs else if c = '#' then skipGap true cs else c :: cs

/-- What follows the rest of a line, which may hold blanks and a comment. -/
def endLine? (cs : List Char) : Option (List Char) :=
  let cs := match skipBlank cs with
    | '#' :: cs => cs.dropWhile isPrintable
    | cs => cs
  match cs with
  | [] => some []
  | '\n' :: cs => some cs
  | '\r' :: '\n' :: cs => some cs
  | _ => none

/-! ## Texts on one line -/

/-- The character that a one-letter escape stands for. -/
def ofLetter? : Char → Option Char
  | '\x22' => some '\x22'
  | '\\' => some '\\'
  | 'b' => some '\x08'
  | 'f' => some '\x0c'
  | 'n' => some '\n'
  | 'r' => some '\r'
  | 't' => some '\t'
  | _ => none

/-- The character whose number hexadecimal digits spell. -/
def ofHex? (digits : List Char) : Option Char := do
  let n ← Quoted.hexNumber? digits
  if n.isValidChar then some (Char.ofNat n) else none

/-- A text in front of what has been read. -/
def push (c : Char) : List Char × List Char → List Char × List Char
  | (text, rest) => (c :: text, rest)

/-- A text with escapes, behind its opening quote. -/
def scanBasic? : List Char → Option (List Char × List Char)
  | [] => none
  | '\x22' :: cs => some ([], cs)
  | '\\' :: 'u' :: a :: b :: c :: d :: cs => do
    let e ← ofHex? [a, b, c, d]
    return push e (← scanBasic? cs)
  | '\\' :: 'U' :: a :: b :: c :: d :: e :: f :: g :: h :: cs => do
    let e ← ofHex? [a, b, c, d, e, f, g, h]
    return push e (← scanBasic? cs)
  | '\\' :: l :: cs => do
    let e ← ofLetter? l
    return push e (← scanBasic? cs)
  | c :: cs => if c != '\\' && isPrintable c then (scanBasic? cs).map (push c) else none

/-- A text without escapes, behind its opening quote. -/
def scanLiteral? : List Char → Option (List Char × List Char)
  | [] => none
  | '\x27' :: cs => some ([], cs)
  | c :: cs => if isPrintable c then (scanLiteral? cs).map (push c) else none

/-! ## Texts on several lines -/

/-- What to leave out of a text with escapes: nothing, the blanks between a backslash and the end
of its line, or all blanks and line ends that follow it there. -/
inductive Skip
  | nothing
  | toLineEnd
  | gap
deriving DecidableEq, Repr

/-- A text with escapes on several lines, behind its opening quotes. Up to two of its own quotes
may stand before the closing ones, and a line end counts as one character however it is made. -/
def scanLongBasic? : Skip → List Char → Option (List Char × List Char)
  | .toLineEnd, ' ' :: cs => scanLongBasic? .toLineEnd cs
  | .toLineEnd, '\t' :: cs => scanLongBasic? .toLineEnd cs
  | .toLineEnd, '\n' :: cs => scanLongBasic? .gap cs
  | .toLineEnd, '\r' :: '\n' :: cs => scanLongBasic? .gap cs
  | .toLineEnd, _ => none
  | .gap, ' ' :: cs => scanLongBasic? .gap cs
  | .gap, '\t' :: cs => scanLongBasic? .gap cs
  | .gap, '\n' :: cs => scanLongBasic? .gap cs
  | .gap, '\r' :: '\n' :: cs => scanLongBasic? .gap cs
  | _, [] => none
  | _, '\x22' :: '\x22' :: '\x22' :: '\x22' :: '\x22' :: cs => some (['\x22', '\x22'], cs)
  | _, '\x22' :: '\x22' :: '\x22' :: '\x22' :: cs => some (['\x22'], cs)
  | _, '\x22' :: '\x22' :: '\x22' :: cs => some ([], cs)
  | _, '\x22' :: cs => (scanLongBasic? .nothing cs).map (push '\x22')
  | _, '\n' :: cs => (scanLongBasic? .nothing cs).map (push '\n')
  | _, '\r' :: '\n' :: cs => (scanLongBasic? .nothing cs).map (push '\n')
  | _, '\\' :: 'u' :: a :: b :: c :: d :: cs => do
    let e ← ofHex? [a, b, c, d]
    return push e (← scanLongBasic? .nothing cs)
  | _, '\\' :: 'U' :: a :: b :: c :: d :: e :: f :: g :: h :: cs => do
    let e ← ofHex? [a, b, c, d, e, f, g, h]
    return push e (← scanLongBasic? .nothing cs)
  | _, '\\' :: '\n' :: cs => scanLongBasic? .gap cs
  | _, '\\' :: '\r' :: '\n' :: cs => scanLongBasic? .gap cs
  | _, '\\' :: ' ' :: cs => scanLongBasic? .toLineEnd cs
  | _, '\\' :: '\t' :: cs => scanLongBasic? .toLineEnd cs
  | _, '\\' :: l :: cs => do
    let e ← ofLetter? l
    return push e (← scanLongBasic? .nothing cs)
  | _, c :: cs =>
    if c != '\\' && isPrintable c then (scanLongBasic? .nothing cs).map (push c) else none

/-- A text without escapes on several lines, behind its opening quotes. -/
def scanLongLiteral? : List Char → Option (List Char × List Char)
  | [] => none
  | '\x27' :: '\x27' :: '\x27' :: '\x27' :: '\x27' :: cs => some (['\x27', '\x27'], cs)
  | '\x27' :: '\x27' :: '\x27' :: '\x27' :: cs => some (['\x27'], cs)
  | '\x27' :: '\x27' :: '\x27' :: cs => some ([], cs)
  | '\n' :: cs => (scanLongLiteral? cs).map (push '\n')
  | '\r' :: '\n' :: cs => (scanLongLiteral? cs).map (push '\n')
  | c :: cs => if isPrintable c then (scanLongLiteral? cs).map (push c) else none

/-- The text without a line end in front, which does not belong to a text on several lines. -/
def skipFirstLineEnd : List Char → List Char
  | '\n' :: cs => cs
  | '\r' :: '\n' :: cs => cs
  | cs => cs

/-- Any of the four kinds of text; none if the first character is no quote. -/
def scanText? : List Char → Option (List Char × List Char)
  | '\x22' :: '\x22' :: '\x22' :: cs => scanLongBasic? .nothing (skipFirstLineEnd cs)
  | '\x22' :: cs => scanBasic? cs
  | '\x27' :: '\x27' :: '\x27' :: cs => scanLongLiteral? (skipFirstLineEnd cs)
  | '\x27' :: cs => scanLiteral? cs
  | _ => none

/-! ## Keys -/

/-- A character of a key without quotes. -/
def isBareKeyChar (c : Char) : Bool := c.isAlphanum || c == '-' || c == '_'

/-- One part of a key. -/
def scanKeyPart? : List Char → Option (List Char × List Char)
  | '\x22' :: cs => scanBasic? cs
  | '\x27' :: cs => scanLiteral? cs
  | cs =>
    match cs.takeWhile isBareKeyChar with
    | [] => none
    | part => some (part, cs.dropWhile isBareKeyChar)

/-- The first part of a key and the further ones, dots between them and blanks around; at most
`limit` parts in all. -/
def scanKeyParts? : (limit : Nat) → List Char → Option ((String × List String) × List Char)
  | 0, _ => none
  | limit + 1, cs => do
    let (part, cs) ← scanKeyPart? (skipBlank cs)
    match skipBlank cs with
    | '.' :: cs =>
      let ((next, others), rest) ← scanKeyParts? limit cs
      return ((String.ofList part, next :: others), rest)
    | cs => return ((String.ofList part, []), cs)

/-- How many tables, arrays or parts of a key may lie within one another. -/
def nestingLimit : Nat := 79

/-- A key: the tables it leads through, and the name in the last of them. -/
def scanKey? (cs : List Char) : Option ((List String × String) × List Char) :=
  (scanKeyParts? nestingLimit cs).map fun ((first, others), rest) =>
    (((first :: others).dropLast, others.getLast?.getD first), rest)

end MemoryShell.Toml
