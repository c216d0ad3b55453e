import MemoryShell.Json.Basic
import MemoryShell.Json.Quoted

/-!
# JSON texts

A text is first read as a document, which checks the grammar alone: a part that nobody asks for
may nest as deep as it likes, and may hold numbers and escapes that denote nothing. Taking the
value of a part then asks more of it. Headlines:

* `Doc.parse?`: the document that a text spells;
* `Doc.value?`: the value of a document that opens at most so many brackets at once.
-/

namespace MemoryShell

/-- A JSON text by its grammar. A number too big for a double and a text with half a surrogate
pair denote nothing. -/
inductive Doc
  | null
  | bool (value : Bool)
  | number (value? : Option Number)
  | string (text? : Option String)
  | array (items : List Doc)
  | object (members : List (Option String × Doc))
deriving Inhabited

namespace Doc

/-! ## Scanning -/

/-- The blanks that may stand between the parts of a document. -/
def isSpace (c : Char) : Bool := c == ' ' || c == '\t' || c == '\n' || c == '\r'

/-- The text without the blanks in front. -/
def skipSpace (cs : List Char) : List Char := cs.dropWhile isSpace

/-- One digit or more, and the text behind them. -/
def scanDigits? (cs : List Char) : Option (List Char × List Char) :=
  match cs.takeWhile Char.isDigit with
  | [] => none
  | ds => some (ds, cs.dropWhile Char.isDigit)

/-- The digits before the point: a lone zero, or digits that do not begin with one. -/
def scanWhole? : List Char → Option (List Char × List Char)
  | '0' :: cs => some (['0'], cs)
  | cs => scanDigits? cs

/-- The digits behind the point, if there is one. -/
def scanFraction? : List Char → Option (List Char × List Char)
  | '.' :: cs => scanDigits? cs
  | cs => some ([], cs)

/-- The power of ten, if there is one: whether it is negative, and its digits. -/
def scanPower? : List Char → Option (Option (Bool × List Char) × List Char)
  | [] => some (none, [])
  | c :: cs =>
    if c = 'e' ∨ c = 'E' then
      match cs with
      | '-' :: ds => (scanDigits? ds).map fun (ds, rest) => (some (true, ds), rest)
      | '+' :: ds => (scanDigits? ds).map fun (ds, rest) => (some (false, ds), rest)
      | ds => (scanDigits? ds).map fun (ds, rest) => (some (false, ds), rest)
    else some (none, c :: cs)

/-- A number literal without its sign. -/
def scanMagnitude? (negative : Bool) (cs : List Char) : Option (Number.Literal × List Char) := do
  let (whole, cs) ← scanWhole? cs
  let (fraction, cs) ← scanFraction? cs
  let (power, cs) ← scanPower? cs
  return (⟨negative, whole, fraction, power⟩, cs)

/-- A number literal. -/
def scanNumber? : List Char → Option (Number.Literal × List Char)
  | '-' :: cs => scanMagnitude? true cs
  | cs => scanMagnitude? false cs

/-- A text behind its opening quote. -/
def scanText? (cs : List Char) : Option (Option String × List Char) :=
  (Quoted.scan cs).map fun (pieces, rest) => ((Quoted.decode pieces).map String.ofList, rest)

mutual

/-- The document at the front of a text, in at most `fuel` nested steps. -/
def scan? : (fuel : Nat) → List Char → Option (Doc × List Char)
  | 0, _ => none
  | _ + 1, 'n' :: 'u' :: 'l' :: 'l' :: cs => some (null, cs)
  | _ + 1, 't' :: 'r' :: 'u' :: 'e' :: cs => some (bool true, cs)
  | _ + 1, 'f' :: 'a' :: 'l' :: 's' :: 'e' :: cs => some (bool false, cs)
  | _ + 1, '\x22' :: cs => (scanText? cs).map fun (text?, rest) => (string text?, rest)
  | fuel + 1, '[' :: cs =>
    match skipSpace cs with
    | ']' :: rest => some (array [], rest)
    | cs => (scanItems? fuel cs).map fun (items, rest) => (array items, rest)
  | fuel + 1, '\x7b' :: cs =>
    match skipSpace cs with
    | '\x7d' :: rest => some (object [], rest)
    | cs => (scanMembers? fuel cs).map fun (members, rest) => (object members, rest)
  | _ + 1, cs => (scanNumber? cs).map fun (l, rest) => (number (Number.ofLiteral? l), rest)

/-- One item of an array or more, and its closing bracket. -/
def scanItems? : (fuel : Nat) → List Char → Option (List Doc × List Char)
  | 0, _ => none
  | fuel + 1, cs => do
    let (item, cs) ← scan? fuel cs
    match skipSpace cs with
    | ',' :: cs => (scanItems? fuel (skipSpace cs)).map fun (items, rest) => (item :: items, rest)
    | ']' :: rest => some ([item], rest)
    | _ => none

/-- One member of an object or more, and its closing brace. -/
def scanMembers? : (fuel : Nat) → List Char → Option (List (Option String × Doc) × List Char)
  | 0, _ => none
  | fuel + 1, '\x22' :: cs => do
    let (key?, cs) ← scanText? cs
    let ':' :: cs := skipSpace cs | none
    let (item, cs) ← scan? fuel (skipSpace cs)
    match skipSpace cs with
    | ',' :: cs =>
      (scanMembers? fuel (skipSpace cs)).map fun (members, rest) => ((key?, item) :: members, rest)
    | '\x7d' :: rest => some ([(key?, item)], rest)
    | _ => none
  | _ + 1, _ => none

end

/-- The document that a text spells, blanks around it allowed. A bracket and its first item take
two steps, so twice the length of the text is enough for all of it. -/
def parse? (text : String) : Option Doc :=
  match scan? (2 * text.length + 2) (skipSpace text.toList) with
  | some (doc, rest) => if (skipSpace rest).isEmpty then some doc else none
  | none => none

/-! ## Values -/

mutual

/-- The value of a document in which at most `depth` brackets are open at once. -/
def value? : (depth : Nat) → Doc → Option Json
  | _, null => some .null
  | _, bool b => some (.bool b)
  | _, number n? => n?.map .number
  | _, string s? => s?.map .string
  | 0, array _ => none
  | depth + 1, array items => (itemValues? depth items).map .array
  | 0, object _ => none
  | depth + 1, object members => (memberValues? depth members).map .object

/-- The values of a list of documents. -/
def itemValues? (depth : Nat) : List Doc → Option (List Json)
  | [] => some []
  | d :: ds => do return (← d.value? depth) :: (← itemValues? depth ds)

/-- The keys and values of a list of members. -/
def memberValues? (depth : Nat) : List (Option String × Doc) → Option (List (String × Json))
  | [] => some []
  | (k?, d) :: ms => do return (← k?, ← d.value? depth) :: (← memberValues? depth ms)

end

/-- How many brackets a snapshot may have open at once. -/
def depthLimit : Nat := 127

end Doc

/-- The value that a text spells, with at most `depth` brackets open at once. -/
def Json.parse? (depth : Nat) (text : String) : Option Json :=
  (Doc.parse? text).bind (·.value? depth)

end MemoryShell
