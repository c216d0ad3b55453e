import MemoryShell.Toml.Table

/-!
# Documents of TOML

A document is a list of statements, one on a line: headers and assignments. Headlines:

* `Statement.ofText?`: the statements of a text;
* `Toml.parse?`: the table that they build.
-/

namespace MemoryShell.Toml

/-! ## Values -/

mutual

/-- A value, in at most `fuel` nested steps, with at most `depth` brackets open at once. -/
def scanValue? : (fuel : Nat) → (depth : Nat) → List Char → Option (Toml × List Char)
  | 0, _, _ => none
  | _ + 1, _, 't' :: 'r' :: 'u' :: 'e' :: cs => some (scalar (.boolean true), cs)
  | _ + 1, _, 'f' :: 'a' :: 'l' :: 's' :: 'e' :: cs => some (scalar (.boolean false), cs)
  | _ + 1, 0, '[' :: _ => none
  | fuel + 1, depth + 1, '[' :: cs =>
    (scanItems? fuel depth (skipGap false cs)).map fun (items, rest) => (array items, rest)
  | _ + 1, 0, '\x7b' :: _ => none
  | fuel + 1, depth + 1, '\x7b' :: cs => do
    match skipBlank cs with
    | '\x7d' :: rest => return (table .inline [], rest)
    | cs =>
      let (assignments, rest) ← scanMembers? fuel depth cs
      return (← inlineTable? assignments, rest)
  | _ + 1, _, cs =>
    match cs with
    | [] => none
    | c :: _ =>
      if c = '\x22' ∨ c = '\x27' then
        (scanText? cs).map fun (s, rest) => (text (String.ofList s), rest)
      else if c = 'i' ∨ c = 'n' ∨ c = '+' ∨ c = '-' ∨ c.isDigit then
        (scanScalar? cs).map fun (s, rest) => (scalar s, rest)
      else none

/-- The items of an array and its closing bracket. A comma may follow the last item too. -/
def scanItems? : (fuel : Nat) → (depth : Nat) → List Char → Option (List Toml × List Char)
  | 0, _, _ => none
  | _ + 1, _, ']' :: rest => some ([], rest)
  | fuel + 1, depth, cs => do
    let (item, cs) ← scanValue? fuel depth cs
    match skipGap false cs with
    | ',' :: cs =>
      let (items, rest) ← scanItems? fuel depth (skipGap false cs)
      return (item :: items, rest)
    | ']' :: rest => return ([item], rest)
    | _ => none

/-- One assignment between braces or more, and the closing brace. -/
def scanMembers? : (fuel : Nat) → (depth : Nat) → List Char →
    Option (List ((List String × String) × Toml) × List Char)
  | 0, _, _ => none
  | fuel + 1, depth, cs => do
    let (key, cs) ← scanKey? cs
    let '=' :: cs := cs | none
    let (v, cs) ← scanValue? fuel depth (skipBlank cs)
    match skipBlank cs with
    | ',' :: cs =>
      let (assignments, rest) ← scanMembers? fuel depth cs
      return ((key, v) :: assignments, rest)
    | '\x7d' :: rest => return ([(key, v)], rest)
    | _ => none

end

/-! ## Statements -/

/-- What a line of a document says. -/
inductive Statement
  | assign (path : List String) (name : String) (value : Toml)
  | openTable (path : List String) (name : String)
  | openElement (path : List String) (name : String)

namespace Statement

/-- One statement and the end of its line. -/
def scan? (fuel : Nat) (cs : List Char) : Option (Statement × List Char) :=
  match cs with
  | '[' :: '[' :: cs => do
    let ((path, name), cs) ← scanKey? cs
    let ']' :: ']' :: cs := cs | none
    return (.openElement path name, ← endLine? cs)
  | '[' :: cs => do
    let ((path, name), cs) ← scanKey? cs
    let ']' :: cs := cs | none
    return (.openTable path name, ← endLine? cs)
  | cs => do
    let ((path, name), cs) ← scanKey? cs
    let '=' :: cs := cs | none
    let (v, cs) ← scanValue? fuel nestingLimit (skipBlank cs)
    return (.assign path name v, ← endLine? cs)

/-- All statements of a text, in at most `fuel` steps. -/
def scanAll? : (fuel : Nat) → List Char → Option (List Statement)
  | 0, _ => none
  | fuel + 1, cs =>
    match skipBlank cs with
    | [] => some []
    | c :: cs =>
      if c = '#' ∨ c = '\n' ∨ c = '\r' then (endLine? (c :: cs)).bind (scanAll? fuel)
      else do
        let (statement, cs) ← scan? (fuel + 1) (c :: cs)
        return statement :: (← scanAll? fuel cs)

/-- The statements of a text; a mark of byte order in front is left out. No step reads less than
one character, and a value takes at most two steps for each. -/
def ofText? (text : String) : Option (List Statement) :=
  let cs := match text.toList with
    | '\ufeff' :: cs => cs
    | cs => cs
  scanAll? (2 * cs.length + 2) cs

end Statement

/-! ## Documents -/

/-- A document in the making: its members so far, and the path of the table that was opened
last. -/
structure Draft where
  members : Members
  current : List String

namespace Draft

/-- One statement more. -/
def add? (d : Draft) : Statement → Option Draft
  | .assign path name v => do
    let members ← editAt? false (fun _ ms => assign? path name v ms) d.current .declared d.members
    return { d with members }
  | .openTable path name => return ⟨← openTable? path name d.members, path ++ [name]⟩
  | .openElement path name => return ⟨← openElement? path name d.members, path ++ [name]⟩

end Draft

/-- The members of the table that a text describes. -/
def parse? (text : String) : Option Members := do
  let statements ← Statement.ofText? text
  let d ← statements.foldlM Draft.add? ⟨[], []⟩
  return d.members

end MemoryShell.Toml
