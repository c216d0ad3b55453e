import MemoryShell.Registry

/-!
# Completing a line

The last word of what was typed is completed if there is exactly one way to do it: the first word
to the name of a command, a later one to the name of a node. Headlines:

* `completeName`: the command names;
* `completePath`: the names in the directory that the word leads to.
-/

namespace MemoryShell

/-- `unique`: the only element of a list. -/
def only? : List α → Option α
  | [a] => some a
  | _ => none

/-- Whether the last character of a text is blank. -/
def endsInBlank (s : String) : Bool := s.toList.getLast?.any Text.isBlank

/-- The words of a line in typing. A blank at its end begins a new, empty word, but not before
the first. -/
def typedWords (line : String) : List String :=
  match Text.words line with
  | [] => []
  | ws => if endsInBlank line then ws ++ [""] else ws

/-- The only command name that begins with a word. -/
def completeName (r : Registry) (word : String) : Option String := only? (r.completions word)

/-- The only way to complete a word to the path of a node in the directory that the word leads
to. -/
def completePath (s : Session) (word : String) : Option String := do
  let (parent?, leaf) := Path.splitParent word
  let dir ← (resolve s.tree s.cwd (parent?.getD ".")).toOption
  if !dir.node.isDir then none
  let name ← only? ((dir.node.children.map Node.name).filter (·.startsWith leaf))
  return parent?.elim name fun parent => Path.under parent name

/-- `autocomplete`: the line with its last word completed; the words before it are joined by single
blanks. -/
def complete (r : Registry) (line : String) (s : Session) : Option String :=
  match typedWords line with
  | [] => completeName r ""
  | [word] => completeName r word
  | ws => do
    let last ← ws.getLast?
    return " ".intercalate ws.dropLast ++ " " ++ (← completePath s last)

end MemoryShell
