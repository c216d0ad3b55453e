import MemoryShell.Command
import MemoryShell.Tree.Resolve

/-!
# Listings

How directories and the manual are laid out as text. Headlines:

* `listedIn`: what a listing of a place shows, and in which order;
* `manualText`: the manual in two columns.
-/

namespace MemoryShell

/-- A text with blanks in front, up to a width in characters. -/
def padLeft (width : Nat) (s : String) : String :=
  String.ofList (List.replicate (width - s.length) ' ') ++ s

/-- A text with blanks behind, up to a width in characters. -/
def padRight (width : Nat) (s : String) : String :=
  s ++ String.ofList (List.replicate (width - s.length) ' ')

/-! ## Directories -/

/-- A node under the name by which a listing shows it. -/
structure Listed where
  name : String
  node : Node

namespace Listed

/-- A node under its own name. -/
def ofNode (t : Node) : Listed := ⟨t.name, t⟩

/-- `long_line`: kind, size and name of a node. -/
def longLine (e : Listed) : String :=
  (if e.node.isDir then "d" else "-") ++ " " ++ padLeft 6 (toString e.node.size) ++ " " ++ e.name

end Listed

/-- Whether a name is left out of a listing unless all are asked for. -/
def isHidden (name : String) : Bool := name.startsWith "."

/-- The entries of `LsCmd` for a place: a file shows itself, a directory its children. If all are
asked for, hidden children are among them, and the directory itself and the one above come first. -/
def listedIn (root : Node) (target : Location) (all : Bool) : Except ShellError (List Listed) :=
  if !target.node.isDir then return [.ofNode target.node]
  else if all then do
    let parent ← resolve root target.path ".."
    return ⟨".", target.node⟩ :: ⟨"..", parent.node⟩ :: target.node.children.map .ofNode
  else
    return (target.node.children.filter fun c => !isHidden c.name).map .ofNode

/-- A listing as text: one line each with kind and size, or the names in a row. -/
def listingText (long : Bool) (entries : List Listed) : String :=
  if long then "\n".intercalate (entries.map Listed.longLine)
  else "  ".intercalate (entries.map Listed.name)

/-! ## The manual -/

/-- What `HelpCmd` makes of the manual: two columns, names and descriptions. The column of names is
as wide as the longest name counted in bytes, and is filled up with one blank for each character
missing. -/
def manualText (manual : Manual) : String :=
  let width := (manual.map fun e => e.name.utf8ByteSize).foldl max 0
  "\n".intercalate (manual.map fun e => padRight width e.name ++ "  " ++ e.description)

/-- The manual on one command. -/
def usageText (e : ManualEntry) : String := "usage: " ++ e.usage ++ "\n" ++ e.description

end MemoryShell
