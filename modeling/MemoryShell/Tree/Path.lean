import MemoryShell.Text.Split

/-!
# Path texts

A path is read as the names between its slashes. Headlines:

* `normalize`: the canonical spelling, one slash in front of each name;
* `splitParent`: a path cut at its last slash.
-/

namespace MemoryShell.Path

/-- The names of a path: what stands between slashes, empty pieces left out. -/
def segments (path : String) : List String :=
  ((path.toList.splitOn '/').filter fun s => !s.isEmpty).map String.ofList

/-- The path that spells these names, each behind a slash; the root is a lone slash. -/
def ofNames (names : List String) : String := "/" ++ "/".intercalate names

/-- Whether a path leads from the root rather than from the working directory. -/
def isAbsolute (path : String) : Bool := path.startsWith "/"

/-! ## Canonical spelling -/

/-- Whether every slash has a name behind it, up to the end of the text. -/
def noEmptyName : List Char → Bool
  | [] => true
  | ['/'] => false
  | '/' :: '/' :: _ => false
  | _ :: cs => noEmptyName cs

/-- `is_normalized`: whether a text begins with a slash and has an empty name nowhere, or is the
lone slash. -/
def isNormal (path : List Char) : Bool :=
  path == ['/'] || (path.head? == some '/' && noEmptyName path)

/-- The text with each run of slashes shrunk to one. -/
def squeeze : List Char → List Char
  | [] => []
  | '/' :: '/' :: cs => squeeze ('/' :: cs)
  | c :: cs => c :: squeeze cs

/-- The text without a slash at its end, unless it is the lone slash. -/
def dropFinalSlash (path : List Char) : List Char :=
  if path.length > 1 ∧ path.getLast? = some '/' then path.dropLast else path

/-- `normalize`: the canonical spelling of a path, with a slash in front, no slash doubled and none
at the end. Dots are names like any other here. -/
def normalize (path : String) : String :=
  let cs := path.toList
  if isNormal cs then path
  else
    let rooted := if cs.head? = some '/' then cs else '/' :: cs
    String.ofList (dropFinalSlash (squeeze rooted))

/-! ## Parent and leaf -/

/-- `split_parent`: a path cut at its last slash, into what leads to the parent and the name in it.
The parent of a name right under the root is the lone slash; a path without slash has no parent
part. -/
def splitParent (path : String) : Option String × String :=
  let reversed := path.toList.reverse
  let leaf := String.ofList (reversed.takeWhile (· ≠ '/')).reverse
  match reversed.dropWhile (· ≠ '/') with
  | [] => (none, path)
  | [_] => (some "/", leaf)
  | _ :: parent => (some (String.ofList parent.reverse), leaf)

/-- The path of a name in the directory with a given path, as `insert_at` hands it back. -/
def under (dir name : String) : String := if dir = "/" then "/" ++ name else dir ++ "/" ++ name

/-- The path without the slashes at its end; a path of one byte stays as it is. So `insert_at` trims
it. -/
def dropFinalSlashes (path : String) : String :=
  if path.utf8ByteSize > 1 then
    String.ofList (path.toList.reverse.dropWhile (· = '/')).reverse
  else path

/-- `is_valid_name`: a name that a node may be given: not empty, no dot name, without slash. -/
def isValidName (name : String) : Bool :=
  name != "" && name != "." && name != ".." && !name.toList.contains '/'

/-- Whether `path`, in canonical spelling, is `above` or lies below it. This is how `remove_at`
tells what is busy. -/
def isWithin (path above : String) : Bool :=
  above == "/" || path == above || path.startsWith (above ++ "/")

end MemoryShell.Path
