/-!
# Paths of host files

Headlines:

* `parent`: the directory of a file;
* `join`: a path seen from a directory.
-/

namespace MemoryShell.Host.Path

/-- Whether a path leads from the root of the host. -/
def isAbsolute (path : String) : Bool := path.startsWith "/"

/-- A path spelled backwards, without the slashes and lone dots at its end; a lone slash or dot
stays. -/
def dropIdleEnd : List Char → List Char
  | '/' :: c :: cs => dropIdleEnd (c :: cs)
  | '.' :: '/' :: cs => dropIdleEnd ('/' :: cs)
  | cs => cs

/-- The directory of the file that a path names. -/
def parent (path : String) : String :=
  String.ofList (dropIdleEnd (path.toList.reverse.dropWhile (· ≠ '/'))).reverse

/-- The path `path` seen from the directory `dir`. -/
def join (dir path : String) : String :=
  if isAbsolute path || dir.isEmpty then path
  else if dir.endsWith "/" then dir ++ path
  else dir ++ "/" ++ path

end MemoryShell.Host.Path
