/-!
# Host files

Files outside the shell, as far as starting one needs them. Headlines:

* `ReadError`: why a file cannot be read;
* `Files.ofList`: the files of a list of paths;
* `Files.read`: reading from a fixed set of files.
-/

namespace MemoryShell.Host

/-- Why a file cannot be read as a text. -/
inductive ReadError
  | notFound
  | notADirectory
  | isADirectory
  | notUnicode
  | other (reason : String)
deriving DecidableEq, Repr, Inhabited

/-- The reason in words, with the number by which the host knows it. -/
def ReadError.message : ReadError → String
  | notFound => "No such file or directory (os error 2)"
  | notADirectory => "Not a directory (os error 20)"
  | isADirectory => "Is a directory (os error 21)"
  | notUnicode => "stream did not contain valid UTF-8"
  | other reason => reason

/-- The text that bytes spell in UTF-8. -/
def textOf (bytes : ByteArray) : Except ReadError String :=
  match String.fromUTF8? bytes with
  | some text => .ok text
  | none => .error .notUnicode

/-- A fixed set of files and directories, each known by the names on the way from the root. -/
structure Files where
  directories : List (List String)
  files : List (List String × ByteArray)

namespace Files

/-- The names on a path; a slash at its end asks for a directory, as a dot does. -/
def names (path : String) : List String :=
  let names := ((path.toList.splitOn '/').filter fun s => !s.isEmpty).map String.ofList
  if path.endsWith "/" then names ++ ["."] else names

/-- The places on a way, the directory where it begins first: a dot stays where it is, and two dots
lead one place up. -/
def trail : (dir : List String) → List String → List (List String)
  | dir, [] => [dir]
  | dir, name :: rest =>
    dir :: trail
      (if name = "." then dir else if name = ".." then dir.dropLast else dir ++ [name]) rest

/-- The files of these paths, of which a later one replaces an earlier at the same place, and the
directories that the paths pass. -/
def ofList (directories : List String) (files : List (String × ByteArray)) : Files :=
  let trails := files.map fun (path, bytes) => (trail [] (names path), bytes)
  ⟨(directories.flatMap fun path => trail [] (names path)) ++ trails.flatMap fun t => t.1.dropLast,
    (trails.map fun (places, bytes) => (places.getLastD [], bytes)).reverse⟩

/-- The bytes at the end of a way that begins in a directory. -/
def readFrom (host : Files) : (dir : List String) → List String → Except ReadError ByteArray
  | _, [] => .error .isADirectory
  | dir, name :: rest =>
    if name = "." then host.readFrom dir rest
    else if name = ".." then host.readFrom dir.dropLast rest
    else
      let here := dir ++ [name]
      match host.files.find? fun f => f.1 == here with
      | some (_, bytes) => if rest.isEmpty then .ok bytes else .error .notADirectory
      | none => if host.directories.contains here then host.readFrom here rest else .error .notFound

/-- The bytes of a file. -/
def read (host : Files) (path : String) : Except ReadError ByteArray :=
  if path.isEmpty then .error .notFound else host.readFrom [] (names path)

/-- The text of a file. -/
def readText (host : Files) (path : String) : Except ReadError String :=
  (host.read path).bind textOf

end Files

end MemoryShell.Host
