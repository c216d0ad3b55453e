import MemoryShell.Config
import MemoryShell.Host.Files
import MemoryShell.Host.Path
import MemoryShell.Snapshot

/-!
# Starting up

The configuration and the first tree of a shell, from host files or as they stand by default.
The functions take the reading of host files as an argument. Headlines:

* `Config.load`: a configuration from its file;
* `Startup.load`: the configuration and the tree.
-/

namespace MemoryShell

/-- How a text is read from the host. -/
abbrev Host.Reader (m : Type → Type) := (path : String) → m (Except Host.ReadError String)

/-- The configuration in a file that has been read; the path of a snapshot is seen from the
directory of the file. -/
def Config.ofFile (path : String) : Except Host.ReadError String → Except ShellError Config
  | .error e => .error (.io e.message)
  | .ok text => do
    let config ← Config.parse text
    return { config with
      structurePath := config.structurePath.map (Host.Path.join (Host.Path.parent path)) }

/-- `load`: the configuration in a file. -/
def Config.load {m : Type → Type} [Monad m] (read : Host.Reader m) (path : String) :
    m (Except ShellError Config) :=
  return Config.ofFile path (← read path)

/-- `demo_structure`: the tree of a shell that was given none. -/
def demoTree : Node :=
  .directory "/"
    [.directory "home"
      [.directory "user"
        [.file "readme.txt" "Welcome to reef!\nType 'help' for available commands.",
          .directory "projects" [],
          .file ".profile" "prompt=hacker@default"]],
      .directory "etc" [.file "hostname" "reef", .file "version" "0.1.0"],
      .directory "tmp" []]

/-- Why a shell cannot be started. -/
inductive StartupError
  | config (reason : ShellError)
  /-- The snapshot cannot be read. -/
  | unreadable (path : String)
  /-- The snapshot does not describe a tree. -/
  | malformed (path : String)
  /-- The snapshot describes a file. -/
  | notADirectory (path : String)
deriving DecidableEq, Repr

/-- The reason in words. -/
def StartupError.message : StartupError → String
  | config reason => reason.message
  | unreadable path => "reading structure " ++ path
  | malformed path => "parsing structure " ++ path
  | notADirectory path => "structure root in " ++ path ++ " is not a directory"

/-- `load_structure`: the tree in a snapshot that has been read. -/
def treeOfFile (path : String) : Except Host.ReadError String → Except StartupError Node
  | .error _ => .error (.unreadable path)
  | .ok text =>
    match Node.parse text with
    | .error _ => .error (.malformed path)
    | .ok tree => if tree.isDir then .ok tree else .error (.notADirectory path)

/-- What a shell starts with. -/
structure Startup where
  config : Config
  tree : Node

/-- What a shell starts with, given the path of a configuration or none. So `main` begins. -/
def Startup.load {m : Type → Type} [Monad m] (read : Host.Reader m) (path? : Option String) :
    m (Except StartupError Startup) := do
  let config ← match path? with
    | none => pure (.ok .standard)
    | some path => Config.load read path
  match config with
  | .error e => return .error (.config e)
  | .ok config =>
    match config.structurePath with
    | none => return .ok ⟨config, demoTree⟩
    | some path => return (treeOfFile path (← read path)).map (⟨config, ·⟩)

end MemoryShell
