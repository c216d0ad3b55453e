import MemoryShell.Json.Basic
import MemoryShell.Tree.Node

/-!
# Sessions

A session is what a line works on: the transcript so far, the tree, the working directory, and
settings that no command looks at. Headlines:

* `promptFor`: the prompt of a line typed in a directory;
* `transcriptText`: how entries look on a screen.
-/

namespace MemoryShell

/-! ## Transcript -/

/-- `HistoryEntry`: one entry of a transcript. -/
inductive Entry
  /-- A submitted line, with the directory it was typed in. -/
  | echo (line cwd : String)
  /-- The output of a command, or a report of its failure. -/
  | output (text : String)
deriving DecidableEq, Repr, Inhabited

/-- `prompt_for`: the prompt in front of a line typed in `cwd`. Paths begin with a slash, so the
root shows as `~/`. -/
def promptFor (promptName cwd : String) : String := promptName ++ " ~" ++ cwd ++ " $"

namespace Entry

/-- The line or output text. -/
def value : Entry → String
  | echo line _ => line
  | output text => text

/-- `is_echo`: whether the entry is a submitted line. -/
def isEcho : Entry → Bool
  | echo _ _ => true
  | output _ => false

/-- `prompt`: the prompt that stood in front of a submitted line. -/
def prompt? (promptName : String) : Entry → Option String
  | echo _ cwd => some (promptFor promptName cwd)
  | output _ => none

/-- The lines of an entry on the screen; empty output takes none. -/
def screenText (promptName : String) : Entry → String
  | echo line cwd => promptFor promptName cwd ++ " " ++ line ++ "\n"
  | output text => if text.isEmpty then "" else text ++ "\n"

end Entry

/-- `print_entries`: the entries of a transcript as they stand on the screen. -/
def transcriptText (promptName : String) (entries : List Entry) : String :=
  String.join (entries.map (·.screenText promptName))

/-! ## Settings -/

/-- A value kept for the caller, in canonical form. -/
structure Settings where
  value : Json
  isCanonical : value.isCanonical = true

namespace Settings

/-- The canonical form of any value. -/
def ofJson (v : Json) : Settings := ⟨v.sortKeys, Json.isCanonical_sortKeys v⟩

/-- The settings of a session that was given none. -/
def none : Settings := ⟨.null, rfl⟩

instance : Inhabited Settings := ⟨none⟩

instance : BEq Settings := ⟨fun s t => s.value == t.value⟩

@[ext]
theorem ext {s t : Settings} (h : s.value = t.value) : s = t := by
  cases s; cases t; cases h; rfl

theorem ofJson_value (s : Settings) : ofJson s.value = s :=
  ext (Json.sortKeys_of_isCanonical _ s.isCanonical)

end Settings

/-! ## The session -/

/-- `SessionState`: the state that a line is executed on. -/
structure Session where
  history : List Entry
  tree : Node
  cwd : String
  settings : Settings

namespace Session

/-- `new`: a session at the root of a tree, with nothing in its transcript. -/
def ofTree (tree : Node) : Session := ⟨[], tree, "/", .none⟩

/-- A session on the empty tree. -/
def fresh : Session := ofTree .root

instance : Inhabited Session := ⟨fresh⟩

/-- `prompt`: the prompt of the next line. -/
def prompt (s : Session) (promptName : String) : String := promptFor promptName s.cwd

/-- The session with one entry more. -/
def log (s : Session) (e : Entry) : Session := { s with history := s.history ++ [e] }

end Session

end MemoryShell
