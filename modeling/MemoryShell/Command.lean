import MemoryShell.Line.Invocation
import MemoryShell.Session
import MemoryShell.ShellError

/-!
# Commands

A command is a manual entry together with what it does to a session. It works on the session it
is given and hands back the changed one, also when it fails, since it may fail halfway. It sees
the manual of the shell it runs in, but not the other commands themselves. Headlines:

* `Command.run`: a command at work;
* `Manual.lookup?`: the manual entry of a name.
-/

namespace MemoryShell

/-- What the manual says of a command: its `name`, `description` and `usage`. -/
structure ManualEntry where
  name : String
  description : String
  usage : String
deriving DecidableEq, Repr, Inhabited

/-- The manual of a shell, in the order of its names. -/
abbrev Manual := List ManualEntry

namespace Manual

/-- The entry of a name. -/
def lookup? (manual : Manual) (name : String) : Option ManualEntry :=
  manual.find? fun e => e.name == name

end Manual

/-- What comes of a command: the session as it leaves it, and its output, if it has any, or why it
failed. The output is the `CommandOutput`. -/
structure Outcome where
  session : Session
  result : Except ShellError (Option String)

namespace Outcome

/-- Success without output. -/
def silent (s : Session) : Outcome := ⟨s, .ok none⟩

/-- Success with output. -/
def output (s : Session) (text : String) : Outcome := ⟨s, .ok (some text)⟩

/-- Failure. -/
def failed (s : Session) (e : ShellError) : Outcome := ⟨s, .error e⟩

end Outcome

/-- `Command`: a manual entry, and what is done where a line calls its name. -/
structure Command extends ManualEntry where
  run : Manual → Arguments → Session → Outcome

end MemoryShell
