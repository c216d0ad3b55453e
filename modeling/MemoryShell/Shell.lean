import MemoryShell.Completion
import MemoryShell.Execution
import MemoryShell.Recall

/-!
# Shells

What a shell keeps from line to line apart from the session: its commands, the lines submitted,
and its message templates. Headline:

* `Shell.execute`: a line recorded and executed.
-/

namespace MemoryShell

/-- `Shell`: the commands of a shell, the lines submitted to it and its messages. -/
structure Shell where
  registry : Registry
  submitted : Recall
  messages : Messages

namespace Shell

/-- `with_config`: a shell with the built-in commands. -/
def ofMessages (messages : Messages) : Shell := ⟨.builtins, .empty, messages⟩

instance : Inhabited Shell := ⟨ofMessages .standard⟩

/-- `extend`: the shell with commands added; one of a known name takes its place. -/
def extend (shell : Shell) (cs : List Command) : Shell :=
  { shell with registry := shell.registry.extend cs }

/-- `execute`: records a line for recall and executes it. -/
def execute (shell : Shell) (line : String) (s : Session) : Shell × Session :=
  ({ shell with submitted := shell.submitted.push line },
    shell.registry.execute shell.messages line s)

/-- `autocomplete`: the completion of a line in typing. -/
def complete (shell : Shell) (line : String) (s : Session) : Option String :=
  MemoryShell.complete shell.registry line s

end Shell

end MemoryShell
