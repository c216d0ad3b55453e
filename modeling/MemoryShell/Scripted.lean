import MemoryShell.Command

/-!
# Scripted commands

Commands that a host adds without programming: each does the same few things whenever it is
called. Headlines:

* `Script.run`: the things it does, in their order;
* `argumentsText`: the arguments of a call, spelled out.
-/

namespace MemoryShell

/-- The arguments of a call: operands as typed, options in the order of their spelled-out texts,
and flags in order. -/
def argumentsText (args : Arguments) : String :=
  let options := (args.options.entries.map fun e => e.1 ++ "=" ++ e.2).mergeSort fun a b =>
    decide (a ≤ b)
  let flags := String.ofList args.flags.keys
  "[" ++ "|".intercalate args.operands ++ "][" ++ "|".intercalate options ++ "][" ++ flags ++ "]"

/-- What a scripted command prints. -/
inductive ScriptOutput
  | nothing
  /-- The names in the manual, in a row. -/
  | names
  /-- The arguments it was called with. -/
  | arguments
  | text (text : String)
deriving DecidableEq, Repr, Inhabited

/-- What a scripted command does: an entry for the transcript, a working directory that need not
exist, settings, and then failure or output. -/
structure Script where
  push : Option String
  cwd : Option String
  settings : Option Settings
  failure : Option ShellError
  output : ScriptOutput

namespace Script

/-- The session changed as the script demands. -/
def change (script : Script) (s : Session) : Session :=
  let s := script.push.elim s fun text => s.log (.output text)
  let s := script.cwd.elim s fun cwd => { s with cwd }
  script.settings.elim s fun settings => { s with settings }

/-- The script at work. -/
def run (script : Script) (manual : Manual) (args : Arguments) (s : Session) : Outcome :=
  let s := script.change s
  match script.failure with
  | some e => .failed s e
  | none =>
    match script.output with
    | .nothing => .silent s
    | .names => .output s (" ".intercalate (manual.map (·.name)))
    | .arguments => .output s (argumentsText args)
    | .text text => .output s text

/-- The command of a script. -/
def command (script : Script) (entry : ManualEntry) : Command := ⟨entry, script.run⟩

end Script

end MemoryShell
