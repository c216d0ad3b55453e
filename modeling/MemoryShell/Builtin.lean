import MemoryShell.Listing
import MemoryShell.Tree.Edit

/-!
# The built-in commands

Headlines:

* `untilFailure`, `despiteFailures`: the two ways of a command with its operands;
* `Builtin.run`: what each built-in command does;
* `Builtin.command`: the built-in commands as commands.
-/

namespace MemoryShell

/-! ## Operands one by one -/

/-- Edits a tree for one operand after another, up to the first failure. -/
def untilFailure (edit : Node → String → Except ShellError Node) :
    Node → List String → Node × Option ShellError
  | t, [] => (t, none)
  | t, expr :: rest =>
    match edit t expr with
    | .ok t => untilFailure edit t rest
    | .error e => (t, some e)

/-- Edits a tree for every operand, also after failures, of which the first is told. -/
def despiteFailures (edit : Node → String → Except ShellError Node) :
    Node → List String → Node × Option ShellError
  | t, [] => (t, none)
  | t, expr :: rest =>
    match edit t expr with
    | .ok t => despiteFailures edit t rest
    | .error e => ((despiteFailures edit t rest).1, some e)

/-- A session with a tree edited, and the failure met in editing. -/
def Outcome.ofEdit (s : Session) : Node × Option ShellError → Outcome
  | (t, none) => .silent { s with tree := t }
  | (t, some e) => .failed { s with tree := t } e

/-! ## What each operand asks for -/

/-- One operand of `MkdirCmd`: a new directory. -/
def makeDirectory (cwd : String) (t : Node) (expr : String) : Except ShellError Node :=
  (insertAt t cwd expr fun name => .directory name []).map Insertion.tree

/-- One operand of `TouchCmd`: a new empty file, unless there is a file already. -/
def touchFile (cwd : String) (t : Node) (expr : String) : Except ShellError Node :=
  match resolve t cwd expr with
  | .ok found => if found.node.isDir then .error (.refused .isADirectory expr) else .ok t
  | .error _ => (insertAt t cwd expr fun name => .file name "").map Insertion.tree

/-- One operand of `RmCmd`: a node less. -/
def removeNode (recursive : Bool) (cwd : String) (t : Node) (expr : String) :
    Except ShellError Node :=
  (removeAt t cwd expr recursive).map Removal.tree

/-- One operand of `CatCmd`: the text of a file. -/
def readFile (s : Session) (expr : String) : Except ShellError String := do
  let found ← resolve s.tree s.cwd expr
  match found.node.content? with
  | some text => return text
  | none => throw (.refused .isADirectory expr)

/-! ## The commands -/

/-- The built-in commands. -/
inductive Builtin
  | help
  | clear
  | ls
  | cd
  | pwd
  | cat
  | mkdir
  | touch
  | rm
  | echo
deriving DecidableEq, Repr, Inhabited

namespace Builtin

/-- All of them, in the order of `register_builtins`. -/
def all : List Builtin := [help, clear, ls, cd, pwd, cat, mkdir, touch, rm, echo]

/-- What the manual says. -/
def manual : Builtin → ManualEntry
  | help => ⟨"help", "List available commands", "help [command]"⟩
  | clear => ⟨"clear", "Clear the terminal transcript", "clear"⟩
  | ls => ⟨"ls", "List directory contents", "ls [path] [-l] [-a]"⟩
  | cd => ⟨"cd", "Change working directory", "cd [path]"⟩
  | pwd => ⟨"pwd", "Print working directory", "pwd"⟩
  | cat => ⟨"cat", "Display file contents", "cat <file...>"⟩
  | mkdir => ⟨"mkdir", "Create directories", "mkdir <path...>"⟩
  | touch => ⟨"touch", "Create empty files", "touch <file...>"⟩
  | rm => ⟨"rm", "Remove files or directories", "rm [-r] <path...>"⟩
  | echo => ⟨"echo", "Print text", "echo [text...]"⟩

/-- The name by which a line calls the command. -/
def name (b : Builtin) : String := b.manual.name

/-- `HelpCmd`: the manual, or its entry for the first operand. -/
def runHelp (manual : Manual) (args : Arguments) (s : Session) : Outcome :=
  match args.operands.head? with
  | none => .output s (manualText manual)
  | some name =>
    match manual.lookup? name with
    | some e => .output s (usageText e)
    | none => .failed s (.refused .commandNotFound name)

/-- `ClearCmd`: the transcript emptied, the line's own echo included. -/
def runClear (s : Session) : Outcome := .silent { s with history := [] }

/-- `LsCmd`: what the first operand shows, or the working directory; nothing to show gives no
output. -/
def runLs (args : Arguments) (s : Session) : Outcome :=
  let entries := do
    let target ← resolve s.tree s.cwd (args.operands.head?.getD ".")
    listedIn s.tree target (args.hasFlag 'a')
  match entries with
  | .ok [] => .silent s
  | .ok entries => .output s (listingText (args.hasFlag 'l') entries)
  | .error e => .failed s e

/-- `CdCmd`: the working directory moved to the first operand, or to the root. -/
def runCd (args : Arguments) (s : Session) : Outcome :=
  let expr := args.operands.head?.getD "/"
  match resolve s.tree s.cwd expr with
  | .ok target =>
    if target.node.isDir then .silent { s with cwd := target.path }
    else .failed s (.refused .notADirectory expr)
  | .error e => .failed s e

/-- `CatCmd`: the texts of the operands, one below the other. -/
def runCat (args : Arguments) (s : Session) : Outcome :=
  match args.operands.mapM (readFile s) with
  | .ok texts => .output s ("\n".intercalate texts)
  | .error e => .failed s e

/-- `operands`: refuses to run without operands. -/
def needOperands (b : Builtin) (args : Arguments) (s : Session) (run : Outcome) : Outcome :=
  if args.operands.isEmpty then .failed s (.refused .missingOperand b.name) else run

/-- What a built-in command does, `PwdCmd` and `EchoCmd` on the spot. -/
def run (b : Builtin) (manual : Manual) (args : Arguments) (s : Session) : Outcome :=
  match b with
  | help => runHelp manual args s
  | clear => runClear s
  | ls => runLs args s
  | cd => runCd args s
  | pwd => .output s (Path.normalize s.cwd)
  | cat => needOperands cat args s (runCat args s)
  | mkdir =>
    needOperands mkdir args s
      (.ofEdit s (despiteFailures (makeDirectory s.cwd) s.tree args.operands))
  | touch =>
    needOperands touch args s (.ofEdit s (untilFailure (touchFile s.cwd) s.tree args.operands))
  | rm =>
    let recursive := args.hasFlag 'r' || args.hasFlag 'R'
    needOperands rm args s
      (.ofEdit s (untilFailure (removeNode recursive s.cwd) s.tree args.operands))
  | echo => .output s (" ".intercalate args.operands)

/-- The command that a line calls by the built-in's name. -/
def command (b : Builtin) : Command := ⟨b.manual, b.run⟩

end Builtin

end MemoryShell
