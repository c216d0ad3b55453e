import MemoryShell.Shell
import MemoryShell.Startup

/-!
# Terminals

A shell on a screen: prompts, lines typed after them, and what the shell shows. Headlines:

* `Terminal.respond`: what a line brings to the screen;
* `Terminal.run`: all that is written for a given input.
-/

namespace MemoryShell

/-- A shell on a screen. -/
structure Terminal where
  promptName : String
  shell : Shell
  session : Session

/-- What is written after a line: whether the screen is cleared first, and the text. -/
structure Reply where
  clears : Bool
  text : String
deriving DecidableEq, Repr, Inhabited

namespace Reply

/-- `CLEAR_SCREEN`: the control sequence that clears the screen and goes to its upper left
corner. -/
def clearScreen : String := "\x1b[2J\x1b[H"

/-- The characters written. -/
def written (r : Reply) : String := (if r.clears then clearScreen else "") ++ r.text

end Reply

namespace Terminal

/-- The terminal of a shell that has just started. -/
def start (s : Startup) : Terminal :=
  ⟨s.config.promptName, .ofMessages s.config.messages, .ofTree s.tree⟩

/-- The prompt and the blank behind it. -/
def prompt (t : Terminal) : String := t.session.prompt t.promptName ++ " "

/-- A line without the characters that end it. -/
def dropLineEnd (line : String) : String :=
  String.ofList
    (line.toList.reverse.dropWhile fun c => c == '\n' || c == '\r').reverse

/-- A submitted line: the shell executes it, and what is new in the transcript is shown below the
line. If the line is no longer in the transcript where it was put, the transcript has been emptied
on the way, and all of it is shown on a clear screen. -/
def submit (t : Terminal) (line : String) : Terminal × Reply :=
  let (shell, session) := t.shell.execute line t.session
  let news := session.history.drop t.session.history.length
  let reply := match news with
    | .echo typed _ :: shown =>
      if typed = line then ⟨false, transcriptText t.promptName shown⟩
      else ⟨true, transcriptText t.promptName session.history⟩
    | _ => ⟨true, transcriptText t.promptName session.history⟩
  ({ t with shell, session }, reply)

/-- A line that ends in a tab asks for its completion, which is shown if there is one. -/
def propose (t : Terminal) (typed : String) : Reply :=
  match t.shell.complete typed t.session with
  | some line => ⟨false, line ++ "\n"⟩
  | none => ⟨false, ""⟩

/-- What a line brings to the screen; none if it asks to leave. -/
def respond (t : Terminal) (input : String) : Option (Terminal × Reply) :=
  let line := dropLineEnd input
  if line.endsWith "\t" then some (t, t.propose (String.ofList line.toList.dropLast))
  else if Text.trim line = "exit" then none
  else some (t.submit line)

/-- What is written for a given input, and whether the input is read to its end: an input that is
not UTF-8 breaks off where the faulty line is read. -/
structure Run where
  output : String
  isComplete : Bool
deriving DecidableEq, Repr, Inhabited

/-- A run after something has been written. -/
def Run.after (written : String) (r : Run) : Run := { r with output := written ++ r.output }

/-- The lines of an input, each with its end. -/
def inputLines : List UInt8 → List (List UInt8)
  | [] => []
  | b :: bs =>
    if b = 10 then [b] :: inputLines bs
    else
      match inputLines bs with
      | [] => [[b]]
      | line :: lines => (b :: line) :: lines

/-- The loop of `main`: the run over the lines of an input. A prompt stands before each line, and a
line end behind the prompt that is not answered. -/
def runLines (t : Terminal) : List (List UInt8) → Run
  | [] => ⟨t.prompt ++ "\n", true⟩
  | line :: lines =>
    match String.fromUTF8? ⟨line.toArray⟩ with
    | none => ⟨t.prompt, false⟩
    | some line =>
      match t.respond line with
      | none => ⟨t.prompt, true⟩
      | some (t', reply) => (runLines t' lines).after (t.prompt ++ reply.written)

/-- The run over an input. -/
def run (t : Terminal) (input : List UInt8) : Run := t.runLines (inputLines input)

end Terminal

end MemoryShell
