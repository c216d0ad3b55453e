import MemoryShell.Terminal

/-!
# Command line

The shell on standard input and output. The first argument, if there is one, is the path of a
configuration.
-/

namespace MemoryShell.Main

/-- Why the host could not read a file. -/
def readError : IO.Error → Host.ReadError
  | .noFileOrDirectory .. => .notFound
  | .inappropriateType _ 20 _ => .notADirectory
  | .inappropriateType _ 21 _ => .isADirectory
  | e => .other (toString e)

/-- The text of a host file. -/
def readText (path : String) : IO (Except Host.ReadError String) := do
  try
    return Host.textOf (← IO.FS.readBinFile path)
  catch e => return .error (readError e)

/-- One line of the input with its end, or nothing at the end of the input. -/
partial def readLine (stdin : IO.FS.Stream) (line : List UInt8) : IO (List UInt8) := do
  let bytes ← stdin.read 1
  match bytes.toList with
  | [b] => if b = 10 then return (b :: line).reverse else readLine stdin (b :: line)
  | _ => return line.reverse

/-- Prompts and answers until the input ends or asks to leave; the result says whether all of the
input was text. -/
partial def loop (stdin stdout : IO.FS.Stream) (t : Terminal) : IO Bool := do
  stdout.putStr t.prompt
  stdout.flush
  match ← readLine stdin [] with
  | [] =>
    stdout.putStr "\n"
    return true
  | bytes =>
    match String.fromUTF8? ⟨bytes.toArray⟩ with
    | none => return false
    | some line =>
      match t.respond line with
      | none => return true
      | some (t, reply) =>
        stdout.putStr reply.written
        loop stdin stdout t

end MemoryShell.Main

open MemoryShell in
/-- Starts a shell and runs it to the end of its input. -/
def main (args : List String) : IO UInt32 := do
  match ← Startup.load Main.readText args.head? with
  | .error e =>
    IO.eprintln ("Error: " ++ e.message)
    return 1
  | .ok startup =>
    if ← Main.loop (← IO.getStdin) (← IO.getStdout) (.start startup) then return 0
    else
      IO.eprintln ("Error: " ++ Host.ReadError.notUnicode.message)
      return 1
