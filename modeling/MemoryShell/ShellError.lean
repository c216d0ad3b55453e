/-!
# Failures

Why a request could not be met. A command refuses for one of eight faults and names the text at
fault; the other failures belong to starting up and name no such text.
-/

namespace MemoryShell

/-- The faults a command can find with a request. -/
inductive Fault
  | commandNotFound
  | noSuchFile
  | notADirectory
  | isADirectory
  | fileExists
  | missingOperand
  | invalidName
  | busy
deriving DecidableEq, Repr, Inhabited

namespace Fault

/-- The faults in the order in which a list of message templates gives them. -/
def all : List Fault :=
  [commandNotFound, noSuchFile, notADirectory, isADirectory, fileExists, missingOperand,
    invalidName, busy]

/-- What the fault says of its token. -/
def label : Fault → String
  | commandNotFound => "command not found"
  | noSuchFile => "no such file or directory"
  | notADirectory => "not a directory"
  | isADirectory => "is a directory"
  | fileExists => "file exists"
  | missingOperand => "missing operand"
  | invalidName => "invalid name"
  | busy => "device or resource busy"

/-- The key of the fault's message template in a configuration. -/
def key : Fault → String
  | commandNotFound => "command_not_found"
  | noSuchFile => "no_such_file"
  | notADirectory => "not_a_directory"
  | isADirectory => "is_a_directory"
  | fileExists => "file_exists"
  | missingOperand => "missing_operand"
  | invalidName => "invalid_name"
  | busy => "busy"

end Fault

/-- `ReefError`: why an operation failed. -/
inductive ShellError
  /-- A command refused: `token` is the name, operand or path at fault, as typed. -/
  | refused (fault : Fault) (token : String)
  /-- The configuration holds a value it may not hold. -/
  | config (reason : String)
  /-- A file outside the shell could not be read. -/
  | io (reason : String)
  /-- A configuration text is not valid TOML, or a value in it has the wrong type. -/
  | toml
  /-- A snapshot text is not valid JSON, or does not describe what it should. -/
  | json
deriving DecidableEq, Repr, Inhabited

namespace ShellError

/-- The failure in words. -/
def message : ShellError → String
  | refused fault token => fault.label ++ ": " ++ token
  | config reason => "config error: " ++ reason
  | io reason => "I/O error: " ++ reason
  | toml => "TOML parse error"
  | json => "JSON error"

/-- `token`: the text at fault, where there is one. -/
def token? : ShellError → Option String
  | refused _ token => some token
  | _ => none

end ShellError

end MemoryShell
