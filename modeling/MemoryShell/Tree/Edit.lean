import MemoryShell.Tree.Resolve

/-!
# Changing a tree at a path

Headlines:

* `insertAt`: a new node under an existing directory, under a free and valid name;
* `removeAt`: a node detached, unless the working directory lies in it.
-/

namespace MemoryShell

/-- A node's refusal to take a child, as a failure of the shell. -/
def Node.Taken.toError : Node.Taken → ShellError
  | .nameTaken name => .refused .fileExists name
  | .isFile name => .refused .notADirectory name

/-- The tree with a node more, and the canonical path of its place. -/
structure Insertion where
  tree : Node
  path : String
deriving DecidableEq

/-- The tree with a node less, and the node. -/
structure Removal where
  tree : Node
  removed : Node
deriving DecidableEq

/-- `insert_at`: puts the node that `make` builds for the last name of `expr` into the directory
that the rest of `expr` leads to. -/
def insertAt (root : Node) (cwd expr : String) (make : String → Node) :
    Except ShellError Insertion :=
  let (parentExpr?, leaf) := Path.splitParent (Path.dropFinalSlashes expr)
  if !Path.isValidName leaf then .error (.refused .invalidName expr)
  else
    match resolve root cwd (parentExpr?.getD ".") with
    | .error _ => .error (.refused .noSuchFile expr)
    | .ok parent =>
      if !parent.node.isDir then .error (.refused .notADirectory expr)
      else if (parent.node.child? leaf).isSome then .error (.refused .fileExists expr)
      else
        match lookup root parent.path with
        | none => .error (.refused .noSuchFile expr)
        | some dir =>
          match dir.insert (make leaf) with
          | .error taken => .error taken.toError
          | .ok dir => .ok ⟨replaceAt root parent.path dir, Path.under parent.path leaf⟩

/-- The canonical path of a working directory: where it leads, or its canonical spelling if it
leads nowhere. -/
def cwdPath (root : Node) (cwd : String) : String :=
  match resolve root cwd "." with
  | .ok here => here.path
  | .error _ => Path.normalize cwd

/-- `remove_at`: detaches the node that `expr` leads to. A directory goes only if `recursive`; the
root, the place of the working directory and what lies above it stay. -/
def removeAt (root : Node) (cwd expr : String) (recursive : Bool) : Except ShellError Removal :=
  match resolve root cwd expr with
  | .error e => .error e
  | .ok target =>
    if Path.isWithin (cwdPath root cwd) target.path then .error (.refused .busy expr)
    else if target.node.isDir && !recursive then .error (.refused .isADirectory expr)
    else
      let (parentPath?, leaf) := Path.splitParent target.path
      let parentPath := parentPath?.getD "/"
      match (lookup root parentPath).bind (·.remove? leaf) with
      | none => .error (.refused .noSuchFile expr)
      | some (removed, dir) => .ok ⟨replaceAt root parentPath dir, removed⟩

end MemoryShell
