import MemoryShell.ShellError
import MemoryShell.Tree.Node
import MemoryShell.Tree.Path

/-!
# Resolving paths

A path is walked name by name from the root. The walk remembers the nodes it came through, so that
`..` goes back to the node above. Headlines:

* `Walk.step`: what one name does, and when it fails;
* `resolve`: where a path leads, as a canonical path and the node there.
-/

namespace MemoryShell

/-- A walk down a tree: the node it has reached, and the ones above it up to the root. The stack of
`resolve`. -/
structure Walk where
  here : Node
  above : List Node

namespace Walk

/-- The walk that has not left the root. -/
def start (root : Node) : Walk := ⟨root, []⟩

/-- The names entered on the way from the root, the root's own left out. -/
def names (w : Walk) : List String := ((w.here :: w.above).dropLast.map Node.name).reverse

/-- `step`: one name further. A file lets nothing pass, not even `.` and `..`; the root is its own
parent; any other name enters the first child that bears it. -/
def step (w : Walk) (name : String) : Option Walk :=
  if !w.here.isDir then none
  else if name = "." then some w
  else if name = ".." then
    match w.above with
    | [] => some w
    | up :: rest => some ⟨up, rest⟩
  else (w.here.child? name).map fun c => ⟨c, w.here :: w.above⟩

/-- All the names, one after another. -/
def steps (w : Walk) (names : List String) : Option Walk := names.foldlM step w

end Walk

/-- `Resolved`: where a path leads. -/
structure Location where
  path : String
  node : Node
deriving DecidableEq

/-- The names that a path stands for, seen from a working directory. -/
def route (cwd expr : String) : List String :=
  if Path.isAbsolute expr then Path.segments expr else Path.segments cwd ++ Path.segments expr

/-- `resolve`: where `expr` leads from the working directory `cwd`. -/
def resolve (root : Node) (cwd expr : String) : Except ShellError Location :=
  match (Walk.start root).steps (route cwd expr) with
  | some w => .ok ⟨Path.ofNames w.names, w.here⟩
  | none => .error (.refused .noSuchFile expr)

/-- `resolve_mut`, to read: the node that a path without dot names leads to from the root. -/
def lookup (root : Node) (path : String) : Option Node := root.find? (Path.segments path)

/-- `resolve_mut`, to write: the tree with another node at a path without dot names, if there is a
node. -/
def replaceAt (root : Node) (path : String) (node : Node) : Node :=
  root.updateAt (fun _ => node) (Path.segments path)

end MemoryShell
