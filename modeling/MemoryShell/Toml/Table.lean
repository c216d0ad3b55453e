import MemoryShell.Toml.Scalar

/-!
# Tables of TOML

A document builds its tables from scattered lines, so each table remembers how it came to be: that
decides what may still be added to it. Headlines:

* `Origin`: the four ways in which a table comes to be;
* `assign?`: a value under a dotted key;
* `openTable?`, `openElement?`: the headers.
-/

namespace MemoryShell

/-- How a table came to be. -/
inductive Toml.Origin
  /-- Written between braces: complete as it stands. -/
  | inline
  /-- Opened by a header of its own. -/
  | declared
  /-- Passed through by the header of another table. -/
  | implied
  /-- Passed through by a dotted key. -/
  | dotted
deriving DecidableEq, Repr, Inhabited

/-- A value of TOML. -/
inductive Toml
  | scalar (value : Toml.Scalar)
  | text (value : String)
  | array (items : List Toml)
  | table (origin : Toml.Origin) (members : List (String × Toml))
  /-- The tables opened by the headers of one list, in order. -/
  | tables (elements : List (List (String × Toml)))
deriving Repr, Inhabited

namespace Toml

/-- The keys of a table with their values. -/
abbrev Members := List (String × Toml)

/-- The value of a key. -/
def member? (key : String) (ms : Members) : Option Toml := (ms.find? fun m => m.1 == key).map (·.2)

/-- The members with another value for a key, or with a key more. -/
def setMember (key : String) (v : Toml) : Members → Members
  | [] => [(key, v)]
  | m :: ms => if m.1 == key then (key, v) :: ms else m :: setMember key v ms

/-- Whether a table of this origin may be passed through. A dotted key may not lead into a table
that has a header, and nothing leads into one between braces. -/
def Origin.admits (origin : Origin) (isDotted : Bool) : Bool :=
  match origin with
  | inline => false
  | declared => !isDotted
  | implied | dotted => true

/-- The members with a change made in the table that a path leads to. Tables missing on the way
are made; from a list of tables the path goes on in the last. `isDotted` tells a dotted key from
a header. -/
def editAt? (isDotted : Bool) (edit : Origin → Members → Option Members) :
    (path : List String) → Origin → Members → Option Members
  | [], origin, ms => edit origin ms
  | key :: path, _, ms =>
    match member? key ms with
    | none => do
      let origin := if isDotted then Origin.dotted else Origin.implied
      return setMember key (.table origin (← editAt? isDotted edit path origin [])) ms
    | some (.table origin inner) =>
      if origin.admits isDotted then do
        return setMember key (.table origin (← editAt? isDotted edit path origin inner)) ms
      else none
    | some (.tables elements) => do
      let last ← elements.getLast?
      let last ← editAt? isDotted edit path .declared last
      return setMember key (.tables (elements.dropLast ++ [last])) ms
    | some _ => none

/-- The members with a value under a dotted key. The name must be free, and the table that holds
it must have come to be by dotted keys alone. -/
def assign? (path : List String) (name : String) (v : Toml) (ms : Members) : Option Members :=
  editAt? true (fun origin ms =>
    if (path.isEmpty || origin == .dotted) && (member? name ms).isNone then
      some (ms ++ [(name, v)])
    else none) path .declared ms

/-- The members with a table opened by its header, which must be its first. -/
def openTable? (path : List String) (name : String) (ms : Members) : Option Members :=
  editAt? false (fun _ ms =>
    match member? name ms with
    | none => some (ms ++ [(name, .table .declared [])])
    | some (.table .implied inner) => some (setMember name (.table .declared inner) ms)
    | some _ => none) path .declared ms

/-- The members with one table more in a list of tables. -/
def openElement? (path : List String) (name : String) (ms : Members) : Option Members :=
  editAt? false (fun _ ms =>
    match member? name ms with
    | none => some (ms ++ [(name, .tables [[]])])
    | some (.tables elements) => some (setMember name (.tables (elements ++ [[]])) ms)
    | some _ => none) path .declared ms

/-- The table between braces that a list of assignments fills. -/
def inlineTable? (assignments : List ((List String × String) × Toml)) : Option Toml :=
  (assignments.foldlM (fun ms a => assign? a.1.1 a.1.2 a.2 ms) []).map (.table .inline)

end Toml

end MemoryShell
