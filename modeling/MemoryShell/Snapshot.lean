import MemoryShell.Json.Doc
import MemoryShell.Json.Printer
import MemoryShell.Messages
import MemoryShell.Record
import MemoryShell.Session

/-!
# Snapshots

Sessions and trees as JSON texts. A record is written as an object with its fields in a fixed
order; it is read from an object with the fields in any order, unknown ones left aside, or from an
array of the fields in their fixed order. Headlines:

* `Node.ofJson?`, `Node.toJson`: trees, told apart by the field `type`;
* `Session.ofDoc?`, `Session.toJson`: sessions;
* `Session.parse`, `Session.text`: the same on texts.
-/

namespace MemoryShell

/-! ## Trees -/

/-- The text that a value is. -/
def Json.string? : Json → Option String
  | .string s => some s
  | _ => none

namespace Node

/-- The two kinds of node. -/
inductive Kind
  | directory
  | file
deriving DecidableEq, Repr

/-- The kind that a value names. Inside a tree a kind may also be given by its number. -/
def kind? (inside : Bool) : Json → Option Kind
  | .string "directory" => some .directory
  | .string "file" => some .file
  | .number (.integer 0) => if inside then some .directory else none
  | .number (.integer 1) => if inside then some .file else none
  | _ => none

/-- What the members of an object say about a node. The children are read in passing, whether the
node turns out to have any or not. -/
structure Fields where
  kind : FieldValue Json
  name : FieldValue Json
  children : FieldValue (Option (List Node))
  content : FieldValue Json

/-- The node that fields describe. What belongs to the other kind is not looked at. -/
def ofFields? (inside : Bool) (f : Fields) : Option Node := do
  match ← f.kind.required? (kind? inside) with
  | .directory =>
    return .directory (← f.name.required? Json.string?) (← f.children.getD? id [])
  | .file => return .file (← f.name.required? Json.string?) (← f.content.getD? Json.string? "")

mutual

/-- The node that a value describes; `inside` says whether it is a child of another. -/
def ofJson? (inside : Bool) : Json → Option Node
  | .object members => ofFields? inside (fields members)
  | .array [kind, name] =>
    ofFields? inside ⟨.given kind, .given name, .missing, .missing⟩
  | .array [kind, name, last] =>
    ofFields? inside ⟨.given kind, .given name, .given (childrenOf? last), .given last⟩
  | _ => none

/-- The children that a value lists. -/
def childrenOf? : Json → Option (List Node)
  | .array items => ofItems? items
  | _ => none

/-- The nodes that values describe, one each. -/
def ofItems? : List Json → Option (List Node)
  | [] => some []
  | v :: vs => do return (← ofJson? true v) :: (← ofItems? vs)

/-- What members say about a node. -/
def fields : List (String × Json) → Fields
  | [] => ⟨.missing, .missing, .missing, .missing⟩
  | (key, v) :: ms =>
    let f := fields ms
    match key with
    | "type" => { f with kind := f.kind.again v }
    | "name" => { f with name := f.name.again v }
    | "children" => { f with children := f.children.again (childrenOf? v) }
    | "content" => { f with content := f.content.again v }
    | _ => f

end

mutual

/-- The value that describes a node. -/
def toJson : Node → Json
  | directory name children =>
    .object [("type", .string "directory"), ("name", .string name),
      ("children", .array (itemsToJson children))]
  | file name content =>
    .object [("type", .string "file"), ("name", .string name), ("content", .string content)]

/-- The values that describe nodes. -/
def itemsToJson : List Node → List Json
  | [] => []
  | t :: ts => t.toJson :: itemsToJson ts

end

/-- The node that a document describes, all of which must have a value. -/
def ofDoc? (depth : Nat) (doc : Doc) : Option Node := (doc.value? depth).bind (ofJson? false)

/-- The tree that a text describes. -/
def parse (text : String) : Except ShellError Node :=
  match (Doc.parse? text).bind (ofDoc? Doc.depthLimit) with
  | some t => .ok t
  | none => .error .json

end Node

/-! ## Records read from documents -/

namespace Doc

/-- The text that a document is. -/
def text? : Doc → Option String
  | string s? => s?
  | _ => none

/-- The text that a document is, or nothing where it is null. -/
def optionalText? : Doc → Option (Option String)
  | null => some none
  | d => d.text?.map some

/-- The documents in an array. -/
def items? : Doc → Option (List Doc)
  | array items => some items
  | _ => none

/-- Members of an object whose keys are all texts. -/
def textKeys? (members : List (Option String × Doc)) : Option (List (String × Doc)) :=
  members.mapM fun (key?, d) => do return (← key?, d)

/-- The record of `size` fields that a document is. All keys of an object must be texts, but an
unknown member may be of any kind and given any number of times. -/
def record? (size : Nat) : Doc → Option (Record Doc)
  | array items => Record.ofItems? size items
  | object members => (textKeys? members).map Record.ofMembers
  | _ => none

end Doc

/-! ## Transcript entries -/

namespace Entry

/-- The entry that a document describes: an echo where it has a directory. -/
def ofDoc? (doc : Doc) : Option Entry := do
  let field ← doc.record? 2
  let value ← (field "value" 0).required? Doc.text?
  match ← (field "cwd" 1).getD? Doc.optionalText? none with
  | some cwd => return .echo value cwd
  | none => return .output value

/-- The value that describes an entry. -/
def toJson : Entry → Json
  | echo line cwd => .object [("value", .string line), ("cwd", .string cwd)]
  | output text => .object [("value", .string text)]

end Entry

/-! ## Sessions -/

namespace Session

/-- The session that a document describes. Bracket depth counts from the outermost bracket, and
only in what is read: a part that is left aside may be of any depth. -/
def ofDoc? (doc : Doc) : Option Session := do
  let inner := Doc.depthLimit - 1
  let field ← doc.record? 4
  let history ← (field "history" 0).getD? (fun d => d.items?.bind (·.mapM Entry.ofDoc?)) []
  let tree ← (field "structure" 1).getD? (Node.ofDoc? inner) .root
  let cwd ← (field "cwd" 2).getD? Doc.text? "/"
  let settings ← (field "settings" 3).getD? (·.value? inner) .null
  return ⟨history, tree, cwd, .ofJson settings⟩

/-- The value that describes a session. -/
def toJson (s : Session) : Json :=
  .object [("history", .array (s.history.map Entry.toJson)), ("structure", s.tree.toJson),
    ("cwd", .string s.cwd), ("settings", s.settings.value)]

/-- `from_json`: the session that a text describes. -/
def parse (text : String) : Except ShellError Session :=
  match (Doc.parse? text).bind ofDoc? with
  | some s => .ok s
  | none => .error .json

/-- `to_json`: the text that describes a session. -/
def text (s : Session) : String := s.toJson.pretty

end Session

/-! ## Message templates -/

/-- The templates that a value describes; those left out are the standard ones. -/
def Messages.ofJson? : Json → Option Messages
  | .array items => (Record.ofItems? Fault.all.length items).bind (ofRecord? Json.string?)
  | .object members => ofRecord? Json.string? (.ofMembers members)
  | _ => none

end MemoryShell
