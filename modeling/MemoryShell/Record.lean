/-!
# Records

A record is a handful of named fields. It is told either by name, in any order, or by place, in
the fixed order of its fields. Headlines:

* `Record.ofMembers`: fields by name, where none may be given twice;
* `Record.ofItems?`: fields by place, where there may not be more than the record has.
-/

namespace MemoryShell

/-- What is said about one field. -/
inductive FieldValue (α : Type)
  | missing
  | given (value : α)
  | repeated

namespace FieldValue

variable {α β : Type}

/-- The value of a field that must be there. -/
def required? (read : α → Option β) : FieldValue α → Option β
  | given v => read v
  | _ => none

/-- The value of a field that has a default. -/
def getD? (read : α → Option β) (default : β) : FieldValue α → Option β
  | missing => some default
  | given v => read v
  | repeated => none

/-- The field given once more, which is once too often unless it was missing. -/
def again (field : FieldValue α) (value : α) : FieldValue α :=
  match field with
  | missing => given value
  | _ => repeated

end FieldValue

/-- What is said about each field, known by its name and by its place. -/
abbrev Record (α : Type) := (key : String) → (place : Nat) → FieldValue α

namespace Record

variable {α : Type}

/-- A record told by name; names that are not asked for do not matter. -/
def ofMembers (members : List (String × α)) : Record α := fun key _ =>
  match members.filter fun m => m.1 == key with
  | [] => .missing
  | [m] => .given m.2
  | _ => .repeated

/-- A record told by place, however many items there are. -/
def ofItems (items : List α) : Record α := fun _ place =>
  match items[place]? with
  | some v => .given v
  | none => .missing

/-- A record of `size` fields told by place. -/
def ofItems? (size : Nat) (items : List α) : Option (Record α) :=
  if items.length ≤ size then some (ofItems items) else none

end Record

end MemoryShell
