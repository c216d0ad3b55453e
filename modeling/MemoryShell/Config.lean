import MemoryShell.Messages
import MemoryShell.Toml.Document

/-!
# Configurations

What a host can choose: the name in the prompt, the message templates, and a snapshot of the tree
to begin with. Headlines:

* `Config.ofToml?`: the fields of a TOML document, unknown ones left aside;
* `Config.parse`: the same, with a prompt name that is not blank.
-/

namespace MemoryShell

namespace Toml

/-- The text that a value is. -/
def text? : Toml → Option String
  | text s => some s
  | _ => none

/-- The record that a value is. An array tells the fields by place, and more items than fields do
not matter; a moment is a record without a known field. -/
def record? : Toml → Option (Record Toml)
  | table _ members => some (.ofMembers members)
  | array items => some (.ofItems items)
  | tables elements => some (.ofItems (elements.map (table .declared)))
  | scalar .moment => some (.ofMembers [])
  | _ => none

end Toml

/-- `ShellConfig`: what a host can choose. -/
structure Config where
  promptName : String
  messages : Messages
  structurePath : Option String

namespace Config

/-- `default_prefix`: the prompt name of a shell that was given none. -/
def standardPromptName : String := "hacker@default"

/-- The choices of a host that makes none. -/
def standard : Config := ⟨standardPromptName, .standard, none⟩

instance : Inhabited Config := ⟨standard⟩

/-- The prompt name that a record gives. -/
def promptName? (v : Toml) : Option String := do
  let record ← v.record?
  (record "prefix" 0).getD? Toml.text? standardPromptName

/-- The configuration in the members of a document. -/
def ofToml? (members : Toml.Members) : Option Config := do
  let record := Record.ofMembers members
  return {
    promptName := ← (record "prompt" 0).getD? promptName? standardPromptName
    messages :=
      ← (record "messages" 1).getD? (·.record?.bind (Messages.ofRecord? Toml.text?)) .standard
    structurePath := ← (record "structure" 2).getD? (·.text?.map some) none }

/-- `from_toml_str`: the configuration that a text describes. -/
def parse (text : String) : Except ShellError Config :=
  match (Toml.parse? text).bind ofToml? with
  | none => .error .toml
  | some config =>
    if Text.isBlankText config.promptName then
      .error (.config "prompt.prefix must not be empty")
    else .ok config

end Config

end MemoryShell
