import MemoryShell.Builtin
import MemoryShell.OrderedMap

/-!
# The commands of a shell

A registry knows one command for each name, the one registered last. Headlines:

* `Registry.get?_register`, `Registry.get?_extend_eq`: what registrations change;
* `Registry.manual`: the names in order, with what the manual says of them.
-/

namespace MemoryShell

/-- `CommandRegistry`: the commands of a shell by name. -/
structure Registry where
  commands : OrderedMap String Command

namespace Registry

/-- `new`: no commands. -/
def empty : Registry := ⟨.empty⟩

instance : Inhabited Registry := ⟨empty⟩

/-- `register`: one command more, in place of an earlier one of its name. -/
def register (r : Registry) (c : Command) : Registry := ⟨r.commands.insert c.name c⟩

/-- `extend`: several commands more, of which a later one replaces an earlier. -/
def extend (r : Registry) (cs : List Command) : Registry := cs.foldl register r

/-- `with_builtins`: the registry with the built-in commands. -/
def builtins : Registry := empty.extend (Builtin.all.map Builtin.command)

/-- `get`: the command of a name. -/
def get? (r : Registry) (name : String) : Option Command := r.commands.get? name

/-- `contains`: whether a name has a command. -/
def contains (r : Registry) (name : String) : Bool := r.commands.contains name

/-- `names`: the names, in order. -/
def names (r : Registry) : List String := r.commands.keys

/-- `list_commands`: what the manual says of the commands, in the order of their names. -/
def manual (r : Registry) : Manual := r.commands.entries.map (·.2.toManualEntry)

/-- `completions`: the names that begin with a text, in order. -/
def completions (r : Registry) (start : String) : List String :=
  r.names.filter (·.startsWith start)

theorem get?_register (r : Registry) (c : Command) (name : String) :
    (r.register c).get? name = if c.name = name then some c else r.get? name :=
  OrderedMap.get?_insert _ _ _ _

/-- The last of some commands that has a name. -/
def lastNamed? (cs : List Command) (name : String) : Option Command :=
  cs.findRev? fun c => c.name == name

theorem of_lastNamed? {cs : List Command} {name : String} {c : Command}
    (h : lastNamed? cs name = some c) : c ∈ cs ∧ c.name = name := by
  rw [lastNamed?, List.findRev?_eq_find?_reverse] at h
  exact ⟨List.mem_reverse.mp (List.mem_of_find?_eq_some h), by simpa using List.find?_some h⟩

theorem exists_lastNamed?_iff {cs : List Command} {name : String} :
    (∃ c, lastNamed? cs name = some c) ↔ ∃ c ∈ cs, c.name = name := by
  constructor
  · rintro ⟨c, hc⟩
    exact ⟨c, of_lastNamed? hc⟩
  · rintro ⟨c, hmem, hname⟩
    rw [← Option.isSome_iff_exists, lastNamed?, List.findRev?_eq_find?_reverse, List.find?_isSome]
    exact ⟨c, List.mem_reverse.mpr hmem, by simp [hname]⟩

theorem get?_extend_eq (r : Registry) (cs : List Command) (name : String) :
    (r.extend cs).get? name = (lastNamed? cs name).or (r.get? name) := by
  induction cs generalizing r with
  | nil => rfl
  | cons c cs ih =>
    refine (ih (r.register c)).trans ?_
    rw [get?_register, lastNamed?, lastNamed?, List.findRev?]
    cases List.findRev? (fun c => c.name == name) cs with
    | some d => rfl
    | none => by_cases h : c.name = name <;> simp [h]

end Registry

end MemoryShell
