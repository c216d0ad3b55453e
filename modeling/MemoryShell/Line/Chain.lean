import MemoryShell.Line.Invocation

/-!
# Command lines

A line is cut at `;` into groups, and a group at `&&` into the commands of a chain. Headline:

* `parse_ne_nil`, `ne_nil_of_mem_parse`: a line always has a group and a group always a command,
  since a line without commands stands for the blank one.
-/

namespace MemoryShell.Line

/-- The texts of a group's commands: what stands between `&&`, without the blank pieces. -/
def chunks (group : List Char) : List String :=
  ((Text.splitOnPair '&' '&' group).map String.ofList).filter fun c => !Text.isBlankText c

/-- The groups of a line that hold a command, each as the texts of its commands. -/
def groups (line : String) : List (List String) :=
  ((line.toList.splitOn ';').map chunks).filter fun g => !g.isEmpty

/-- `parse`: the commands of a line, group by group. -/
def parse (line : String) : List (List Invocation) :=
  match groups line with
  | [] => [[.blank line]]
  | gs => gs.map (·.map .ofChunk)

theorem parse_ne_nil (line : String) : parse line ≠ [] := by
  unfold parse; split <;> simp_all

theorem ne_nil_of_mem_groups {line : String} {g : List String} (h : g ∈ groups line) : g ≠ [] := by
  rintro rfl; simp [groups] at h

theorem ne_nil_of_mem_parse {line : String} {g : List Invocation} (h : g ∈ parse line) :
    g ≠ [] := by
  unfold parse at h
  split at h
  · simp only [List.mem_singleton] at h
    simp [h]
  · obtain ⟨cs, hcs, rfl⟩ := List.mem_map.1 h
    simpa using ne_nil_of_mem_groups hcs

end MemoryShell.Line
