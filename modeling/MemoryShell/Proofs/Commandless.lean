import MemoryShell.Proofs.Chaining
import MemoryShell.Proofs.Tokens

/-!
# Lines without commands

Blank pieces of a line are dropped, the other ones begin with the name of a command. So a name is
missing only where the whole line has no command, and then there is nothing to execute. Headlines:

* `Text.trim_eq_empty_iff`, `Invocation.name_ofChunk_eq_empty_iff`: three ways to be blank agree;
* `Line.groups_eq_nil_iff`: when a line has no command;
* `Line.beginsWithName_of_mem_parse`: every command has a name otherwise;
* `Line.only_commandless_lines_are_silent`: parsing and executing put together.
-/

namespace MemoryShell

/-! ## Blank texts -/

theorem Text.trim_eq_empty_iff {s : String} : trim s = "" ↔ isBlankText s = true := by
  unfold trim isBlankText
  rw [String.ofList_eq_empty_iff, List.reverse_eq_nil_iff, List.dropWhile_eq_nil_iff,
    List.all_eq_true]
  constructor
  · intro h
    have hnil : s.toList.dropWhile isBlank = [] := by
      refine List.eq_nil_iff_forall_not_mem.mpr fun c hc => ?_
      obtain ⟨d, ds, hds⟩ := List.exists_cons_of_ne_nil (List.ne_nil_of_mem hc)
      have hd := h d (by simp [hds])
      have hnot := List.head?_dropWhile_not isBlank s.toList
      rw [hds] at hnot
      simp [hd] at hnot
    exact List.dropWhile_eq_nil_iff.mp hnil
  · intro h c hc
    exact h c ((List.dropWhile_suffix _).mem (List.mem_reverse.mp hc))

namespace Invocation

/-- What a command is read from has nothing but blanks in front of its name, and the name is a word
that ends there. -/
def BeginsWithName (inv : Invocation) : Prop :=
  Text.IsWord inv.name ∧ ∃ front behind, inv.input = front ++ inv.name ++ behind ∧
    Text.isBlankText front = true ∧ Text.BreaksOff behind

theorem beginsWithName_ofChunk {chunk : String} (h : Text.isBlankText chunk = false) :
    (ofChunk chunk).BeginsWithName := by
  obtain ⟨front, name, behind, rfl, hfront, hname, hbehind⟩ := Text.exists_first_word h
  have hwords : Text.words (front ++ name ++ behind) = name :: Text.words behind := by
    rw [String.append_assoc, Text.words_blank_append hfront, Text.words_append _ hbehind,
      Text.words_of_isWord hname]
    rfl
  have hfirst : (ofChunk (front ++ name ++ behind)).name = name := by
    rw [name_ofChunk, hwords]
    rfl
  rw [BeginsWithName, hfirst, input_ofChunk]
  exact ⟨hname, front, behind, rfl, hfront, hbehind⟩

/-- **A command has no name exactly if trimming leaves nothing of the text it is read from.** -/
theorem name_ofChunk_eq_empty_iff {chunk : String} :
    (ofChunk chunk).name = "" ↔ Text.trim chunk = "" := by
  rw [Text.trim_eq_empty_iff]
  constructor
  · intro hname
    by_contra hblank
    exact (beginsWithName_ofChunk (Bool.eq_false_iff.mpr hblank)).1.1 hname
  · intro hblank
    rw [name_ofChunk, (Text.words_eq_nil_iff chunk).mpr hblank]
    rfl

end Invocation

namespace Line

/-! ## Lines -/

/-- The pieces of a line between `;` and `&&`. -/
def pieces (line : String) : List (List Char) :=
  (line.toList.splitOn ';').flatMap (Text.splitOnPair '&' '&')

theorem chunks_eq_nil_iff {group : List Char} :
    chunks group = [] ↔
      ∀ piece ∈ Text.splitOnPair '&' '&' group, ∀ c ∈ piece, Text.isBlank c = true := by
  simp [chunks, Text.isBlankText]

/-- **A line has no command exactly if nothing but blanks stands between its separators.** -/
theorem groups_eq_nil_iff {line : String} :
    groups line = [] ↔ ∀ piece ∈ pieces line, ∀ c ∈ piece, Text.isBlank c = true := by
  simp only [groups, pieces, List.filter_eq_nil_iff, List.mem_map, List.mem_flatMap]
  constructor
  · rintro h piece ⟨group, hgroup, hpiece⟩
    have hnil : chunks group = [] := by simpa using h _ ⟨group, hgroup, rfl⟩
    exact chunks_eq_nil_iff.mp hnil piece hpiece
  · rintro h _ ⟨group, hgroup, rfl⟩
    have hnil : chunks group = [] :=
      chunks_eq_nil_iff.mpr fun piece hpiece => h piece ⟨group, hgroup, hpiece⟩
    simp [hnil]

/-- In a line with a command, every command begins with its name. -/
theorem beginsWithName_of_mem_parse {line : String} (h : groups line ≠ []) :
    ∀ g ∈ parse line, ∀ inv ∈ g, inv.BeginsWithName := by
  rw [parse_of_groups h]
  intro g hg inv hinv
  obtain ⟨chunks, hchunks, rfl⟩ := List.mem_map.mp hg
  obtain ⟨chunk, hchunk, rfl⟩ := List.mem_map.mp hinv
  exact Invocation.beginsWithName_ofChunk ((joinable_of_mem_groups hchunks).not_blank chunk hchunk)

theorem parse_eq_blank_iff {line : String} : parse line = [[.blank line]] ↔ groups line = [] := by
  constructor
  · intro hparse
    by_contra hgroups
    have hname := beginsWithName_of_mem_parse hgroups [.blank line] (by simp [hparse])
      (.blank line) List.mem_cons_self
    exact hname.1.1 rfl
  · intro hgroups
    rw [parse, hgroups]

/-- **Only lines without commands are silent.** A line always has a group, and a group a command.
Every command is named by the first word of the text it is read from, unless the line is read as the
one blank command with the whole line as its text. This happens exactly if the pieces between
semicolons and double ampersands are blank, and then to execute the line, with any commands
registered, is to log it. It does not matter whether a piece is found blank by trimming it, by the
words in it, or by the name that is read from it. -/
theorem only_commandless_lines_are_silent (line : String) :
    (parse line ≠ [] ∧ ∀ g ∈ parse line, g ≠ []) ∧
    ((∀ g ∈ parse line, ∀ inv ∈ g, inv.BeginsWithName) ∨ parse line = [[.blank line]]) ∧
    (parse line = [[.blank line]] ↔
      ∀ piece ∈ pieces line, ∀ c ∈ piece, Text.isBlank c = true) ∧
    (parse line = [[.blank line]] → ∀ (r : Registry) (messages : Messages) (s : Session),
      r.execute messages line s = s.log (.echo line s.cwd)) ∧
    ∀ chunk, (Text.trim chunk = "" ↔ Text.words chunk = []) ∧
      (Text.trim chunk = "" ↔ (Invocation.ofChunk chunk).name = "") := by
  refine ⟨⟨parse_ne_nil line, fun g => ne_nil_of_mem_parse⟩, ?_, ?_, fun hparse r messages s => ?_,
    fun chunk => ⟨?_, Invocation.name_ofChunk_eq_empty_iff.symm⟩⟩
  · by_cases hgroups : groups line = []
    · exact .inr (parse_eq_blank_iff.mpr hgroups)
    · exact .inl (beginsWithName_of_mem_parse hgroups)
  · rw [parse_eq_blank_iff, groups_eq_nil_iff]
  · rw [r.execute_eq_runGroups, commands, parse_eq_blank_iff.mp hparse]
    rfl
  · rw [Text.trim_eq_empty_iff, Text.words_eq_nil_iff]

/-- Blanks beyond ASCII are blanks, and the command without a name is not called, whatever stands
for the empty name. -/
theorem only_commandless_lines_are_silent_unnamed :
    let line := "  ; && \u3000;;&&"
    let unnamed : Command := ⟨⟨"", "", ""⟩, fun _ _ s => .output s "called"⟩
    parse line = [[.blank line]] ∧ (Registry.builtins.register unnamed).contains "" = true ∧
    (∀ piece ∈ pieces line, ∀ c ∈ piece, Text.isBlank c = true) ∧
    (Registry.builtins.register unnamed).execute .standard line .fresh =
      Session.fresh.log (.echo line "/") := by
  intro line unnamed
  have hparse : parse line = [[.blank line]] := by decide +kernel
  obtain ⟨-, -, hblank, hsilent, -⟩ := only_commandless_lines_are_silent line
  exact ⟨hparse, by decide +kernel, hblank.mp hparse, hsilent hparse _ .standard .fresh⟩

end Line

end MemoryShell
