import MemoryShell.Line.Chain
import MemoryShell.Proofs.Marks
import MemoryShell.Proofs.Paths

/-!
# Lines put together

What a line is cut into, told for lines that were put together from parts. Headlines:

* `Line.groups_append`: the groups of two lines with `;` between them;
* `Line.groups_join`: the one group of texts with `&&` between them;
* `Line.joinable_of_mem_groups`: what a line is cut into can be put together again;
* `Line.parsing_undoes_joining`: and then gives the same commands.
-/

namespace MemoryShell.Line

/-! ## Semicolons -/

/-- **Two lines with `;` between them have the groups of both.** -/
theorem groups_append (l₁ l₂ : String) : groups (l₁ ++ ";" ++ l₂) = groups l₁ ++ groups l₂ := by
  have hlist : (l₁ ++ ";" ++ l₂).toList = l₁.toList ++ ';' :: l₂.toList := by simp
  rw [groups, hlist, List.splitOn_append_cons_self, List.map_append, List.filter_append]
  rfl

/-- Lines put together with `;` between them have the groups of all of them. -/
theorem groups_intercalate {lines : List String} (hne : lines ≠ [])
    (h : ∀ l ∈ lines, ';' ∉ l.toList) :
    groups (";".intercalate lines) =
      (lines.map fun l => chunks l.toList).filter fun g => !g.isEmpty := by
  have hsplit : (";".intercalate lines).toList.splitOn ';' = lines.map String.toList := by
    rw [String.toList_intercalate]
    refine List.splitOn_intercalate ';' ?_ (by simpa using hne)
    simpa using h
  rw [groups, hsplit, List.map_map]
  rfl

theorem parse_of_groups {line : String} (h : groups line ≠ []) :
    parse line = (groups line).map (·.map .ofChunk) := by
  rw [parse]
  split
  · rename_i he
    exact absurd he h
  · rfl

/-- The commands of a line, group by group, without the blank one. -/
def commands (line : String) : List (List Invocation) := (groups line).map (·.map .ofChunk)

theorem commands_append (l₁ l₂ : String) :
    commands (l₁ ++ ";" ++ l₂) = commands l₁ ++ commands l₂ := by
  rw [commands, groups_append, List.map_append]
  rfl

/-! ## Double ampersands -/

/-- Texts that keep their ends when they are put together with `&&`: each is the text of a
command, and none but the last ends in the character that the mark begins with. -/
structure Joinable (texts : List String) : Prop where
  ne_nil : texts ≠ []
  not_blank : ∀ c ∈ texts, Text.isBlankText c = false
  no_semicolon : ∀ c ∈ texts, ';' ∉ c.toList
  no_mark : ∀ c ∈ texts, ¬ ['&', '&'] <:+: c.toList
  no_open_end : ∀ c ∈ texts.dropLast, c.toList.getLast? ≠ some '&'

instance (texts : List String) : Decidable (Joinable texts) :=
  decidable_of_iff
    (texts ≠ [] ∧ (∀ c ∈ texts, Text.isBlankText c = false) ∧ (∀ c ∈ texts, ';' ∉ c.toList) ∧
      (∀ c ∈ texts, ¬ ['&', '&'] <:+: c.toList) ∧
      ∀ c ∈ texts.dropLast, c.toList.getLast? ≠ some '&')
    ⟨fun ⟨hne, hb, hs, hm, ho⟩ => ⟨hne, hb, hs, hm, ho⟩,
      fun ⟨hne, hb, hs, hm, ho⟩ => ⟨hne, hb, hs, hm, ho⟩⟩

/-- Texts up to some place keep their ends as well. -/
theorem Joinable.upTo {done rest : List String} {text : String}
    (h : Joinable (done ++ text :: rest)) : Joinable (done ++ [text]) := by
  have hsub : ∀ c ∈ done ++ [text], c ∈ done ++ text :: rest := by
    intro c hc
    rw [List.append_cons]
    exact List.mem_append_left rest hc
  refine ⟨by simp, fun c hc => h.not_blank c (hsub c hc), fun c hc => h.no_semicolon c (hsub c hc),
    fun c hc => h.no_mark c (hsub c hc), fun c hc => h.no_open_end c ?_⟩
  rw [List.dropLast_concat] at hc
  rw [List.dropLast_append_of_ne_nil (by simp)]
  exact List.mem_append_left _ hc

/-- The text of a group. -/
def join (texts : List String) : String := "&&".intercalate texts

theorem toList_join_cons_cons (c d : String) (texts : List String) :
    (join (c :: d :: texts)).toList = c.toList ++ '&' :: '&' :: (join (d :: texts)).toList := by
  simp [join, String.intercalate_cons_cons]

theorem splitOnPair_join {texts : List String} (hne : texts ≠ [])
    (hmark : ∀ c ∈ texts, ¬ ['&', '&'] <:+: c.toList)
    (hend : ∀ c ∈ texts.dropLast, c.toList.getLast? ≠ some '&') :
    Text.splitOnPair '&' '&' (join texts).toList = texts.map String.toList := by
  rw [join, String.toList_intercalate]
  refine Text.splitOnPair_intercalate (by simpa using hne) (by simpa using hmark) fun _ p hp => ?_
  rw [← List.map_dropLast] at hp
  obtain ⟨c, hc, rfl⟩ := List.mem_map.mp hp
  exact hend c hc

theorem chunks_join {texts : List String} (h : Joinable texts) :
    chunks (join texts).toList = texts := by
  have hback : (texts.map String.toList).map String.ofList = texts := by simp
  rw [chunks, splitOnPair_join h.ne_nil h.no_mark h.no_open_end, hback, List.filter_eq_self]
  intro c hc
  simp [h.not_blank c hc]

theorem not_mem_join {texts : List String} (h : ∀ c ∈ texts, ';' ∉ c.toList) :
    ';' ∉ (join texts).toList := by
  induction texts with
  | nil => simp [join]
  | cons c texts ih =>
    cases texts with
    | nil => simpa [join] using h
    | cons d texts =>
      have hc := h c List.mem_cons_self
      have htail := ih fun e he => h e (List.mem_cons_of_mem c he)
      rw [toList_join_cons_cons]
      simp [hc, htail]

/-- **Texts put together with `&&` make one group of just these texts.** -/
theorem groups_join {texts : List String} (h : Joinable texts) : groups (join texts) = [texts] := by
  rw [groups, List.splitOn_eq_singleton (not_mem_join h.no_semicolon), List.map_singleton,
    chunks_join h]
  exact List.filter_cons_of_pos (by simpa using h.ne_nil)

theorem parse_join {texts : List String} (h : Joinable texts) :
    parse (join texts) = [texts.map .ofChunk] := by
  have hgroups := groups_join h
  rw [parse_of_groups (by simp [hgroups]), hgroups]
  rfl

/-! ## Whole lines -/

/-- The text of a line, from the texts of its commands group by group. -/
def joinGroups (groups : List (List String)) : String := ";".intercalate (groups.map join)

theorem groups_joinGroups {gs : List (List String)} (hne : gs ≠ [])
    (h : ∀ g ∈ gs, Joinable g) : groups (joinGroups gs) = gs := by
  have hsemicolon : ∀ l ∈ gs.map join, ';' ∉ l.toList := by
    intro l hl
    obtain ⟨g, hg, rfl⟩ := List.mem_map.mp hl
    exact not_mem_join (h g hg).no_semicolon
  have hchunks : (gs.map join).map (fun l => chunks l.toList) = gs := by
    rw [List.map_map]
    exact (List.map_congr_left fun g hg => chunks_join (h g hg)).trans (List.map_id gs)
  rw [joinGroups, groups_intercalate (by simpa using hne) hsemicolon, hchunks, List.filter_eq_self]
  intro g hg
  simpa using (h g hg).ne_nil

theorem parse_joinGroups {gs : List (List String)} (hne : gs ≠ [])
    (h : ∀ g ∈ gs, Joinable g) : parse (joinGroups gs) = gs.map (·.map .ofChunk) := by
  have hgroups := groups_joinGroups hne h
  rw [parse_of_groups (by rwa [hgroups]), hgroups]

theorem mem_dropLast_of_mem_dropLast_filter {α : Type} {p : α → Bool} {l : List α} {x : α}
    (h : x ∈ (l.filter p).dropLast) : x ∈ l.dropLast := by
  obtain rfl | ⟨init, z, rfl⟩ := List.eq_nil_or_concat l
  · exact absurd h List.not_mem_nil
  · rw [List.concat_eq_append, List.filter_append] at h
    rw [List.concat_eq_append, List.dropLast_concat]
    by_cases hz : p z = true
    · rw [List.filter_cons_of_pos hz, List.filter_nil, List.dropLast_concat] at h
      exact (List.mem_filter.mp h).1
    · rw [List.filter_cons_of_neg hz, List.filter_nil, List.append_nil] at h
      exact (List.mem_filter.mp ((List.dropLast_sublist _).mem h)).1

/-- **What a line is cut into can be put together again.** -/
theorem joinable_of_mem_groups {line : String} {g : List String} (hg : g ∈ groups line) :
    Joinable g := by
  obtain ⟨hmem, hne⟩ := List.mem_filter.mp hg
  obtain ⟨text, htext, rfl⟩ := List.mem_map.mp hmem
  have hpiece : ∀ c ∈ chunks text, c.toList ∈ Text.splitOnPair '&' '&' text := by
    intro c hc
    obtain ⟨w, hw, rfl⟩ := List.mem_map.mp (List.mem_filter.mp hc).1
    rwa [String.toList_ofList]
  refine ⟨by simpa using hne, ?_, ?_, ?_, ?_⟩
  · intro c hc
    simpa using (List.mem_filter.mp hc).2
  · intro c hc hsemicolon
    exact Path.not_mem_of_mem_splitOn htext (Text.mem_of_mem_splitOnPair (hpiece c hc) hsemicolon)
  · exact fun c hc => Text.no_mark_of_mem_splitOnPair (hpiece c hc)
  · intro c hc
    have hc := mem_dropLast_of_mem_dropLast_filter hc
    rw [← List.map_dropLast] at hc
    obtain ⟨w, hw, rfl⟩ := List.mem_map.mp hc
    rw [String.toList_ofList]
    exact Text.getLast?_ne_of_mem_dropLast_splitOnPair hw

/-- **Parsing undoes joining.** Texts of commands that keep their ends, joined with `&&` to groups
and the groups with `;` to a line, are what the line is parsed into. And whatever the line, the
texts that its commands were read from, joined in the same way, are parsed into the same commands;
if the line has no command, this is the line itself. -/
theorem parsing_undoes_joining :
    (∀ gs : List (List String), gs ≠ [] → (∀ g ∈ gs, Joinable g) →
      parse (joinGroups gs) = gs.map (·.map .ofChunk)) ∧
    ∀ line, parse (joinGroups ((parse line).map (·.map Invocation.input))) = parse line := by
  refine ⟨fun gs hne h => parse_joinGroups hne h, fun line => ?_⟩
  by_cases hnone : groups line = []
  · have hparse : parse line = [[.blank line]] := by rw [parse, hnone]
    have hline : joinGroups [[line]] = line := by simp [joinGroups, join]
    rw [hparse]
    exact (congrArg parse hline).trans hparse
  · have hinputs : (parse line).map (·.map Invocation.input) = groups line := by
      have hback (g : List String) : (g.map Invocation.ofChunk).map Invocation.input = g := by
        simp [Function.comp_def, Invocation.input_ofChunk]
      rw [parse_of_groups hnone, List.map_map]
      exact (List.map_congr_left fun g _ => hback g).trans (List.map_id _)
    rw [hinputs, parse_joinGroups hnone fun g => joinable_of_mem_groups, parse_of_groups hnone]

/-- A command may begin with the character of the mark, and the last of a group end in it. -/
theorem parsing_undoes_joining_ampersands :
    let gs := [["ls -a ", "&x", " a&b &"], ["&"], ["cd --to &x", "pwd"]]
    gs ≠ [] ∧ (∀ g ∈ gs, Joinable g) ∧
      joinGroups gs = "ls -a &&&x&& a&b &;&;cd --to &x&&pwd" ∧
      parse (joinGroups gs) = gs.map (·.map .ofChunk) := by
  intro gs
  have hne : gs ≠ [] := List.cons_ne_nil _ _
  have hgs : ∀ g ∈ gs, Joinable g := by decide +kernel
  exact ⟨hne, hgs, by decide +kernel, parsing_undoes_joining.1 gs hne hgs⟩

end MemoryShell.Line
