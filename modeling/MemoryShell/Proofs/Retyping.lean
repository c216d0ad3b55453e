import MemoryShell.Proofs.Completions

/-!
# Typing on where a line was completed

A completion proposes a longer word, of which any part can be typed by hand. The directory that the
word leads to is then the same, and of the entries in it the one proposed still is the only one.
Headlines:

* `splitParent_completed`: what a completed word is made of;
* `OnlyEntry.further`: the entry meant after more of its name has been typed;
* `complete_eq_some_iff`, `Proposes.further`: what is proposed, and what after typing on;
* `completion_is_stable`: any part of a proposal leads to the same proposal;
* `completion_extends_word`: a proposal goes on from what was typed, but for one doubled slash.
-/

namespace MemoryShell

open MemoryShell.Path (isValidName IsPiece splitParent)
open MemoryShell.Text (IsWord isBlank words)

/-! ## Words completed in part -/

section Completed

variable {word name kept : String}

/-- A completed word is the name of the entry behind all else. -/
theorem completed_append (word name : String) :
    completed word "" ++ name = completed word name := by
  unfold completed
  cases (splitParent word).1 with
  | none => exact String.empty_append
  | some parent =>
    rw [Option.elim_some, Option.elim_some]
    unfold Path.under
    split <;> simp [String.append_assoc]

/-- **A completed word has the parent of the word that was typed**, and the name in it. -/
theorem splitParent_completed (word : String) (h : '/' ∉ name.toList) :
    splitParent (completed word name) = ((splitParent word).1, name) := by
  unfold completed
  rcases Path.exists_cut word with hslash | ⟨dir, leaf, hleaf, rfl⟩
  · rw [Path.splitParent_of_not_mem hslash]
    exact Path.splitParent_of_not_mem h
  · rw [Path.splitParent_append hleaf, Option.elim_some]
    exact Path.splitParent_under (Path.parent_ne_empty dir) h

theorem typedDir_completed (word : String) (h : '/' ∉ name.toList) :
    typedDir (completed word name) = typedDir word := by
  rw [typedDir, splitParent_completed word h]
  rfl

theorem typedLeaf_completed (word : String) (h : '/' ∉ name.toList) :
    typedLeaf (completed word name) = name := by
  rw [typedLeaf, splitParent_completed word h]

theorem completed_completed (word : String) (h : '/' ∉ kept.toList) (name : String) :
    completed (completed word kept) name = completed word name := by
  rw [completed, splitParent_completed word h]
  rfl

/-- A completed word has no blank if none was typed and the name has none. -/
theorem not_isBlank_completed (hword : ∀ c ∈ word.toList, isBlank c = false)
    (hname : ∀ c ∈ name.toList, isBlank c = false) :
    ∀ c ∈ (completed word name).toList, isBlank c = false := by
  unfold completed
  rcases Path.exists_cut word with hslash | ⟨dir, leaf, hleaf, rfl⟩
  · rw [Path.splitParent_of_not_mem hslash]
    exact hname
  · rw [Path.splitParent_append hleaf, Option.elim_some]
    have hparent : ∀ c ∈ (if dir = "" then "/" else dir).toList, isBlank c = false := by
      split
      · intro c hc
        obtain rfl : c = '/' := by simpa using hc
        exact Text.isBlank_slash
      · exact fun c hc => hword c (by simp [hc])
    intro c hc
    rcases Path.mem_of_mem_under hc with hc | rfl | hc
    · exact hparent c hc
    · exact Text.isBlank_slash
    · exact hname c hc

end Completed

/-! ## Entries -/

section OnlyEntry

variable {s : Session} {word kept : String} {dir : Location} {child : Node}

/-- **Of the entries that a word can mean, the only one is still the only one** when more of its
name has been typed. -/
theorem OnlyEntry.further (h : OnlyEntry s word dir child) (hkept : '/' ∉ kept.toList)
    (htyped : kept.startsWith (typedLeaf word) = true) (hname : child.name.startsWith kept = true) :
    OnlyEntry s (completed word kept) dir child := by
  refine ⟨by rw [typedDir_completed word hkept]; exact h.found, h.isDir, ?_⟩
  rw [typedLeaf_completed word hkept]
  -- the entries that go on from what is kept are among those that went on from less
  have hfilter : (dir.node.children.filter fun c => c.name.startsWith kept) =
      (dir.node.children.filter fun c => c.name.startsWith (typedLeaf word)).filter
        fun c => c.name.startsWith kept := by
    rw [List.filter_filter]
    refine List.filter_congr fun c _ => ?_
    cases hc : c.name.startsWith kept with
    | false => rfl
    | true => rw [Text.startsWith_trans hc htyped]; rfl
  rw [hfilter, h.only]
  exact List.filter_cons_of_pos hname

end OnlyEntry

/-! ## Lines -/

section Typing

variable {line word : String} {earlier : List String}

/-- What is typed is words, the last of them perhaps empty. -/
theorem Typing.isWord (h : Typing line earlier word) :
    (∀ w ∈ earlier, IsWord w) ∧ ∀ c ∈ word.toList, isBlank c = false := by
  have hall {ws : List String} (hws : words line = ws) : ∀ w ∈ ws, IsWord w :=
    fun w hw => (Text.of_mem_words (hws ▸ hw)).1
  cases h with
  | nothing _ => exact ⟨by simp, by simp⟩
  | within hwords _ =>
    exact ⟨fun w hw => hall hwords w (List.mem_append_left _ hw),
      (hall hwords word (List.mem_append_right _ (List.mem_singleton_self word))).2⟩
  | between _ _ => exact ⟨hall rfl, by simp⟩

theorem endsInBlank_append {w : String} (h : IsWord w) (front : String) :
    endsInBlank (front ++ w) = false := by
  have hne : w.toList ≠ [] := by simpa using h.1
  rw [endsInBlank, String.toList_append, List.getLast?_append_of_ne_nil _ hne,
    List.getLast?_eq_some_getLast hne, Option.any_some]
  exact h.2 _ (List.getLast_mem hne)

/-- A single word is typed as the first. -/
theorem typing_first (h : ∀ c ∈ word.toList, isBlank c = false) : Typing word [] word := by
  by_cases hempty : word = ""
  · subst hempty
    exact .nothing (by decide)
  · have hword : IsWord word := ⟨hempty, h⟩
    refine .within (Text.words_of_isWord hword) ?_
    have hblank := endsInBlank_append hword ""
    rwa [String.empty_append] at hblank

/-- A word behind others is typed as a later one, also before its first character. -/
theorem typing_later (hne : earlier ≠ []) (hearlier : ∀ w ∈ earlier, IsWord w)
    (hword : ∀ c ∈ word.toList, isBlank c = false) :
    Typing (" ".intercalate earlier ++ " " ++ word) earlier word := by
  have hwords := Text.words_append_blank (" ".intercalate earlier) word
  rw [Text.words_intercalate hearlier] at hwords
  by_cases hempty : word = ""
  · subst hempty
    rw [show words "" = [] by decide, List.append_nil] at hwords
    have hblank : endsInBlank (" ".intercalate earlier ++ " " ++ "") = true := by
      simp [endsInBlank]
      decide
    have htyping := Typing.between (by rwa [hwords]) hblank
    rwa [hwords] at htyping
  · rw [Text.words_of_isWord ⟨hempty, hword⟩] at hwords
    exact .within hwords (endsInBlank_append ⟨hempty, hword⟩ _)

end Typing

/-! ## Names without blanks -/

/-- Every node below this one has a valid name without blanks. -/
def Node.HasWordNames (t : Node) : Prop :=
  ∀ d ∈ t.descendants, isValidName d.name = true ∧ IsWord d.name

/-- Every command has a name without blanks. -/
def Registry.HasWordNames (r : Registry) : Prop := ∀ name ∈ r.names, IsWord name

instance (t : Node) : Decidable t.HasWordNames := inferInstanceAs (Decidable (∀ d ∈ _, _))

instance (r : Registry) : Decidable r.HasWordNames := inferInstanceAs (Decidable (∀ d ∈ _, _))

theorem Registry.HasWordNames.isWord {r : Registry} {name : String} (hr : r.HasWordNames)
    (h : r.contains name = true) : IsWord name := hr name (OrderedMap.mem_keys_iff.mpr h)

/-! ## Proposals -/

/-- What a completed line is made of: at its end stands the name of a command or an entry, of which
`typed` had been typed, and in front of it all else. -/
inductive Proposes (r : Registry) (s : Session) (line : String) : String → String → String → Prop
  | command {word name : String} (typing : Typing line [] word)
      (only : completeName r word = some name) : Proposes r s line "" word name
  | entry {earlier : List String} {word : String} {dir : Location} {child : Node}
      (typing : Typing line earlier word) (later : earlier ≠ [])
      (only : OnlyEntry s word dir child) :
      Proposes r s line (" ".intercalate earlier ++ " " ++ completed word "") (typedLeaf word)
        child.name

section Proposals

variable {r : Registry} {s : Session} {line line' front typed name kept : String}

/-- **A line is completed to what it proposes.** -/
theorem complete_eq_some_iff :
    complete r line s = some line' ↔
      ∃ front typed name, Proposes r s line front typed name ∧ line' = front ++ name := by
  constructor
  · intro h
    obtain ⟨earlier, word, htyping⟩ := exists_typing line
    rw [htyping.complete_eq] at h
    by_cases hnone : earlier = []
    · rw [if_pos hnone] at h
      subst hnone
      exact ⟨"", word, line', .command htyping h, String.empty_append.symm⟩
    · rw [if_neg hnone] at h
      obtain ⟨expr, hexpr, rfl⟩ := Option.map_eq_some_iff.mp h
      obtain ⟨dir, child, hentry, rfl⟩ := completePath_eq_some_iff.mp hexpr
      refine ⟨_, _, child.name, .entry htyping hnone hentry, ?_⟩
      rw [← completed_append, ← String.append_assoc]
  · rintro ⟨front, typed, name, h, rfl⟩
    cases h with
    | command typing only => rw [typing.complete_eq, if_pos rfl, only, String.empty_append]
    | @entry earlier word dir child typing later only =>
      rw [typing.complete_eq, if_neg later, completePath_eq_some_iff.mpr ⟨dir, child, only, rfl⟩,
        Option.map_some, ← completed_append, ← String.append_assoc]

theorem Proposes.startsWith (h : Proposes r s line front typed name) :
    name.startsWith typed = true := by
  cases h with
  | command typing only => exact (completeName_eq_some_iff.mp only).1.2
  | entry typing later only => exact only.mem.2

/-- **What has been typed on of a proposal proposes the same.** -/
theorem Proposes.further (hr : r.HasWordNames) (hs : s.tree.HasWordNames)
    (h : Proposes r s line front typed name) (htyped : kept.startsWith typed = true)
    (hname : name.startsWith kept = true) : Proposes r s (front ++ kept) front kept name := by
  have hkept : ∀ c ∈ kept.toList, c ∈ name.toList :=
    fun c hc => (String.startsWith_string_iff.mp hname).subset hc
  cases h with
  | command typing only =>
    obtain ⟨⟨hcontains, -⟩, hall⟩ := completeName_eq_some_iff.mp only
    have htyping := typing_first fun c hc => (hr.isWord hcontains).2 c (hkept c hc)
    rw [String.empty_append]
    refine .command htyping (completeName_eq_some_iff.mpr ⟨⟨hcontains, hname⟩, ?_⟩)
    exact fun other hother hstarts => hall other hother (Text.startsWith_trans hstarts htyped)
  | @entry earlier word dir child typing later only =>
    obtain ⟨hvalid, hword⟩ := hs child only.mem_descendants
    have hslash : '/' ∉ kept.toList :=
      fun hc => (IsPiece.of_isValidName hvalid).2 (hkept '/' hc)
    have htyping := typing_later later typing.isWord.1
      (not_isBlank_completed typing.isWord.2 fun c hc => hword.2 c (hkept c hc))
    have hentry : Proposes r s _ _ _ _ :=
      .entry htyping later (only.further hslash htyped hname)
    rwa [completed_completed word hslash, typedLeaf_completed word hslash,
      ← completed_append word kept, ← String.append_assoc] at hentry

/-- **Completion is stable under further typing.** Let names have no blanks, and those of nodes be
valid. If a line is completed, then each part of the completed one that still holds what had been
typed of the name at its end is completed to the same line, and so is the completed one itself. -/
theorem completion_is_stable (hr : r.HasWordNames) (hs : s.tree.HasWordNames)
    (h : complete r line s = some line') :
    (∃ front typed name, Proposes r s line front typed name ∧ line' = front ++ name) ∧
    (∀ front typed name kept, Proposes r s line front typed name → kept.startsWith typed = true →
      name.startsWith kept = true → complete r (front ++ kept) s = some line') ∧
    complete r line' s = some line' := by
  have hparts (front typed name kept : String) (hproposes : Proposes r s line front typed name)
      (htyped : kept.startsWith typed = true) (hname : name.startsWith kept = true) :
      complete r (front ++ kept) s = some line' := by
    rw [← h, complete_eq_some_iff.mpr ⟨_, _, _, hproposes, rfl⟩]
    exact complete_eq_some_iff.mpr ⟨_, _, _, hproposes.further hr hs htyped hname, rfl⟩
  obtain ⟨front, typed, name, hproposes, rfl⟩ := complete_eq_some_iff.mp h
  exact ⟨⟨front, typed, name, hproposes, rfl⟩, hparts, hparts front typed name name hproposes
    hproposes.startsWith (String.startsWith_string_iff.mpr List.prefix_rfl)⟩

end Proposals

/-- An entry of another directory whose name begins alike makes no difference. -/
theorem completion_is_stable_in_directory :
    let tree : Node := .directory "" [.directory "d" [.file "abc" "", .file "b" ""], .file "ab" ""]
    let s : Session := ⟨[], tree, "/d/", .none⟩
    let line := " cat  -n  ..//d//a"
    Registry.builtins.HasWordNames ∧ s.tree.HasWordNames ∧
      complete .builtins line s = some "cat -n ..//d//abc" ∧
      Proposes .builtins s line "cat -n ..//d//" "a" "abc" ∧
      complete .builtins ("cat -n ..//d//" ++ "ab") s = some "cat -n ..//d//abc" ∧
      complete .builtins "cat -n ..//d//abc" s = some "cat -n ..//d//abc" := by
  intro tree s line
  have hr : Registry.builtins.HasWordNames := by decide +kernel
  have hs : s.tree.HasWordNames := by decide +kernel
  have hline : complete .builtins line s = some "cat -n ..//d//abc" := by decide +kernel
  have hentry : OnlyEntry s "..//d//a" ⟨"/d", .directory "d" [.file "abc" "", .file "b" ""]⟩
      (.file "abc" "") := ⟨by decide +kernel, rfl, by decide +kernel⟩
  have htyping : Typing line ["cat", "-n"] "..//d//a" :=
    .within (by decide +kernel) (by decide +kernel)
  have hproposes : Proposes .builtins s line "cat -n ..//d//" "a" "abc" :=
    .entry htyping (by simp) hentry
  obtain ⟨-, hparts, hself⟩ := completion_is_stable hr hs hline
  exact ⟨hr, hs, hline, hproposes,
    hparts _ _ _ "ab" hproposes (by decide +kernel) (by decide +kernel), hself⟩

/-! ## What a proposal goes on from -/

/-- Two slashes, and no other in front of the name or behind. -/
def IsDoubled (word : String) : Prop := ∃ leaf, '/' ∉ leaf.toList ∧ word = "//" ++ leaf

section Extends

variable {word leaf name : String}

/-- A completed word goes on from the word that was typed, unless that one is doubled. -/
theorem startsWith_completed (hword : ¬ IsDoubled word)
    (h : name.startsWith (typedLeaf word) = true) :
    (completed word name).startsWith word = true := by
  unfold typedLeaf at h
  unfold completed
  rcases Path.exists_cut word with hslash | ⟨dir, leaf, hleaf, rfl⟩
  · rwa [Path.splitParent_of_not_mem hslash] at h ⊢
  · have hroot : dir ≠ "/" := by
      rintro rfl
      exact hword ⟨leaf, hleaf, rfl⟩
    rw [Path.splitParent_append hleaf] at h ⊢
    by_cases hdir : dir = ""
    · rw [if_pos hdir, hdir, String.empty_append]
      exact Text.startsWith_append "/" h
    · rw [if_neg hdir, Option.elim_some, Path.under, if_neg hroot]
      exact Text.startsWith_append (dir ++ "/") h

/-- One slash of a doubled word is lost. -/
theorem completed_doubled (h : '/' ∉ leaf.toList) (name : String) :
    completed ("//" ++ leaf) name = "/" ++ name := by
  have hcut := Path.splitParent_append h "/"
  rw [if_neg (by decide)] at hcut
  rw [completed, show "//" ++ leaf = "/" ++ "/" ++ leaf from rfl, hcut]
  rfl

/-- **A completed word goes on from the word that was typed exactly if that one is not doubled**;
if it is, it does so with the slash that was lost. -/
theorem startsWith_completed_iff (hname : '/' ∉ name.toList)
    (h : name.startsWith (typedLeaf word) = true) :
    ((completed word name).startsWith word = true ↔ ¬ IsDoubled word) ∧
      (IsDoubled word → ("/" ++ completed word name).startsWith word = true) := by
  have hdoubled (hword : IsDoubled word) : (completed word name).startsWith word = false ∧
      ("/" ++ completed word name).startsWith word = true := by
    obtain ⟨leaf, hleaf, rfl⟩ := hword
    have hcut := Path.splitParent_append hleaf "/"
    rw [typedLeaf, show "//" ++ leaf = "/" ++ "/" ++ leaf from rfl, hcut] at h
    rw [completed_doubled hleaf]
    refine ⟨Bool.eq_false_iff.mpr fun hstarts => hname ?_, Text.startsWith_append "//" h⟩
    -- the second slash would have to stand in the name
    rw [String.startsWith_string_iff] at hstarts
    have htail : '/' :: leaf.toList <+: name.toList := by simpa using hstarts
    exact htail.subset List.mem_cons_self
  refine ⟨⟨fun hstarts hword => ?_, fun hword => startsWith_completed hword h⟩,
    fun hword => (hdoubled hword).2⟩
  rw [(hdoubled hword).1] at hstarts
  cases hstarts

end Extends

/-- Where no blank is typed last, the word typed last is the one to be completed. -/
theorem Typing.words_eq {line word : String} {earlier : List String}
    (h : Typing line earlier word) (hblank : endsInBlank line = false) :
    words line = earlier ++ [word] ∨ earlier = [] ∧ word = "" := by
  cases h with
  | nothing _ => exact .inr ⟨rfl, rfl⟩
  | within hwords _ => exact .inl hwords
  | between _ hlast =>
    rw [hlast] at hblank
    cases hblank

theorem Registry.builtins_hasWordNames : builtins.HasWordNames := by decide +kernel

/-- **A completed line goes on from what was typed**, in every tree whose names are valid and have
no blanks: the words before the last one are the same, and the last one goes on from the one that
was typed, unless this is a path with two slashes in front of a name and no other slash. Such a
path is completed behind one slash only, and so goes on from what was typed but for this slash. -/
theorem completion_extends_word {s : Session} (hs : s.tree.HasWordNames) {line line' : String}
    (hblank : endsInBlank line = false) (h : complete .builtins line s = some line') :
    ∃ earlier word word', words line = earlier ++ [word] ∧ words line' = earlier ++ [word'] ∧
      (word'.startsWith word = true ↔ ¬ (earlier ≠ [] ∧ IsDoubled word)) ∧
      (earlier ≠ [] ∧ IsDoubled word → ("/" ++ word').startsWith word = true) := by
  obtain ⟨front, typed, name, hproposes, rfl⟩ := complete_eq_some_iff.mp h
  cases hproposes with
  | command typing only =>
    obtain ⟨⟨hcontains, hstarts⟩, -⟩ := completeName_eq_some_iff.mp only
    have hname := Registry.builtins_hasWordNames.isWord hcontains
    rcases typing.words_eq hblank with hwords | ⟨-, rfl⟩
    · refine ⟨[], typed, name, hwords, ?_, iff_of_true hstarts fun h => h.1 rfl,
        fun h => absurd rfl h.1⟩
      rw [String.empty_append, Text.words_of_isWord hname, List.nil_append]
    · -- every command name goes on from the empty word
      have hnone : completeName .builtins "" = none := by decide +kernel
      rw [hnone] at only
      cases only
  | @entry earlier word dir child typing later only =>
    obtain ⟨hvalid, hword⟩ := hs child only.mem_descendants
    obtain ⟨hearlier, htyped⟩ := typing.isWord
    have hwords : words line = earlier ++ [word] :=
      (typing.words_eq hblank).resolve_right fun h => later h.1
    have hcompleted : IsWord (completed word child.name) :=
      ⟨completed_ne_empty word hword.1, not_isBlank_completed htyped hword.2⟩
    obtain ⟨hiff, hslash⟩ :=
      startsWith_completed_iff (IsPiece.of_isValidName hvalid).2 only.mem.2
    refine ⟨earlier, word, completed word child.name, hwords, ?_, ?_, fun h => hslash h.2⟩
    · rw [String.append_assoc, completed_append, Text.words_append_blank,
        Text.words_intercalate hearlier, Text.words_of_isWord hcompleted]
    · rw [hiff, and_iff_right later]

/-- Slashes may be doubled elsewhere. -/
theorem completion_extends_word_slashes :
    let tree : Node := .directory "" [.directory "d" [.file "abc" ""], .file "ab" ""]
    let s : Session := ⟨[], tree, "d", .none⟩
    let line := "cat\t//ab ///d//a"
    s.tree.HasWordNames ∧ endsInBlank line = false ∧
      complete .builtins line s = some "cat //ab ///d//abc" ∧
      ∃ earlier word word', words line = earlier ++ [word] ∧
        words "cat //ab ///d//abc" = earlier ++ [word'] ∧
        (word'.startsWith word = true ↔ ¬ (earlier ≠ [] ∧ IsDoubled word)) ∧
        (earlier ≠ [] ∧ IsDoubled word → ("/" ++ word').startsWith word = true) := by
  intro tree s line
  have hs : s.tree.HasWordNames := by decide +kernel
  have hblank : endsInBlank line = false := by decide +kernel
  have hline : complete .builtins line s = some "cat //ab ///d//abc" := by decide +kernel
  exact ⟨hs, hblank, hline, completion_extends_word hs hblank hline⟩

/-- Of two slashes typed in front of a name, one is left. -/
theorem completion_loses_slash :
    let s := Session.ofTree (.directory "/" [.file "file1" ""])
    s.tree.WellFormed ∧ s.tree.HasWordNames ∧ endsInBlank "ls //fi" = false ∧
      complete .builtins "ls //fi" s = some "ls /file1" ∧
      words "ls //fi" = ["ls", "//fi"] ∧ words "ls /file1" = ["ls", "/file1"] ∧
      "/file1".startsWith "//fi" = false := by
  decide +kernel

end MemoryShell
