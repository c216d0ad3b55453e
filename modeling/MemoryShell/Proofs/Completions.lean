import Mathlib.Data.List.Nodup
import MemoryShell.Completion
import MemoryShell.Proofs.Places

/-!
# What completing finds

A word in typing is completed if it can mean one thing only: the first word a command, a later one
an entry of the directory that it leads to. Headlines:

* `completeName_eq_some_iff`, `completePath_eq_some_iff`: when a word is completed, and to what;
* `OnlyEntry.resolve_completed`: a completed word leads to the entry meant;
* `completion_sound_and_complete`: whole lines.
-/

namespace MemoryShell

open MemoryShell.Path (isValidName IsPiece segments ofNames splitParent)

/-! ## One candidate -/

section Only

variable {α : Type}

theorem only?_eq_some_iff {l : List α} {a : α} : only? l = some a ↔ l = [a] := by
  unfold only?
  split
  · simp
  · rename_i hne
    constructor
    · intro h
      cases h
    · exact fun h => absurd h (hne a)

/-- Where nothing is repeated, one candidate is left if there is one and all others are it. -/
theorem filter_eq_singleton_iff {l : List α} (h : l.Nodup) {p : α → Bool} {a : α} :
    l.filter p = [a] ↔ (a ∈ l ∧ p a = true) ∧ ∀ b ∈ l, p b = true → b = a := by
  constructor
  · intro hfilter
    have hmem (b : α) : b ∈ l ∧ p b = true ↔ b = a := by
      rw [← List.mem_filter, hfilter, List.mem_singleton]
    exact ⟨(hmem a).mpr rfl, fun b hb hpb => (hmem b).mp ⟨hb, hpb⟩⟩
  · rintro ⟨ha, hall⟩
    have hperm : (l.filter p).Perm [a] := by
      refine (List.perm_ext_iff_of_nodup (h.filter p) (List.nodup_singleton a)).mpr fun b => ?_
      rw [List.mem_filter, List.mem_singleton]
      constructor
      · exact fun hb => hall b hb.1 hb.2
      · rintro rfl
        exact ha
    exact List.perm_singleton.mp hperm

end Only

/-! ## Command names -/

/-- **A word is completed to the name of a command if it begins no other.** -/
theorem completeName_eq_some_iff {r : Registry} {word name : String} :
    completeName r word = some name ↔
      (r.contains name = true ∧ name.startsWith word = true) ∧
        ∀ other, r.contains other = true → other.startsWith word = true → other = name := by
  have hnodup : r.names.Nodup := r.commands.nodup_keys
  have hmem (name : String) : name ∈ r.names ↔ r.contains name = true := OrderedMap.mem_keys_iff
  unfold completeName Registry.completions
  rw [only?_eq_some_iff, filter_eq_singleton_iff hnodup]
  simp only [hmem]

/-! ## Words that lead to a directory -/

/-- What leads to the directory in which a word is to be completed. -/
def typedDir (word : String) : String := (splitParent word).1.getD "."

/-- What is typed of the name of an entry there. -/
def typedLeaf (word : String) : String := (splitParent word).2

/-- The word completed with the name of an entry. -/
def completed (word name : String) : String :=
  (splitParent word).1.elim name fun parent => Path.under parent name

/-- **A completed word leads to the child that bears the name.** -/
theorem resolve_completed {root : Node} {cwd word : String} {found : Location} {name : String}
    {c : Node} (h : resolve root cwd (typedDir word) = .ok found)
    (hn : isValidName name = true) (hc : found.node.child? name = some c) :
    resolve root cwd (completed word name) = .ok ⟨Path.under found.path name, c⟩ := by
  have hpiece := IsPiece.of_isValidName hn
  unfold typedDir at h
  unfold completed
  rcases Path.exists_cut word with hslash | ⟨dir, leaf, hleaf, rfl⟩
  · rw [Path.splitParent_of_not_mem hslash] at h ⊢
    exact resolve_child (route_name cwd hpiece) (resolve_dot_iff.mp h).1 hn hc
  · rw [Path.splitParent_append hleaf] at h ⊢
    exact resolve_child (route_under cwd (Path.parent_ne_empty dir) hpiece) h hn hc

theorem completed_ne_empty (word : String) {name : String} (h : name ≠ "") :
    completed word name ≠ "" := by
  unfold completed
  cases (splitParent word).1 with
  | none => exact h
  | some parent =>
    intro hempty
    have hlist : (Path.under parent name).toList = [] := by
      rw [Option.elim_some] at hempty
      rw [hempty]
      rfl
    unfold Path.under at hlist
    split at hlist <;> simp at hlist

/-- Completing a word leaves its first character. -/
theorem head?_completed {word name : String} (hne : word ≠ "")
    (h : name.startsWith (typedLeaf word) = true) :
    (completed word name).toList.head? = word.toList.head? := by
  unfold typedLeaf at h
  unfold completed
  rcases Path.exists_cut word with hslash | ⟨dir, leaf, hleaf, rfl⟩
  · rw [Path.splitParent_of_not_mem hslash] at h ⊢
    obtain ⟨rest, hrest⟩ := String.startsWith_string_iff.mp h
    rw [Option.elim_none, ← hrest, List.head?_append_of_ne_nil _ (by simpa using hne)]
  · rw [Path.splitParent_append hleaf, Option.elim_some,
      Path.head?_under (Path.parent_ne_empty dir)]
    split
    · rename_i hdir
      simp [hdir]
    · rename_i hdir
      rw [String.append_assoc, Text.head?_append hdir]

/-! ## Entries -/

/-- In the directory that a word leads to, `child` is the only entry whose name begins as the word
ends; of two entries of one name, neither is the only one. -/
structure OnlyEntry (s : Session) (word : String) (dir : Location) (child : Node) : Prop where
  found : resolve s.tree s.cwd (typedDir word) = .ok dir
  isDir : dir.node.isDir = true
  only : (dir.node.children.filter fun c => c.name.startsWith (typedLeaf word)) = [child]

theorem completePath_eq (s : Session) (word : String) :
    completePath s word = (resolve s.tree s.cwd (typedDir word)).toOption.bind fun dir =>
      if dir.node.isDir = true then
        (only? ((dir.node.children.map Node.name).filter (·.startsWith (typedLeaf word)))).map
          (completed word)
      else none := by
  unfold completePath
  refine congrArg (Option.bind _) (funext fun dir => ?_)
  cases dir.node.isDir with
  | false => rfl
  | true => exact Option.map_eq_bind.symm

/-- **A word is completed to a path if there is only one entry that it can mean.** -/
theorem completePath_eq_some_iff {s : Session} {word expr : String} :
    completePath s word = some expr ↔
      ∃ dir child, OnlyEntry s word dir child ∧ expr = completed word child.name := by
  have hname (dir : Location) (name : String) :
      only? ((dir.node.children.map Node.name).filter (·.startsWith (typedLeaf word))) = some name ↔
        ∃ child, (dir.node.children.filter fun c => c.name.startsWith (typedLeaf word)) = [child] ∧
          child.name = name := by
    rw [only?_eq_some_iff, List.filter_map, List.map_eq_singleton_iff]
    rfl
  have hfound (dir : Location) : (resolve s.tree s.cwd (typedDir word)).toOption = some dir ↔
      resolve s.tree s.cwd (typedDir word) = .ok dir := by
    cases resolve s.tree s.cwd (typedDir word) <;> simp [Except.toOption]
  rw [completePath_eq, Option.bind_eq_some_iff]
  simp only [Option.ite_none_right_eq_some, Option.map_eq_some_iff, hname, hfound]
  constructor
  · rintro ⟨dir, hdir, hisDir, name, ⟨child, honly, rfl⟩, rfl⟩
    exact ⟨dir, child, ⟨hdir, hisDir, honly⟩, rfl⟩
  · rintro ⟨dir, child, h, rfl⟩
    exact ⟨dir, h.found, h.isDir, child.name, ⟨child, h.only, rfl⟩, rfl⟩

section OnlyEntry

variable {s : Session} {word : String} {dir : Location} {child : Node}

theorem OnlyEntry.mem (h : OnlyEntry s word dir child) :
    child ∈ dir.node.children ∧ child.name.startsWith (typedLeaf word) = true := by
  have hself : child ∈ dir.node.children.filter fun c => c.name.startsWith (typedLeaf word) := by
    rw [h.only]
    exact List.mem_singleton_self child
  exact List.mem_filter.mp hself

/-- Where only one entry is meant, none beside it bears its name. -/
theorem OnlyEntry.child? (h : OnlyEntry s word dir child) :
    dir.node.child? child.name = some child := by
  have hall {c : Node} (hc : c ∈ dir.node.children)
      (hstarts : c.name.startsWith (typedLeaf word) = true) : c = child := by
    rw [← List.mem_singleton, ← h.only]
    exact List.mem_filter.mpr ⟨hc, hstarts⟩
  obtain ⟨hchild, hstarts⟩ := h.mem
  cases hfind : dir.node.child? child.name with
  | none =>
    unfold Node.child? at hfind
    rw [List.find?_eq_none] at hfind
    exact absurd (beq_self_eq_true _) (hfind child hchild)
  | some c =>
    have hname : c.name.startsWith (typedLeaf word) = true := by
      rwa [Node.name_of_child? hfind]
    rw [hall (Node.mem_children_of_child? hfind) hname]

/-- The entry is a node of the tree. -/
theorem OnlyEntry.mem_descendants (h : OnlyEntry s word dir child) :
    child ∈ s.tree.descendants := by
  obtain ⟨names, -, -, hfind⟩ := resolve_eq_ok h.found
  exact Node.mem_descendants_of_find? hfind
    (Node.mem_descendants_iff.mpr ⟨child, h.mem.1, .inl rfl⟩)

theorem OnlyEntry.isValidName (h : OnlyEntry s word dir child) (hnames : s.tree.HasValidNames) :
    isValidName child.name = true := hnames child h.mem_descendants

/-- **The completed word leads to the entry meant**, where names are valid. -/
theorem OnlyEntry.resolve_completed (h : OnlyEntry s word dir child)
    (hnames : s.tree.HasValidNames) :
    resolve s.tree s.cwd (completed word child.name) =
      .ok ⟨Path.under dir.path child.name, child⟩ :=
  MemoryShell.resolve_completed h.found (h.isValidName hnames) h.child?

end OnlyEntry

/-! ## Lines -/

/-- A line in typing, as the words before the one to be completed, and that word. Where nothing or
a blank behind other words has been typed last, the word is empty. -/
inductive Typing (line : String) : List String → String → Prop
  | nothing (words : Text.words line = []) : Typing line [] ""
  | within {earlier : List String} {word : String} (words : Text.words line = earlier ++ [word])
      (blank : endsInBlank line = false) : Typing line earlier word
  | between (started : Text.words line ≠ []) (blank : endsInBlank line = true) :
      Typing line (Text.words line) ""

theorem exists_typing (line : String) : ∃ earlier word, Typing line earlier word := by
  rcases List.eq_nil_or_concat (Text.words line) with hnil | ⟨earlier, word, hwords⟩
  · exact ⟨[], "", .nothing hnil⟩
  · cases hblank : endsInBlank line with
    | true => exact ⟨_, "", .between (by simp [hwords]) hblank⟩
    | false => exact ⟨earlier, word, .within (by rw [hwords, List.concat_eq_append]) hblank⟩

/-- The first word is completed as a command, a later one as a path. -/
theorem Typing.complete_eq {line word : String} {earlier : List String}
    (h : Typing line earlier word) (r : Registry) (s : Session) :
    complete r line s =
      if earlier = [] then completeName r word
      else (completePath s word).map fun expr => " ".intercalate earlier ++ " " ++ expr := by
  have hwords : typedWords line = earlier ++ [word] ∨
      typedWords line = [] ∧ earlier = [] ∧ word = "" := by
    unfold typedWords
    cases h with
    | nothing words => exact .inr ⟨by rw [words], rfl, rfl⟩
    | within words blank => exact .inl (by simp [words, blank])
    | between started blank => exact .inl (by simp [blank])
  rcases hwords with hwords | ⟨hwords, rfl, rfl⟩
  · cases earlier with
    | nil =>
      unfold complete
      rw [hwords]
      rfl
    | cons first rest =>
      have hpath : complete r line s = (do
          let last ← (first :: rest ++ [word]).getLast?
          return " ".intercalate (first :: rest ++ [word]).dropLast ++ " " ++
            (← completePath s last)) := by
        unfold complete
        rw [hwords]
        cases rest <;> rfl
      rw [hpath, List.getLast?_concat, List.dropLast_concat, if_neg (List.cons_ne_nil first rest)]
      exact Option.map_eq_bind.symm
  · unfold complete
    rw [hwords]
    rfl

/-- **Completion is sound and complete**, in every tree whose names are valid. The first word of a
line is completed exactly if it begins the name of one command, and then to that name. A later word
is completed exactly if it leads to a directory with only one entry whose name begins as the word
ends; then the words before it stand with single blanks behind them, and behind these an expression
that leads to just this entry. -/
theorem completion_sound_and_complete (r : Registry) {s : Session} (h : s.tree.HasValidNames)
    (line : String) :
    (∃ earlier word, Typing line earlier word) ∧
    ∀ earlier word, Typing line earlier word →
      (earlier = [] → ∀ name, complete r line s = some name ↔
        (r.contains name = true ∧ name.startsWith word = true) ∧
          ∀ other, r.contains other = true → other.startsWith word = true → other = name) ∧
      (earlier ≠ [] →
        ((complete r line s).isSome = true ↔ ∃ dir child, OnlyEntry s word dir child) ∧
        ∀ line', complete r line s = some line' → ∃ dir child expr, OnlyEntry s word dir child ∧
          line' = " ".intercalate earlier ++ " " ++ expr ∧
          resolve s.tree s.cwd expr = .ok ⟨Path.under dir.path child.name, child⟩) := by
  refine ⟨exists_typing line, fun earlier word htyping => ⟨fun hnone name => ?_, fun hsome => ?_⟩⟩
  · rw [htyping.complete_eq, if_pos hnone, completeName_eq_some_iff]
  rw [htyping.complete_eq, if_neg hsome, Option.isSome_map, Option.isSome_iff_exists]
  refine ⟨?_, fun line' hline' => ?_⟩
  · simp only [completePath_eq_some_iff]
    constructor
    · rintro ⟨expr, dir, child, hentry, -⟩
      exact ⟨dir, child, hentry⟩
    · rintro ⟨dir, child, hentry⟩
      exact ⟨_, dir, child, hentry, rfl⟩
  · obtain ⟨expr, hexpr, rfl⟩ := Option.map_eq_some_iff.mp hline'
    obtain ⟨dir, child, hentry, rfl⟩ := completePath_eq_some_iff.mp hexpr
    exact ⟨dir, child, _, hentry, rfl, hentry.resolve_completed h⟩

/-- The directory may be spelled carelessly, and another name in it be repeated. -/
theorem completion_sound_and_complete_repeated_names :
    let tree : Node := .directory "" [.directory "d" [.file "ab" "1", .file "b" "2", .file "b" ""]]
    let s : Session := ⟨[], tree, "d//", .none⟩
    let line := "cat  -n ..//d/./a"
    s.tree.HasValidNames ∧ Typing line ["cat", "-n"] "..//d/./a" ∧
      complete .builtins line s = some "cat -n ..//d/./ab" ∧
      complete .builtins "cat b" s = none ∧
      ∃ dir child expr, OnlyEntry s "..//d/./a" dir child ∧
        "cat -n ..//d/./ab" = " ".intercalate ["cat", "-n"] ++ " " ++ expr ∧
        resolve s.tree s.cwd expr = .ok ⟨Path.under dir.path child.name, child⟩ := by
  intro tree s line
  have h : s.tree.HasValidNames := by decide +kernel
  have htyping : Typing line ["cat", "-n"] "..//d/./a" :=
    .within (by decide +kernel) (by decide +kernel)
  have hline : complete .builtins line s = some "cat -n ..//d/./ab" := by decide +kernel
  have hentry := (((completion_sound_and_complete .builtins h line).2 _ _ htyping).2
    (List.cons_ne_nil _ _)).2 _ hline
  exact ⟨h, htyping, hline, by decide +kernel, hentry⟩

end MemoryShell
