import MemoryShell.Proofs.Completions
import MemoryShell.Proofs.Contents
import MemoryShell.Proofs.Lines
import MemoryShell.Proofs.Tokens

/-!
# Names that can be typed

Whatever a line is cut at stands in no operand, so it stands in no name that a command has made.
Hence a line completed with the name of an entry is cut where it was put together. Headlines:

* `Line.isPlain_of_mem_operands`: the operands of any line are plain;
* `Registry.executeAll_typable`: so are the names of a tree that lines have made;
* `Node.EveryName.of_resolve`: and the expressions that lead somewhere in it;
* `completed_line_names_entry`: what becomes of a completed line when it is submitted.
-/

namespace MemoryShell

open MemoryShell.Path (isValidName segments)

/-! ## Plain texts -/

namespace Line

/-- What a line is cut at: a blank, a semicolon, two ampersands. -/
inductive IsSeparator : List Char → Prop
  | blank {c : Char} (isBlank : Text.isBlank c = true) : IsSeparator [c]
  | semicolon : IsSeparator [';']
  | ampersands : IsSeparator ['&', '&']

/-- A text in which no line is cut. -/
def IsPlain (text : String) : Prop := ∀ sep, IsSeparator sep → ¬ sep <:+: text.toList

variable {line text expr : String}

theorem IsSeparator.ne_nil {sep : List Char} (h : IsSeparator sep) : sep ≠ [] := by
  cases h <;> exact List.cons_ne_nil _ _

theorem IsSeparator.slash_not_mem {sep : List Char} (h : IsSeparator sep) : '/' ∉ sep := by
  cases h with
  | @blank c hblank =>
    rw [List.mem_singleton]
    rintro rfl
    rw [Text.isBlank_slash] at hblank
    cases hblank
  | semicolon => decide
  | ampersands => decide

theorem IsPlain.of_infix {part : String} (h : IsPlain text) (hpart : part.toList <:+: text.toList) :
    IsPlain part :=
  fun sep hsep hin => h sep hsep (hin.trans hpart)

theorem IsPlain.isBlank (h : IsPlain text) : ∀ c ∈ text.toList, Text.isBlank c = false := by
  intro c hc
  by_contra hblank
  exact h [c] (.blank (by simpa using hblank)) ((List.singleton_infix_iff c _).mpr hc)

/-- A text is plain if none of its characters begins a separator. -/
theorem isPlain_of_all
    (h : text.toList.all (fun c => !Text.isBlank c && c != ';' && c != '&') = true) :
    IsPlain text := by
  have hall (c : Char) (hc : c ∈ text.toList) : Text.isBlank c = false ∧ c ≠ ';' ∧ c ≠ '&' := by
    simpa [and_assoc] using List.all_eq_true.mp h c hc
  intro sep hsep hin
  cases hsep with
  | @blank c hblank =>
    have hc := (hall c (hin.subset List.mem_cons_self)).1
    rw [hblank] at hc
    cases hc
  | semicolon => exact (hall ';' (hin.subset List.mem_cons_self)).2.1 rfl
  | ampersands => exact (hall '&' (hin.subset List.mem_cons_self)).2.2 rfl

/-- No separator holds a slash, so a path is plain if its names are. -/
theorem isPlain_of_segments (h : ∀ n ∈ segments text, IsPlain n) : IsPlain text := by
  intro sep hsep hin
  obtain ⟨piece, hpiece, hsub⟩ := Text.exists_infix_of_splitOn hsep.ne_nil hsep.slash_not_mem hin
  have hne : piece ≠ [] := by
    rintro rfl
    exact hsep.ne_nil (List.infix_nil.mp hsub)
  have hname : String.ofList piece ∈ segments text :=
    List.mem_map.mpr ⟨piece, List.mem_filter.mpr ⟨hpiece, by simpa using hne⟩, rfl⟩
  exact h _ hname sep hsep (by rwa [String.toList_ofList])

/-! ## Operands -/

theorem mem_of_operand_mem {tokens : List String} (h : .operand expr ∈ Item.ofTokens tokens) :
    expr ∈ tokens := by
  fun_induction Item.ofTokens tokens with
  | case1 => exact absurd h List.not_mem_nil
  | case2 token _ => simpa using h
  | case3 token letters _ => simp at h
  | case4 token key _ => simp at h
  | case5 token next rest _ ih =>
    rcases List.mem_cons.mp h with htoken | h
    · rw [Item.operand.inj htoken]
      exact List.mem_cons_self
    · exact List.mem_cons_of_mem token (ih h)
  | case6 token next rest letters _ ih =>
    exact List.mem_cons_of_mem token (ih (by simpa using h))
  | case7 token next rest key _ ih =>
    exact List.mem_cons_of_mem token (List.mem_cons_of_mem next (ih (by simpa using h)))

/-- The words of a command are plain. -/
theorem isPlain_of_mem_words {group : List String} {chunk word : String}
    (hgroup : group ∈ groups line) (hchunk : chunk ∈ group) (hword : word ∈ Text.words chunk) :
    IsPlain word := by
  have hjoin := joinable_of_mem_groups hgroup
  obtain ⟨⟨-, hblank⟩, hin⟩ := Text.of_mem_words hword
  intro sep hsep hsub
  cases hsep with
  | @blank c hc =>
    rw [hblank c ((List.singleton_infix_iff c _).mp hsub)] at hc
    cases hc
  | semicolon =>
    exact hjoin.no_semicolon chunk hchunk ((List.singleton_infix_iff _ _).mp (hsub.trans hin))
  | ampersands => exact hjoin.no_mark chunk hchunk (hsub.trans hin)

/-- **The operands of any line are plain.** -/
theorem isPlain_of_mem_operands {group : List Invocation} {inv : Invocation}
    (hgroup : group ∈ parse line) (hinv : inv ∈ group) (h : expr ∈ inv.args.operands) :
    IsPlain expr := by
  unfold parse at hgroup
  split at hgroup
  · rw [List.mem_singleton.mp hgroup, List.mem_singleton] at hinv
    rw [hinv] at h
    exact absurd h List.not_mem_nil
  · obtain ⟨chunks, hchunks, rfl⟩ := List.mem_map.mp hgroup
    obtain ⟨chunk, hchunk, rfl⟩ := List.mem_map.mp hinv
    refine isPlain_of_mem_words hchunks hchunk ?_
    unfold Invocation.ofChunk at h
    split at h
    · exact absurd h List.not_mem_nil
    · rename_i name tokens hwords
      rw [hwords]
      obtain ⟨item, hitem, hexpr⟩ := List.mem_filterMap.mp (Arguments.operands_ofItems _ ▸ h)
      obtain rfl := Item.operand?_eq_some_iff.mp hexpr
      exact List.mem_cons_of_mem name (mem_of_operand_mem hitem)

/-! ## Commands with one argument -/

/-- **A name and a plain word with a blank between them are parsed into one command.** -/
theorem parse_name_word {name word : String} (hname : IsPlain name) (hne : name ≠ "")
    (hword : IsPlain word) (hne' : word ≠ "") :
    parse (name ++ " " ++ word) =
      [[⟨name, name ++ " " ++ word, .ofItems (Item.ofTokens [word])⟩]] := by
  have hwords : Text.words (name ++ " " ++ word) = [name, word] := by
    rw [Text.words_append_blank, Text.words_of_isWord ⟨hne, hname.isBlank⟩,
      Text.words_of_isWord ⟨hne', hword.isBlank⟩]
    rfl
  have hcut {sep : List Char} (hsep : IsSeparator sep) (hblank : ' ' ∉ sep) :
      ¬ sep <:+: (name ++ " " ++ word).toList := by
    intro hin
    have hlist : (name ++ " " ++ word).toList = name.toList ++ ' ' :: word.toList := by simp
    rw [hlist] at hin
    rcases Text.infix_append_cons hblank hin with hin | hin
    · exact hname sep hsep hin
    · exact hword sep hsep hin
  have hjoin : Joinable [name ++ " " ++ word] := by
    refine ⟨List.cons_ne_nil _ _, ?_, ?_, ?_, fun _ hc => absurd hc List.not_mem_nil⟩ <;>
      intro chunk hchunk <;> rw [List.mem_singleton.mp hchunk]
    · rw [Bool.eq_false_iff, ne_eq, ← Text.words_eq_nil_iff, hwords]
      exact List.cons_ne_nil _ _
    · exact fun hmem => hcut .semicolon (by decide) ((List.singleton_infix_iff _ _).mpr hmem)
    · exact hcut .ampersands (by decide)
  have hline : join [name ++ " " ++ word] = name ++ " " ++ word := by simp [join]
  have hparse := parse_join hjoin
  rw [hline, List.map_singleton] at hparse
  rw [hparse]
  unfold Invocation.ofChunk
  rw [hwords]

end Line

/-! ## Trees with plain names -/

namespace Node

variable {P : String → Prop} {t u : Node} {names : List String}

/-- Wherever something lies in a tree, the names that lead there have a property. -/
def EveryName (P : String → Prop) (t : Node) : Prop :=
  ∀ names, t.contentAt names ≠ none → ∀ n ∈ names, P n

theorem everyName_of_children_eq_nil (h : t.children = []) : t.EveryName P := by
  intro names hsome n hn
  cases names with
  | nil => exact absurd hn List.not_mem_nil
  | cons m ms =>
    rw [contentAt_cons, child?, h] at hsome
    exact absurd rfl hsome

theorem EveryName.of_find? (h : t.EveryName P) (hu : t.find? names = some u) : ∀ n ∈ names, P n :=
  h names (by rw [contentAt, hu]; exact Option.some_ne_none _)

end Node

variable {root : Node} {cwd expr : String} {P : String → Prop}

/-- An insertion adds no name but that of the new node. -/
theorem InsertedAt.everyName {new dir : Node} {i : Insertion} {names : List String}
    (h : InsertedAt root cwd expr new i names dir) (hroot : root.EveryName P)
    (hname : P new.name) (hnew : new.EveryName P) : i.tree.EveryName P := by
  intro ms hms n hn
  by_cases hp : names ++ [new.name] <+: ms
  · obtain ⟨ks, rfl⟩ := hp
    rw [h.contentAt_new] at hms
    rcases List.mem_append.mp hn with hn | hn
    · rcases List.mem_append.mp hn with hn | hn
      · exact hroot.of_find? h.found n hn
      · rwa [List.mem_singleton.mp hn]
    · exact hnew ks hms n hn
  · rw [h.contentAt_of_not_prefix hp] at hms
    exact hroot ms hms n hn

/-- A removal adds no name. -/
theorem RemovedAt.everyName {recursive : Bool} {r : Removal} {names : List String} {leaf : String}
    {dir : Node} (h : RemovedAt root cwd expr recursive r names leaf dir)
    (hwell : root.WellNamed) (hroot : root.EveryName P) : r.tree.EveryName P := by
  intro ms hms n hn
  by_cases hp : names ++ [leaf] <+: ms
  · obtain ⟨ks, rfl⟩ := hp
    exact absurd (h.contentAt_removed hwell ks) hms
  · rw [h.contentAt_of_not_prefix hp] at hms
    exact hroot ms hms n hn

/-- A walk goes by names of the tree and dots only. -/
theorem Walk.Descent.forall_names {w v : Walk} {names : List String} (h : Descent root w)
    (hroot : root.EveryName P) (hdot : P ".") (hup : P "..") (hpieces : ∀ n ∈ names, Path.IsPiece n)
    (hs : w.steps names = some v) : ∀ n ∈ names, P n := by
  induction names generalizing w with
  | nil => exact fun n hn => absurd hn List.not_mem_nil
  | cons n ns ih =>
    obtain ⟨u, hu, hs⟩ := Option.bind_eq_some_iff.mp hs
    obtain ⟨hn, hns⟩ := List.forall_mem_cons.mp hpieces
    refine List.forall_mem_cons.mpr ⟨?_, ih (h.step hn hu) hns hs⟩
    rcases h.step_name hu with rfl | rfl | ⟨c, hc⟩
    · exact hdot
    · exact hup
    · exact hroot.of_find? hc n (List.mem_append_right _ (List.mem_singleton_self n))

/-- **An expression that leads somewhere holds names of the tree**, and dots. -/
theorem Node.EveryName.of_resolve (h : root.EveryName P) (hdot : P ".") (hup : P "..")
    {found : Location} (hr : resolve root cwd expr = .ok found) : ∀ n ∈ segments expr, P n := by
  have hroute : ∀ n ∈ segments expr, n ∈ route cwd expr := by
    intro n hn
    unfold route
    split
    · exact hn
    · exact List.mem_append_right _ hn
  unfold resolve at hr
  split at hr
  · rename_i w hw
    have hnames := Walk.Descent.start.forall_names h hdot hup (fun n => isPiece_of_mem_route) hw
    exact fun n hn => hnames n (hroute n hn)
  · cases hr

/-! ## What lines make of a tree -/

/-- A tree as lines make it: names are valid, unique in each directory, and plain. -/
structure Node.Typable (t : Node) : Prop where
  wellFormed : t.WellFormed
  plain : t.EveryName Line.IsPlain

theorem Node.typable_root : Node.root.Typable :=
  ⟨wellFormed_root, everyName_of_children_eq_nil rfl⟩

open Line (IsPlain)

theorem Line.IsPlain.leafName (h : IsPlain expr) : IsPlain (leafName expr) :=
  h.of_infix ((Path.infix_splitParent _).trans (Path.infix_dropFinalSlashes expr))

/-- An empty node may be inserted wherever a plain expression says. -/
theorem Node.Typable.insertAt {make : String → Node} {i : Insertion} (h : root.Typable)
    (hexpr : IsPlain expr) (hname : ∀ name, (make name).name = name)
    (hempty : ∀ name, (make name).children = []) (hi : insertAt root cwd expr make = .ok i) :
    i.tree.Typable := by
  obtain ⟨names, dir, hi⟩ := insertAt_eq_ok_iff.mp hi
  have hvalid : isValidName (make (MemoryShell.leafName expr)).name = true := by
    rw [hname]
    exact hi.validLeaf
  have hplain : IsPlain (make (MemoryShell.leafName expr)).name := by
    rw [hname]
    exact hexpr.leafName
  exact ⟨hi.wellFormed h.wellFormed hvalid (.of_children_eq_nil (hempty _)),
    hi.everyName h.plain hplain (everyName_of_children_eq_nil (hempty _))⟩

theorem makeDirectory_typable {u : Node} (h : root.Typable) (hexpr : IsPlain expr)
    (hu : makeDirectory cwd root expr = .ok u) : u.Typable := by
  obtain ⟨i, hi, rfl⟩ := exists_of_map_eq_ok hu
  exact h.insertAt hexpr (fun _ => rfl) (fun _ => rfl) hi

theorem touchFile_typable {u : Node} (h : root.Typable) (hexpr : IsPlain expr)
    (hu : touchFile cwd root expr = .ok u) : u.Typable := by
  unfold touchFile at hu
  split at hu
  · split at hu
    · cases hu
    · cases hu
      exact h
  · obtain ⟨i, hi, rfl⟩ := exists_of_map_eq_ok hu
    exact h.insertAt hexpr (fun _ => rfl) (fun _ => rfl) hi

theorem removeNode_typable {recursive : Bool} {u : Node} (h : root.Typable)
    (hu : removeNode recursive cwd root expr = .ok u) : u.Typable := by
  obtain ⟨r, hr, rfl⟩ := exists_of_map_eq_ok hu
  obtain ⟨names, leaf, dir, hr⟩ := removeAt_eq_ok_iff.mp hr
  have hwell := (Node.wellFormed_iff_wellNamed.mp h.wellFormed).2
  exact ⟨hr.wellFormed h.wellFormed, hr.everyName hwell h.plain⟩

/-- A command with plain operands makes plain names. -/
theorem Builtin.run_typable (b : Builtin) (manual : Manual) {args : Arguments} {s : Session}
    (hargs : ∀ expr ∈ args.operands, IsPlain expr) (h : s.tree.Typable) :
    (b.run manual args s).session.tree.Typable :=
  b.tree_run_induction manual
    (fun _ expr hexpr _ _ hu ht => makeDirectory_typable ht (hargs expr hexpr) hu)
    (fun _ expr hexpr _ _ hu ht => touchFile_typable ht (hargs expr hexpr) hu)
    (fun _ _ _ _ _ _ hu ht => removeNode_typable ht hu) h

/-- **Lines make plain names only**, since they have no other operands. -/
theorem Registry.executeAll_typable (messages : Messages) (lines : List String) {s : Session}
    (h : s.tree.Typable) : (builtins.executeAll messages lines s).tree.Typable := by
  refine executeAll_induction (P := fun s => s.tree.Typable) messages (fun _ _ h => h) ?_ h
  intro line _ group hgroup inv hinv s h
  rcases dispatch_builtins_cases inv with ⟨b, hname⟩ | ⟨result, hall⟩
  · rw [dispatch_builtins b hname]
    exact b.run_typable _ (fun expr => Line.isPlain_of_mem_operands hgroup hinv) h
  · rwa [hall s]

/-! ## Completed lines -/

open TokenKind (IsDashed)

theorem ofItems_operand {token : String} (h : ¬ IsDashed token) :
    Arguments.ofItems (Item.ofTokens [token]) = ⟨[token], .empty, .empty⟩ := by
  unfold Item.ofTokens
  rw [TokenKind.ofToken_eq_operand_iff.mpr h]
  rfl

/-- What a call is told by a dashed token that nothing follows: its letters are flags, or its key
is an option with the empty value. -/
inductive ToldByDashes : String → Arguments → Prop
  | flags {letters : List Char} {args : Arguments} (nonempty : letters ≠ [])
      (flags_iff : ∀ c, args.hasFlag c = true ↔ c ∈ letters) :
      ToldByDashes ("-" ++ String.ofList letters) args
  | option {key : String} {args : Arguments} (nonempty : key ≠ "")
      (value : args.option? key = some "") : ToldByDashes ("--" ++ key) args

/-- A dashed token is never an operand. -/
theorem ofItems_dashed {token : String} (h : IsDashed token) :
    let args := Arguments.ofItems (Item.ofTokens [token])
    args.operands = [] ∧ ToldByDashes token args := by
  cases hkind : TokenKind.ofToken token with
  | operand => exact absurd h (TokenKind.ofToken_eq_operand_iff.mp hkind)
  | flags letters =>
    rw [Item.ofTokens_of_flags hkind]
    obtain ⟨rfl, hne, -⟩ := TokenKind.ofToken_eq_flags_iff.mp hkind
    refine ⟨rfl, .flags hne fun c => ?_⟩
    rw [Arguments.hasFlag_ofItems]
    simp [Item.ofTokens, Item.letters]
  | option key =>
    rw [Item.ofTokens_of_last_option hkind]
    obtain ⟨rfl, hne⟩ := TokenKind.ofToken_eq_option_iff.mp hkind
    refine ⟨rfl, .option hne ?_⟩
    rw [Arguments.option?_ofItems]
    simp [Item.value?]

/-- Only where nothing is typed of a word may the name that completes it be read as flags. -/
theorem isDashed_completed_iff {word name : String} (hword : word.startsWith "-" = false)
    (hname : name.startsWith (typedLeaf word) = true) :
    IsDashed (completed word name) ↔ word = "" ∧ IsDashed name := by
  by_cases hempty : word = ""
  · subst hempty
    exact (and_iff_right rfl).symm
  · refine iff_of_false (fun hdashed => ?_) fun h => hempty h.1
    have hhead := (Text.startsWith_iff_head? rfl).mp hdashed.1
    rw [head?_completed hempty hname, ← Text.startsWith_iff_head? (t := "-") rfl, hword] at hhead
    exact Bool.false_ne_true hhead

theorem Builtin.isPlain_name (b : Builtin) : IsPlain b.name := by
  refine Line.isPlain_of_all ?_
  cases b <;> decide

/-- **A completed line names the entry meant.** In a session that lines have made, let the name of a
command be typed and a word behind it that does not begin with a dash. If the line is completed,
then it is parsed into one call of this command, whose one argument is an operand that leads to the
entry meant. But where nothing was typed of the word and the name of the entry is read as flags or
as an option, the call has no operand: it has these flags, or this option without a value. -/
theorem completed_line_names_entry (messages : Messages) (lines : List String) (b : Builtin)
    {line word line' : String} (htyping : Typing line [b.name] word)
    (hword : word.startsWith "-" = false)
    (hline : complete .builtins line (Registry.builtins.executeAll messages lines .fresh) =
      some line') :
    let s := Registry.builtins.executeAll messages lines .fresh
    ∃ dir child args, OnlyEntry s word dir child ∧
      Line.parse line' = [[⟨b.name, line', args⟩]] ∧
      (¬ (word = "" ∧ IsDashed child.name) → ∃ expr, args = ⟨[expr], .empty, .empty⟩ ∧
        resolve s.tree s.cwd expr = .ok ⟨Path.under dir.path child.name, child⟩) ∧
      (word = "" ∧ IsDashed child.name → args.operands = [] ∧ ToldByDashes child.name args) := by
  intro s
  have ht : s.tree.Typable := Registry.executeAll_typable messages lines Node.typable_root
  rw [htyping.complete_eq, if_neg (List.cons_ne_nil _ _)] at hline
  obtain ⟨expr, hexpr, rfl⟩ := Option.map_eq_some_iff.mp hline
  obtain ⟨dir, child, hentry, rfl⟩ := completePath_eq_some_iff.mp hexpr
  have hresolve := hentry.resolve_completed ht.wellFormed.validNames
  have hplain : IsPlain (completed word child.name) :=
    Line.isPlain_of_segments (ht.plain.of_resolve (Line.isPlain_of_all (by decide))
      (Line.isPlain_of_all (by decide)) hresolve)
  have hname := (Path.isValidName_iff.mp (hentry.isValidName ht.wellFormed.validNames)).1.1
  have hdashed := isDashed_completed_iff hword hentry.mem.2
  have hb : b.name ≠ "" := by cases b <;> decide
  refine ⟨dir, child, _, hentry,
    Line.parse_name_word b.isPlain_name hb hplain (completed_ne_empty word hname),
    fun hnot => ⟨_, ofItems_operand (mt hdashed.mp hnot), hresolve⟩, ?_⟩
  rintro ⟨rfl, hchild⟩
  exact ofItems_dashed hchild

/-- The name of the entry may begin with a dash if something is typed of its path. -/
theorem completed_line_names_entry_dash_below :
    let s := Registry.builtins.executeAll .standard ["mkdir &d && touch &d/-n /&d/a"] .fresh
    let line := "cat  &d//./-"
    Typing line [Builtin.cat.name] "&d//./-" ∧ "&d//./-".startsWith "-" = false ∧
      complete .builtins line s = some "cat &d//./-n" ∧
      ∃ dir child args, OnlyEntry s "&d//./-" dir child ∧
        Line.parse "cat &d//./-n" = [[⟨Builtin.cat.name, "cat &d//./-n", args⟩]] ∧
        (¬ ("&d//./-" = "" ∧ IsDashed child.name) → ∃ expr, args = ⟨[expr], .empty, .empty⟩ ∧
          resolve s.tree s.cwd expr = .ok ⟨Path.under dir.path child.name, child⟩) ∧
        ("&d//./-" = "" ∧ IsDashed child.name →
          args.operands = [] ∧ ToldByDashes child.name args) := by
  intro s line
  have htyping : Typing line [Builtin.cat.name] "&d//./-" :=
    .within (by decide +kernel) (by decide +kernel)
  have hword : "&d//./-".startsWith "-" = false := by decide +kernel
  have hline : complete .builtins line s = some "cat &d//./-n" := by decide +kernel
  exact ⟨htyping, hword, hline,
    completed_line_names_entry .standard _ .cat htyping hword hline⟩

/-- Where nothing is typed of the word, the only entry may be taken for a flag. -/
theorem completed_flag_names_no_entry :
    let s := Registry.builtins.executeAll .standard ["mkdir ./-x"] .fresh
    Typing "cd " [Builtin.cd.name] "" ∧ "".startsWith "-" = false ∧
      complete .builtins "cd " s = some "cd -x" ∧
      ¬ ∃ inv expr, Line.parse "cd -x" = [[inv]] ∧ inv.args = ⟨[expr], .empty, .empty⟩ := by
  intro s
  have hwords : Text.words "cd " = [Builtin.cd.name] := by decide +kernel
  have htyping : Typing "cd " [Builtin.cd.name] "" := by
    rw [← hwords]
    exact .between (by decide +kernel) (by decide +kernel)
  refine ⟨htyping, by decide +kernel, by decide +kernel, ?_⟩
  rintro ⟨inv, expr, hparse, hargs⟩
  have hcall : Line.parse "cd -x" = [[.ofChunk "cd -x"]] := by decide +kernel
  have hnone : (Invocation.ofChunk "cd -x").args.operands = [] := by decide +kernel
  rw [hcall, List.singleton_inj, List.singleton_inj] at hparse
  rw [hparse, hargs] at hnone
  exact absurd hnone (List.cons_ne_nil _ _)

end MemoryShell
