import MemoryShell.Proofs.Invariants

/-!
# What becomes of files

No command writes into a file or moves one. A run of lines can only make empty files and take
files away, and without `rm` it takes none away. Headlines:

* `Node.contentAt_updateAt_of_child?`: a directory with one child exchanged leaves what lies
  elsewhere;
* `InsertedAt.retains`, `RemovedAt.addsNoText`: what an insertion and a removal keep;
* `files_neither_forged_nor_lost`: what every run of lines keeps.
-/

namespace MemoryShell

open MemoryShell.Path (isValidName ofNames)
open Session (Change Changes)

/-! ## What lies at a place -/

namespace Node

variable {t u v old new : Node} {n : String} {names ms ks : List String}

/-- What lies at a place: nothing (`none`), a directory (`some none`), or a file with its text. -/
def contentAt (t : Node) (names : List String) : Option (Option String) :=
  (t.find? names).map content?

theorem contentAt_cons (t : Node) (n : String) (ns : List String) :
    t.contentAt (n :: ns) = (t.child? n).bind (·.contentAt ns) := by
  rw [contentAt, find?]
  cases t.child? n <;> rfl

theorem contentAt_append (h : t.find? names = some u) (ks : List String) :
    t.contentAt (names ++ ks) = u.contentAt ks := by
  rw [contentAt, find?_append, h]
  rfl

/-- Below a node without children lies nothing. -/
theorem contentAt_of_children_eq_nil (h : t.children = []) {content : Option String}
    (hc : t.contentAt ks = some content) : content = t.content? := by
  cases ks with
  | nil => exact (Option.some.inj hc).symm
  | cons k ks => simp [contentAt_cons, child?, h] at hc

/-- What a node shows of itself tells whether it is a file, and its text. -/
theorem contentAt_eq_of_front {u : Node} {ms : List String}
    (h : (t.find? ms).map front = (u.find? ms).map front) : t.contentAt ms = u.contentAt ms := by
  have hfst := congrArg (Option.map Prod.fst) h
  rwa [Option.map_map, Option.map_map] at hfst

/-- What lies at a child of the node at a place, and below it. -/
theorem contentAt_child (h : t.find? names = some u) (n : String) (ks : List String) :
    t.contentAt (names ++ [n] ++ ks) = (u.child? n).bind (·.contentAt ks) := by
  rw [List.append_assoc, contentAt_append h, List.singleton_append, contentAt_cons]

/-- Exchanging a directory for one that differs from it in the children of one name leaves what
lies elsewhere, and its other children. -/
theorem contentAt_updateAt_of_child? (h : t.find? names = some old) (hn : new.name = old.name)
    (hold : old.isDir = true) (hnew : new.isDir = true)
    (hchild : ∀ m, m ≠ n → new.child? m = old.child? m) (hms : ¬ names ++ [n] <+: ms) :
    (t.updateAt (fun _ => new) names).contentAt ms = t.contentAt ms := by
  by_cases hself : ms = names
  · subst hself
    rw [contentAt, contentAt, find?_updateAt_self h hn, h, Option.map_some, Option.map_some,
      content?_of_isDir hold, content?_of_isDir hnew]
  · refine contentAt_eq_of_front ?_
    rw [front_updateAt_of_child? h hn hchild hms, if_neg hself]

/-! ## Trees that keep what there is -/

/-- All that lies in `t` lies in `u` as well, in the same place. -/
def Retains (t u : Node) : Prop :=
  ∀ names content, t.contentAt names = some content → u.contentAt names = some content

/-- All text in `u` is in `t` as well, in the same place. -/
def AddsNoText (t u : Node) : Prop :=
  ∀ names text, u.contentAt names = some (some text) →
    text = "" ∨ t.contentAt names = some (some text)

theorem Retains.refl (t : Node) : t.Retains t := fun _ _ h => h

theorem Retains.trans (htu : t.Retains u) (huv : u.Retains v) : t.Retains v :=
  fun names content h => huv names content (htu names content h)

theorem AddsNoText.refl (t : Node) : t.AddsNoText t := fun _ _ h => .inr h

theorem AddsNoText.trans (htu : t.AddsNoText u) (huv : u.AddsNoText v) : t.AddsNoText v := by
  intro names text h
  rcases huv names text h with hempty | h
  · exact .inl hempty
  · exact htu names text h

end Node

/-! ## Insertions and removals -/

variable {root : Node} {cwd expr : String}

namespace InsertedAt

variable {new dir : Node} {i : Insertion} {names ms : List String}

/-- Where the new node is, there was nothing before. -/
theorem contentAt_root (h : InsertedAt root cwd expr new i names dir) (ks : List String) :
    root.contentAt (names ++ [new.name] ++ ks) = none := by
  rw [Node.contentAt_child h.found, h.freeName]
  rfl

theorem find?_tree (h : InsertedAt root cwd expr new i names dir) :
    i.tree.find? names = some (dir.withChild new) := by
  rw [h.tree]
  exact Node.find?_updateAt_self h.found (Node.name_withChild dir new)

theorem contentAt_new (h : InsertedAt root cwd expr new i names dir) (ks : List String) :
    i.tree.contentAt (names ++ [new.name] ++ ks) = new.contentAt ks := by
  rw [Node.contentAt_child h.find?_tree, Node.child?_withChild_self h.freeName]
  rfl

theorem contentAt_of_not_prefix (h : InsertedAt root cwd expr new i names dir)
    (hms : ¬ names ++ [new.name] <+: ms) : i.tree.contentAt ms = root.contentAt ms := by
  rw [h.tree]
  exact Node.contentAt_updateAt_of_child? h.found (Node.name_withChild dir new) h.isDir
    (Node.isDir_withChild dir new) (fun m hm => Node.child?_withChild_of_ne hm) hms

/-- **An insertion keeps all there is.** -/
theorem retains (h : InsertedAt root cwd expr new i names dir) : root.Retains i.tree := by
  intro ms content hms
  rw [h.contentAt_of_not_prefix, hms]
  rintro ⟨ks, rfl⟩
  rw [h.contentAt_root] at hms
  cases hms

/-- **An insertion of an empty node adds no text.** -/
theorem addsNoText (h : InsertedAt root cwd expr new i names dir) (hchildren : new.children = [])
    (htext : ∀ text, new.content? = some text → text = "") : root.AddsNoText i.tree := by
  intro ms text hms
  by_cases hp : names ++ [new.name] <+: ms
  · obtain ⟨ks, rfl⟩ := hp
    rw [h.contentAt_new] at hms
    exact .inl (htext text (Node.contentAt_of_children_eq_nil hchildren hms).symm)
  · rw [h.contentAt_of_not_prefix hp] at hms
    exact .inr hms

end InsertedAt

namespace RemovedAt

variable {recursive : Bool} {r : Removal} {names ms : List String} {leaf : String} {dir : Node}

theorem find?_tree (h : RemovedAt root cwd expr recursive r names leaf dir) :
    r.tree.find? names = some (dir.withoutChild leaf) := by
  rw [h.tree]
  exact Node.find?_updateAt_self h.found (Node.name_withoutChild dir leaf)

theorem contentAt_of_not_prefix (h : RemovedAt root cwd expr recursive r names leaf dir)
    (hms : ¬ names ++ [leaf] <+: ms) : r.tree.contentAt ms = root.contentAt ms := by
  rw [h.tree]
  exact Node.contentAt_updateAt_of_child? h.found (Node.name_withoutChild dir leaf)
    (Node.isDir_of_child? h.child) (Node.isDir_withoutChild dir leaf)
    (fun m hm => Node.child?_withoutChild hm) hms

/-- Where the node was, nothing is left, since no other of its name stood behind it. -/
theorem contentAt_removed (h : RemovedAt root cwd expr recursive r names leaf dir)
    (hroot : root.WellNamed) (ks : List String) :
    r.tree.contentAt (names ++ [leaf] ++ ks) = none := by
  have hdir : dir.WellNamed := hroot.find? h.found
  rw [Node.contentAt_child h.find?_tree,
    Node.child?_withoutChild_self (Node.wellNamed_iff.mp hdir).1]
  rfl

/-- **A removal adds no text**: no other file comes to lie where the node was. -/
theorem addsNoText (h : RemovedAt root cwd expr recursive r names leaf dir)
    (hroot : root.WellNamed) : root.AddsNoText r.tree := by
  intro ms text hms
  by_cases hp : names ++ [leaf] <+: ms
  · obtain ⟨ks, rfl⟩ := hp
    rw [h.contentAt_removed hroot] at hms
    cases hms
  · rw [h.contentAt_of_not_prefix hp] at hms
    exact .inr hms

end RemovedAt

/-! ## Runs of lines -/

variable {s t : Session}

theorem Session.addsNoText_of_change (h : s.tree.WellFormed) (hc : Change s t) :
    s.tree.AddsNoText t.tree := by
  cases hc with
  | log e => exact .refl _
  | clear => exact .refl _
  | enter hr hd => exact .refl _
  | makeDirectory hi =>
    obtain ⟨names, dir, hi⟩ := insertAt_eq_ok_iff.mp hi
    exact hi.addsNoText rfl (by simp [Node.content?])
  | makeFile hi =>
    obtain ⟨names, dir, hi⟩ := insertAt_eq_ok_iff.mp hi
    exact hi.addsNoText rfl (by simp [Node.content?])
  | remove hr =>
    obtain ⟨names, leaf, dir, hr⟩ := removeAt_eq_ok_iff.mp hr
    exact hr.addsNoText (Node.wellFormed_iff_wellNamed.mp h).2

theorem Session.addsNoText_of_changes (h : s.tree.WellFormed) (hc : Changes s t) :
    s.tree.AddsNoText t.tree := by
  induction hc with
  | refl => exact .refl _
  | tail hbefore hc ih =>
    exact ih.trans (addsNoText_of_change (wellFormed_of_changes h hbefore).1 hc)

/-! ## Runs without removals -/

theorem makeDirectory_retains {cwd expr : String} {t u : Node}
    (h : makeDirectory cwd t expr = .ok u) : t.Retains u := by
  obtain ⟨i, hi, rfl⟩ := exists_of_map_eq_ok h
  obtain ⟨names, dir, hi⟩ := insertAt_eq_ok_iff.mp hi
  exact hi.retains

theorem touchFile_retains {cwd expr : String} {t u : Node} (h : touchFile cwd t expr = .ok u) :
    t.Retains u := by
  unfold touchFile at h
  split at h
  · split at h
    · cases h
    · cases h; exact .refl _
  · obtain ⟨i, hi, rfl⟩ := exists_of_map_eq_ok h
    obtain ⟨names, dir, hi⟩ := insertAt_eq_ok_iff.mp hi
    exact hi.retains

/-- The commands that change the tree are three. -/
theorem Builtin.tree_run {b : Builtin} (hb : b ∉ [mkdir, touch, rm]) (manual : Manual)
    (args : Arguments) (s : Session) : (b.run manual args s).session.tree = s.tree :=
  (b.run_ends manual args s).frame.tree hb

/-- **What every edit that a command makes keeps of the tree, the command keeps.** -/
theorem Builtin.tree_run_induction {P : Node → Prop} (b : Builtin) (manual : Manual)
    {args : Arguments} {s : Session}
    (hmkdir : b = mkdir → ∀ expr ∈ args.operands, ∀ t u,
      makeDirectory s.cwd t expr = .ok u → P t → P u)
    (htouch : b = touch → ∀ expr ∈ args.operands, ∀ t u,
      touchFile s.cwd t expr = .ok u → P t → P u)
    (hrm : b = rm → ∀ recursive, ∀ expr ∈ args.operands, ∀ t u,
      removeNode recursive s.cwd t expr = .ok u → P t → P u)
    (h : P s.tree) : P (b.run manual args s).session.tree := by
  have hneed {b : Builtin} (p : Node × Option ShellError) (hp : P p.1) :
      P (b.needOperands args s (.ofEdit s p)).session.tree := by
    unfold needOperands
    split
    · exact h
    · rwa [session_ofEdit]
  by_cases hb : b ∈ [mkdir, touch, rm]
  · simp only [List.mem_cons, List.not_mem_nil, or_false] at hb
    rcases hb with rfl | rfl | rfl
    · exact hneed _ (despiteFailures_induction (hmkdir rfl) h)
    · exact hneed _ (untilFailure_induction (htouch rfl) h)
    · exact hneed _ (untilFailure_induction (hrm rfl _) h)
  · rwa [tree_run hb]

/-- **Every command but one keeps all there is.** -/
theorem Builtin.run_retains {b : Builtin} (hb : b ≠ rm) (manual : Manual) (args : Arguments)
    (s : Session) : s.tree.Retains (b.run manual args s).session.tree :=
  b.tree_run_induction manual (fun _ _ _ _ _ h ht => ht.trans (makeDirectory_retains h))
    (fun _ _ _ _ _ h ht => ht.trans (touchFile_retains h)) (fun h => absurd h hb) (.refl _)

theorem Registry.dispatch_retains {inv : Invocation} (h : inv.name ≠ "rm") (s : Session) :
    s.tree.Retains (builtins.dispatch inv s).session.tree := by
  rcases dispatch_builtins_cases inv with ⟨b, hname⟩ | ⟨result, hall⟩
  · have hb : b ≠ .rm := by
      rintro rfl
      exact h hname
    rw [dispatch_builtins b hname]
    exact Builtin.run_retains hb _ inv.args s
  · rw [hall s]
    exact .refl _

theorem Registry.executeAll_retains (messages : Messages) {lines : List String}
    (h : ∀ line ∈ lines, ∀ group ∈ Line.parse line, ∀ inv ∈ group, inv.name ≠ "rm")
    (s : Session) : s.tree.Retains (builtins.executeAll messages lines s).tree :=
  executeAll_induction (P := fun t => s.tree.Retains t.tree) messages (fun _ _ ht => ht)
    (fun line hl group hg inv hi t ht => ht.trans (dispatch_retains (h line hl group hg inv hi) t))
    (.refl _)

/-! ## Files -/

theorem contentAt_of_resolve {names : List String} (hn : ∀ n ∈ names, isValidName n = true)
    {found : Location} (h : resolve root cwd (ofNames names) = .ok found) :
    root.contentAt names = some found.node.content? := by
  rw [Node.contentAt, ((resolve_ofNames_eq_ok_iff hn).mp h).2, Option.map_some]

theorem exists_resolve_of_contentAt {names : List String}
    (hn : ∀ n ∈ names, isValidName n = true) {content : Option String}
    (h : root.contentAt names = some content) (cwd : String) :
    ∃ node, resolve root cwd (ofNames names) = .ok ⟨ofNames names, node⟩ ∧
      node.content? = content := by
  obtain ⟨node, hnode, hcontent⟩ := Option.map_eq_some_iff.mp h
  exact ⟨node, (resolve_ofNames_eq_ok_iff hn).mpr ⟨rfl, hnode⟩, hcontent⟩

/-- **No command forges or loses the text of a file.** After any lines, a file at a canonical path
is empty, or it was there before with the same text. Where no line calls `rm`, all that lay at a
canonical path still lies there: a directory is a directory, and a file has the same text. -/
theorem files_neither_forged_nor_lost (messages : Messages) (lines : List String)
    (h : s.tree.WellFormed) :
    let after := Registry.builtins.executeAll messages lines s
    (∀ path, Path.IsCanonical path → ∀ cwd file text, resolve after.tree cwd path = .ok file →
      file.node.content? = some text →
        text = "" ∨ ∃ old, resolve s.tree cwd path = .ok ⟨path, old⟩ ∧ old.content? = some text) ∧
    ((∀ line ∈ lines, ∀ group ∈ Line.parse line, ∀ inv ∈ group, inv.name ≠ "rm") →
      ∀ path, Path.IsCanonical path → ∀ cwd old, resolve s.tree cwd path = .ok old →
        ∃ new, resolve after.tree cwd path = .ok ⟨path, new⟩ ∧
          new.isDir = old.node.isDir ∧ new.content? = old.node.content?) := by
  intro after
  refine ⟨fun path hpath cwd file text hfile htext => ?_, fun hrm path hpath cwd old hold => ?_⟩
  · obtain ⟨names, hn, rfl⟩ := Path.isCanonical_iff.mp hpath
    have hcontent := contentAt_of_resolve hn hfile
    rw [htext] at hcontent
    have hchanges : Changes s after := Registry.executeAll_changes messages lines s
    rcases Session.addsNoText_of_changes h hchanges names text hcontent with hempty | hbefore
    · exact .inl hempty
    · exact .inr (exists_resolve_of_contentAt hn hbefore cwd)
  · obtain ⟨names, hn, rfl⟩ := Path.isCanonical_iff.mp hpath
    have hretains := Registry.executeAll_retains messages hrm s
    have hcontent := hretains names _ (contentAt_of_resolve hn hold)
    obtain ⟨new, hnew, hsame⟩ := exists_resolve_of_contentAt hn hcontent cwd
    refine ⟨new, hnew, ?_, hsame⟩
    rw [Node.isDir_eq_isNone_content?, hsame, ← Node.isDir_eq_isNone_content?]

/-- Files may be touched by many spellings, from a working directory that moves. -/
theorem files_neither_forged_nor_lost_touched :
    let tree : Node := .directory "/" [.directory "d" [.file "f" "x"], .file "g" "y"]
    let s : Session := ⟨[], tree, "d", .none⟩
    let lines := ["touch f ../g/ h; cd .. && mkdir d//e/", "cat d/./f g"]
    let after := Registry.builtins.executeAll .standard lines s
    s.tree.WellFormed ∧
      (∀ line ∈ lines, ∀ group ∈ Line.parse line, ∀ inv ∈ group, inv.name ≠ "rm") ∧
      after.tree = .directory "/"
        [.directory "d" [.file "f" "x", .file "h" "", .directory "e" []], .file "g" "y"] ∧
      (∃ new, resolve after.tree "" (ofNames ["d", "f"]) = .ok ⟨ofNames ["d", "f"], new⟩ ∧
        new.isDir = false ∧ new.content? = some "x") ∧
      ("y" = "" ∨ ∃ old, resolve s.tree "" (ofNames ["g"]) = .ok ⟨ofNames ["g"], old⟩ ∧
        old.content? = some "y") := by
  intro tree s lines after
  have h : s.tree.WellFormed := by decide
  have hrm : ∀ line ∈ lines, ∀ group ∈ Line.parse line, ∀ inv ∈ group, inv.name ≠ "rm" := by
    decide +kernel
  have hafter : after.tree = .directory "/"
      [.directory "d" [.file "f" "x", .file "h" "", .directory "e" []], .file "g" "y"] := by
    decide +kernel
  have hdf : ∀ n ∈ ["d", "f"], isValidName n = true := by decide
  have hg : ∀ n ∈ ["g"], isValidName n = true := by decide
  obtain ⟨hforged, hlost⟩ := files_neither_forged_nor_lost .standard lines h
  refine ⟨h, hrm, hafter, ?_, ?_⟩
  · exact hlost hrm _ (Path.isCanonical_iff.mpr ⟨_, hdf, rfl⟩) "" ⟨_, .file "f" "x"⟩
      ((resolve_ofNames_eq_ok_iff hdf).mpr ⟨rfl, rfl⟩)
  · exact hforged _ (Path.isCanonical_iff.mpr ⟨_, hg, rfl⟩) "" ⟨_, .file "g" "y"⟩ "y"
      ((resolve_ofNames_eq_ok_iff hg).mpr ⟨rfl, by rw [hafter]; rfl⟩) rfl

end MemoryShell
