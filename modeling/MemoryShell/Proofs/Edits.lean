import MemoryShell.Proofs.Places
import MemoryShell.Tree.Edit

/-!
# What insertions and removals do

An insertion puts a child at the end of one directory and a removal takes one child out; both say
at which place. Headlines:

* `InsertionEnd`, `RemovalEnd`: how insertions and removals end, case by case;
* `insertAt_eq_ok_iff`: when an insertion succeeds, and what comes of it;
* `removeAt_eq_ok_iff`: the same for a removal;
* `isWithin_cwdPath_iff`: the busy places are those on the way to the working directory;
* `inserting`, `removing`: an edit with its answer and the tree that it leaves, failures included.
-/

namespace MemoryShell

open MemoryShell.Path (isValidName IsPiece segments ofNames normalize splitParent dropFinalSlashes)

variable {root : Node} {cwd expr : String}

/-! ## One directory with a child more or less -/

namespace Node

variable {t c : Node} {n : String}

/-- A directory with one child more, at the end. -/
def withChild (t c : Node) : Node := directory t.name (t.children ++ [c])

/-- A directory without the first child of a name. -/
def withoutChild (t : Node) (n : String) : Node :=
  directory t.name (t.children.eraseP fun d => d.name == n)

@[simp] theorem name_withChild (t c : Node) : (t.withChild c).name = t.name := rfl

@[simp] theorem isDir_withChild (t c : Node) : (t.withChild c).isDir = true := rfl

@[simp] theorem name_withoutChild (t : Node) (n : String) : (t.withoutChild n).name = t.name := rfl

@[simp] theorem isDir_withoutChild (t : Node) (n : String) : (t.withoutChild n).isDir = true := rfl

theorem remove?_eq_some_iff {p : Node × Node} :
    t.remove? n = some p ↔ t.child? n = some p.1 ∧ p.2 = t.withoutChild n := by
  obtain ⟨c, u⟩ := p
  cases t with
  | directory m cs =>
    simp only [remove?, Option.map_eq_some_iff, Prod.mk.injEq, withoutChild]
    constructor
    · rintro ⟨d, hd, rfl, rfl⟩
      exact ⟨hd, rfl⟩
    · rintro ⟨hd, rfl⟩
      exact ⟨c, hd, rfl, rfl⟩
  | file m s => simp [remove?, child?]

theorem insert_of_child? {d : Node} (h : t.child? c.name = some d) :
    t.insert c = .error (.nameTaken c.name) := by
  cases t with
  | directory m cs => simp only [insert, h]
  | file m s => simp [child?] at h

/-- The children there were are found as before. -/
theorem child?_withChild {d : Node} (h : t.child? n = some d) (c : Node) :
    (t.withChild c).child? n = some d := by
  unfold child? at h
  simp [child?, withChild, List.find?_append, h]

theorem child?_withChild_self (h : t.child? c.name = none) :
    (t.withChild c).child? c.name = some c := by
  unfold child? at h
  simp [child?, withChild, List.find?_append, h]

theorem child?_withChild_of_ne {m : String} (h : m ≠ c.name) :
    (t.withChild c).child? m = t.child? m := by
  have hc : (c.name == m) = false := beq_false_of_ne (Ne.symm h)
  simp [child?, withChild, List.find?_append, hc]

theorem child?_withoutChild {m : String} (h : m ≠ n) :
    (t.withoutChild n).child? m = t.child? m := by
  simp only [child?, withoutChild, children_directory]
  induction t.children with
  | nil => rfl
  | cons d ds ih =>
    by_cases hd : d.name = n
    · have hm : (d.name == m) = false := beq_false_of_ne fun he => h (he.symm.trans hd)
      rw [List.eraseP_cons_of_pos (by simpa using hd), List.find?_cons, hm]
    · rw [List.eraseP_cons_of_neg (by simpa using hd), List.find?_cons, List.find?_cons, ih]

/-- Where names are unique, no child of a name is left when the first one is gone. -/
theorem child?_withoutChild_self (h : (t.children.map name).Nodup) (n : String) :
    (t.withoutChild n).child? n = none := by
  simp only [child?, withoutChild, children_directory]
  generalize t.children = cs at h
  induction cs with
  | nil => rfl
  | cons d ds ih =>
    obtain ⟨hd, hds⟩ := List.nodup_cons.mp h
    by_cases hn : d.name = n
    · subst hn
      rw [List.eraseP_cons_of_pos (by simp), List.find?_eq_none]
      intro e he hname
      exact hd (List.mem_map.mpr ⟨e, he, by simpa using hname⟩)
    · rw [List.eraseP_cons_of_neg (by simpa using hn), List.find?_cons, beq_false_of_ne hn]
      exact ih hds

theorem WellNamed.withChild (h : t.WellNamed) (hd : t.isDir = true) (hn : isValidName c.name = true)
    (hc : c.WellNamed) (hfree : t.child? c.name = none) : (t.withChild c).WellNamed := by
  have hw : t.WellFormed := wellFormed_iff_wellNamed.mpr ⟨hd, h⟩
  have hi : t.insert c = .ok (t.withChild c) := insert_eq_ok_iff.mpr ⟨hd, hfree, rfl⟩
  exact (wellFormed_iff_wellNamed.mp (hw.insert hn hc.1 hc.2 hi)).2

theorem WellNamed.withoutChild (h : t.WellNamed) (n : String) : (t.withoutChild n).WellNamed := by
  refine wellNamed_iff.mpr ⟨?_, fun c hc => h.child (List.mem_of_mem_eraseP hc)⟩
  exact (wellNamed_iff.mp h).1.sublist (List.eraseP_sublist.map name)

end Node

/-! ## Insertions -/

/-- What leads to the parent in an expression to insert at. -/
def parentExpr (expr : String) : String := (splitParent (dropFinalSlashes expr)).1.getD "."

/-- The name asked for in an expression to insert at. -/
def leafName (expr : String) : String := (splitParent (dropFinalSlashes expr)).2

/-- An insertion put the node `new` at the end of `dir`, which lies at the place `names`. -/
structure InsertedAt (root : Node) (cwd expr : String) (new : Node) (i : Insertion)
    (names : List String) (dir : Node) : Prop where
  validNames : ∀ n ∈ names, isValidName n = true
  validLeaf : isValidName (leafName expr) = true
  parent : resolve root cwd (parentExpr expr) = .ok ⟨ofNames names, dir⟩
  isDir : dir.isDir = true
  freeLeaf : dir.child? (leafName expr) = none
  freeName : dir.child? new.name = none
  tree : i.tree = root.updateAt (fun _ => dir.withChild new) names
  path : i.path = ofNames (names ++ [leafName expr])

/-- With the parent found and the name free there, the rest is up to the parent. -/
theorem insertAt_of_resolve {names : List String} {dir : Node} (make : String → Node)
    (hleaf : isValidName (leafName expr) = true)
    (hparent : resolve root cwd (parentExpr expr) = .ok ⟨ofNames names, dir⟩)
    (hnames : ∀ n ∈ names, isValidName n = true) (hd : dir.isDir = true)
    (hfree : dir.child? (leafName expr) = none) :
    insertAt root cwd expr make =
      match dir.insert (make (leafName expr)) with
      | .error taken => .error taken.toError
      | .ok u => .ok ⟨root.updateAt (fun _ => u) names, ofNames (names ++ [leafName expr])⟩ := by
  have hpieces : ∀ n ∈ names, IsPiece n := Path.pieces_of_valid hnames
  have hfound : lookup root (ofNames names) = some dir := by
    rw [lookup_ofNames hnames, find?_of_resolve hnames hparent]
  unfold insertAt
  simp only [← leafName.eq_1, ← parentExpr.eq_1]
  cases hi : dir.insert (make (leafName expr)) <;>
    simp only [hleaf, hparent, hd, hfree, hfound, hi, replaceAt, Path.segments_ofNames hpieces,
      Path.under_ofNames hpieces, Bool.not_true, Bool.false_eq_true, if_false, Option.isSome_none]

/-- How an insertion ends: the name is not valid, or the rest of the expression leads nowhere or to
a file, or the name is taken, or the node made bears another name and that one is taken, or the
node is in the tree. -/
inductive InsertionEnd (root : Node) (cwd expr : String) (make : String → Node) : Prop
  | invalidName (leaf : isValidName (leafName expr) = false)
      (ends : insertAt root cwd expr make = .error (.refused .invalidName expr))
  | noParent {e : ShellError} (leaf : isValidName (leafName expr) = true)
      (parent : resolve root cwd (parentExpr expr) = .error e)
      (ends : insertAt root cwd expr make = .error (.refused .noSuchFile expr))
  | notADirectory {parent : Location} (leaf : isValidName (leafName expr) = true)
      (found : resolve root cwd (parentExpr expr) = .ok parent)
      (file : parent.node.isDir = false)
      (ends : insertAt root cwd expr make = .error (.refused .notADirectory expr))
  | fileExists {parent : Location} {c : Node} (leaf : isValidName (leafName expr) = true)
      (found : resolve root cwd (parentExpr expr) = .ok parent)
      (child : parent.node.child? (leafName expr) = some c)
      (ends : insertAt root cwd expr make = .error (.refused .fileExists expr))
  | clash {parent : Location} {c : Node} (leaf : isValidName (leafName expr) = true)
      (found : resolve root cwd (parentExpr expr) = .ok parent)
      (isDir : parent.node.isDir = true) (free : parent.node.child? (leafName expr) = none)
      (child : parent.node.child? (make (leafName expr)).name = some c)
      (ends : insertAt root cwd expr make =
        .error (.refused .fileExists (make (leafName expr)).name))
  | inserted {i : Insertion} {names : List String} {dir : Node}
      (ends : insertAt root cwd expr make = .ok i)
      (inserted : InsertedAt root cwd expr (make (leafName expr)) i names dir)

/-- **Every insertion ends in one of these ways.** That the directory just found could be missing
when it is to be written is ruled out. -/
theorem insertionEnd (root : Node) (cwd expr : String) (make : String → Node) :
    InsertionEnd root cwd expr make := by
  cases hleaf : isValidName (leafName expr) with
  | false =>
    refine .invalidName hleaf ?_
    unfold insertAt
    simp only [← leafName.eq_1, hleaf]
    rfl
  | true =>
    cases hparent : resolve root cwd (parentExpr expr) with
    | error e =>
      refine .noParent hleaf hparent ?_
      unfold insertAt
      simp only [← leafName.eq_1, ← parentExpr.eq_1, hleaf, hparent]
      rfl
    | ok parent =>
      cases hd : parent.node.isDir with
      | false =>
        refine .notADirectory hleaf hparent hd ?_
        unfold insertAt
        simp only [← leafName.eq_1, ← parentExpr.eq_1, hleaf, hparent, hd]
        rfl
      | true =>
        cases hchild : parent.node.child? (leafName expr) with
        | some c =>
          refine .fileExists hleaf hparent hchild ?_
          unfold insertAt
          simp only [← leafName.eq_1, ← parentExpr.eq_1, hleaf, hparent, hd, hchild]
          rfl
        | none =>
          obtain ⟨names, hnames, hpath, -⟩ := resolve_eq_ok hparent
          obtain ⟨path, dir⟩ := parent
          subst hpath
          have hends := insertAt_of_resolve make hleaf hparent hnames hd hchild
          cases hname : dir.child? (make (leafName expr)).name with
          | some c =>
            rw [Node.insert_of_child? hname] at hends
            exact .clash hleaf hparent hd hchild hname hends
          | none =>
            rw [Node.insert_eq_ok_iff.mpr ⟨hd, hname, rfl⟩] at hends
            exact .inserted hends ⟨hnames, hleaf, hparent, hd, hchild, hname, rfl, rfl⟩

/-- **When an insertion succeeds, and what comes of it.** -/
theorem insertAt_eq_ok_iff {make : String → Node} {i : Insertion} :
    insertAt root cwd expr make = .ok i ↔
      ∃ names dir, InsertedAt root cwd expr (make (leafName expr)) i names dir := by
  constructor
  · intro h
    cases insertionEnd root cwd expr make with
    | inserted ends inserted =>
      cases h.symm.trans ends
      exact ⟨_, _, inserted⟩
    | invalidName _ ends => cases h.symm.trans ends
    | noParent _ _ ends => cases h.symm.trans ends
    | notADirectory _ _ _ ends => cases h.symm.trans ends
    | fileExists _ _ _ ends => cases h.symm.trans ends
    | clash _ _ _ _ _ ends => cases h.symm.trans ends
  · rintro ⟨names, dir, h⟩
    obtain ⟨tree, path⟩ := i
    obtain rfl : tree = _ := h.tree
    obtain rfl : path = _ := h.path
    have hu : dir.insert (make (leafName expr)) = .ok (dir.withChild (make (leafName expr))) :=
      Node.insert_eq_ok_iff.mpr ⟨h.isDir, h.freeName, rfl⟩
    rw [insertAt_of_resolve make h.validLeaf h.parent h.validNames h.isDir h.freeLeaf, hu]

namespace InsertedAt

variable {new dir : Node} {i : Insertion} {names : List String}

theorem found (h : InsertedAt root cwd expr new i names dir) : root.find? names = some dir :=
  find?_of_resolve h.validNames h.parent

/-- The tree as a change of the directory, whichever this is. -/
theorem tree_eq_updateAt (h : InsertedAt root cwd expr new i names dir) :
    i.tree = root.updateAt (fun d => d.withChild new) names := by
  rw [h.tree]
  refine Node.updateAt_congr fun d hd => ?_
  rw [Option.some.inj (h.found.symm.trans hd)]

/-- An insertion leaves every directory where it is. -/
theorem hasDir (h : InsertedAt root cwd expr new i names dir) {ms : List String}
    (hms : root.HasDir ms) : i.tree.HasDir ms := by
  rw [h.tree]
  refine hms.updateAt h.found rfl fun ks _ hks => ?_
  cases ks with
  | nil => exact Node.hasDir_nil_iff.mpr rfl
  | cons k ks =>
    obtain ⟨c, hc, hks⟩ := Node.hasDir_cons_iff.mp hks
    exact Node.hasDir_cons_iff.mpr ⟨c, Node.child?_withChild hc new, hks⟩

/-- An insertion of a well-named node under a valid name keeps a tree well formed. -/
theorem wellFormed (h : InsertedAt root cwd expr new i names dir) (hr : root.WellFormed)
    (hn : isValidName new.name = true) (hnew : new.WellNamed) : i.tree.WellFormed := by
  obtain ⟨hrd, hrw⟩ := Node.wellFormed_iff_wellNamed.mp hr
  have hdir : (dir.withChild new).WellNamed :=
    (hrw.find? h.found).withChild h.isDir hn hnew h.freeName
  refine Node.wellFormed_iff_wellNamed.mpr ⟨?_, h.tree ▸ hrw.updateAt h.found rfl hdir⟩
  exact Node.hasDir_nil_iff.mp (h.hasDir (Node.hasDir_nil_iff.mpr hrd))

theorem name_tree (h : InsertedAt root cwd expr new i names dir) : i.tree.name = root.name := by
  rw [h.tree]
  exact Node.name_updateAt h.found rfl

end InsertedAt

/-! ## Removals -/

/-- The canonical path of a working directory without dots spells its names. -/
theorem cwdPath_of_hasNoDots (h : Path.HasNoDots cwd) :
    cwdPath root cwd = ofNames (segments cwd) := by
  rw [← Path.normalize_eq_ofNames]
  unfold cwdPath
  split
  · rename_i here hr
    exact ((resolve_dot_eq_ok_iff h).mp hr).1
  · rfl

/-- The canonical path of a working directory that resolves is where it leads. -/
theorem cwdPath_of_resolve {here : Location} (h : resolve root cwd "." = .ok here) :
    cwdPath root cwd = here.path := by
  rw [cwdPath, h]

theorem segments_cwdPath (root : Node) (h : Path.HasNoDots cwd) :
    segments (cwdPath root cwd) = segments cwd := by
  rw [cwdPath_of_hasNoDots h, Path.segments_ofNames fun n hn => Path.isPiece_of_mem_segments hn]

theorem exists_cwdPath_eq (root : Node) (cwd : String) :
    ∃ names, (∀ n ∈ names, IsPiece n) ∧ cwdPath root cwd = ofNames names := by
  unfold cwdPath
  split
  · rename_i here hr
    obtain ⟨names, hn, hpath, -⟩ := resolve_eq_ok hr
    exact ⟨names, Path.pieces_of_valid hn, hpath⟩
  · exact ⟨segments cwd, fun n hn => Path.isPiece_of_mem_segments hn,
      Path.normalize_eq_ofNames cwd⟩

/-- **The busy places are those on the way to the working directory**, its own included. -/
theorem isWithin_cwdPath_iff (root : Node) (cwd : String) {names : List String}
    (hn : ∀ n ∈ names, isValidName n = true) :
    Path.isWithin (cwdPath root cwd) (ofNames names) = true ↔
      names <+: segments (cwdPath root cwd) := by
  obtain ⟨here, hpieces, hpath⟩ := exists_cwdPath_eq root cwd
  rw [hpath, Path.segments_ofNames hpieces]
  exact Path.isWithin_ofNames_iff hpieces (Path.pieces_of_valid hn)

/-- A removal took the first child named `leaf` out of `dir`, which lies at the place `names`. -/
structure RemovedAt (root : Node) (cwd expr : String) (recursive : Bool) (r : Removal)
    (names : List String) (leaf : String) (dir : Node) : Prop where
  validNames : ∀ n ∈ names, isValidName n = true
  validLeaf : isValidName leaf = true
  target : resolve root cwd expr = .ok ⟨ofNames (names ++ [leaf]), r.removed⟩
  notBusy : Path.isWithin (cwdPath root cwd) (ofNames (names ++ [leaf])) = false
  recursive : r.removed.isDir = true → recursive = true
  found : root.find? names = some dir
  child : dir.child? leaf = some r.removed
  tree : r.tree = root.updateAt (fun _ => dir.withoutChild leaf) names

/-- Such a removal succeeds. -/
theorem RemovedAt.removeAt_eq_ok {recursive : Bool} {r : Removal} {names : List String}
    {leaf : String} {dir : Node} (h : RemovedAt root cwd expr recursive r names leaf dir) :
    removeAt root cwd expr recursive = .ok r := by
  obtain ⟨tree, removed⟩ := r
  obtain rfl : tree = _ := h.tree
  have hpieces : ∀ n ∈ names, IsPiece n := Path.pieces_of_valid h.validNames
  have hrm : dir.remove? leaf = some (removed, dir.withoutChild leaf) :=
    Node.remove?_eq_some_iff.mpr ⟨h.child, rfl⟩
  have hflag : ¬ (removed.isDir && !recursive) = true := by
    have := h.recursive
    revert this
    cases removed.isDir <;> simp
  unfold removeAt
  simp only [h.target, h.notBusy, if_neg hflag, Bool.false_eq_true, if_false,
    Path.splitParent_ofNames (IsPiece.of_isValidName h.validLeaf), Option.getD_some,
    lookup_ofNames h.validNames, h.found, Option.bind_some, hrm, replaceAt,
    Path.segments_ofNames hpieces]

/-- How a removal ends where the expression leads to `target`: this is busy, or it is a directory
and only files may go, or it is gone. -/
inductive RemovalEnd (root : Node) (cwd expr : String) (recursive : Bool) (target : Location) :
    Prop
  | busy (within : segments target.path <+: segments (cwdPath root cwd))
      (ends : removeAt root cwd expr recursive = .error (.refused .busy expr))
  | isADirectory (outside : ¬ segments target.path <+: segments (cwdPath root cwd))
      (refused : target.node.isDir = true ∧ recursive = false)
      (ends : removeAt root cwd expr recursive = .error (.refused .isADirectory expr))
  | removed {r : Removal} {names : List String} {leaf : String} {dir : Node}
      (outside : ¬ segments target.path <+: segments (cwdPath root cwd))
      (allowed : ¬ (target.node.isDir = true ∧ recursive = false))
      (ends : removeAt root cwd expr recursive = .ok r)
      (removed : RemovedAt root cwd expr recursive r names leaf dir)

/-- **Every removal of something ends in one of these ways.** That the parent of the node just
found could be missing, or the node in it, is ruled out. -/
theorem removalEnd (recursive : Bool) {target : Location}
    (h : resolve root cwd expr = .ok target) : RemovalEnd root cwd expr recursive target := by
  obtain ⟨all, hall, hpath, hfind⟩ := resolve_eq_ok h
  obtain ⟨path, node⟩ := target
  subst hpath
  have hsegments : segments (ofNames all) = all := Path.segments_ofNames (Path.pieces_of_valid hall)
  have hwithin := isWithin_cwdPath_iff root cwd hall
  by_cases hbusy : all <+: segments (cwdPath root cwd)
  · refine .busy (by rwa [hsegments]) ?_
    unfold removeAt
    rw [h]
    exact if_pos (hwithin.mpr hbusy)
  have hoff : Path.isWithin (cwdPath root cwd) (ofNames all) = false := by
    rwa [← Bool.not_eq_true, hwithin]
  by_cases hrefused : node.isDir = true ∧ recursive = false
  · refine .isADirectory (by rwa [hsegments]) hrefused ?_
    unfold removeAt
    simp only [h, hoff, hrefused.1, hrefused.2]
    rfl
  -- the root is busy, so the node has a parent
  obtain rfl | ⟨names, leaf, rfl⟩ := List.eq_nil_or_concat all
  · exact absurd List.nil_prefix hbusy
  rw [List.concat_eq_append] at *
  obtain ⟨hnames, hleaf⟩ := Path.valid_of_append hall
  rw [Node.find?_concat] at hfind
  obtain ⟨dir, hdir, hchild⟩ := Option.bind_eq_some_iff.mp hfind
  have hr : RemovedAt root cwd expr recursive
      ⟨root.updateAt (fun _ => dir.withoutChild leaf) names, node⟩ names leaf dir :=
    ⟨hnames, hleaf, h, hoff, fun hd => by simpa [hd] using hrefused, hdir, hchild, rfl⟩
  exact .removed (by rwa [hsegments]) hrefused hr.removeAt_eq_ok hr

/-- **When a removal succeeds, and what comes of it.** -/
theorem removeAt_eq_ok_iff {recursive : Bool} {r : Removal} :
    removeAt root cwd expr recursive = .ok r ↔
      ∃ names leaf dir, RemovedAt root cwd expr recursive r names leaf dir := by
  constructor
  · intro h
    cases htarget : resolve root cwd expr with
    | error e =>
      unfold removeAt at h
      rw [htarget] at h
      cases h
    | ok target =>
      cases removalEnd recursive htarget with
      | busy _ ends => cases h.symm.trans ends
      | isADirectory _ _ ends => cases h.symm.trans ends
      | removed _ _ ends removed =>
        cases h.symm.trans ends
        exact ⟨_, _, _, removed⟩
  · rintro ⟨names, leaf, dir, h⟩
    exact h.removeAt_eq_ok

namespace RemovedAt

variable {recursive : Bool} {r : Removal} {names : List String} {leaf : String} {dir : Node}

theorem validPath (h : RemovedAt root cwd expr recursive r names leaf dir) :
    ∀ n ∈ names ++ [leaf], isValidName n = true := Path.valid_append h.validNames h.validLeaf

/-- The tree as a change of the directory, whichever this is. -/
theorem tree_eq_updateAt (h : RemovedAt root cwd expr recursive r names leaf dir) :
    r.tree = root.updateAt (fun d => d.withoutChild leaf) names := by
  rw [h.tree]
  refine Node.updateAt_congr fun d hd => ?_
  rw [Option.some.inj (h.found.symm.trans hd)]

/-- The working directory does not lie at or below the node removed. -/
theorem not_prefix_cwd (h : RemovedAt root cwd expr recursive r names leaf dir)
    (hdots : Path.HasNoDots cwd) : ¬ names ++ [leaf] <+: segments cwd := by
  rw [← segments_cwdPath root hdots, ← isWithin_cwdPath_iff root cwd h.validPath, h.notBusy]
  exact Bool.false_ne_true

/-- A removal leaves every directory where it is that does not lie at or below the node removed. -/
theorem hasDir (h : RemovedAt root cwd expr recursive r names leaf dir) {ms : List String}
    (hms : root.HasDir ms) (hne : ¬ names ++ [leaf] <+: ms) : r.tree.HasDir ms := by
  rw [h.tree]
  refine hms.updateAt h.found rfl fun ks hks hd => ?_
  cases ks with
  | nil => exact Node.hasDir_nil_iff.mpr rfl
  | cons k ks =>
    obtain ⟨c, hc, hd⟩ := Node.hasDir_cons_iff.mp hd
    have hk : k ≠ leaf := by
      rintro rfl
      exact hne ⟨ks, by rw [hks, List.append_assoc, List.singleton_append]⟩
    exact Node.hasDir_cons_iff.mpr ⟨c, by rwa [Node.child?_withoutChild hk], hd⟩

/-- A removal keeps a tree well formed. -/
theorem wellFormed (h : RemovedAt root cwd expr recursive r names leaf dir)
    (hr : root.WellFormed) : r.tree.WellFormed := by
  obtain ⟨hrd, hrw⟩ := Node.wellFormed_iff_wellNamed.mp hr
  have hdir : (dir.withoutChild leaf).WellNamed := (hrw.find? h.found).withoutChild leaf
  refine Node.wellFormed_iff_wellNamed.mpr ⟨?_, h.tree ▸ hrw.updateAt h.found rfl hdir⟩
  exact Node.hasDir_nil_iff.mp (h.hasDir (Node.hasDir_nil_iff.mpr hrd) (by simp))

theorem name_tree (h : RemovedAt root cwd expr recursive r names leaf dir) :
    r.tree.name = root.name := by
  rw [h.tree]
  exact Node.name_updateAt h.found rfl

end RemovedAt

/-! ## Answers, and the trees left -/

/-- What an edit answers, and the tree that it leaves: after a failure, the tree as it was. -/
def outcome {α : Type} (root : Node) : Except ShellError (α × Node) → Except ShellError α × Node
  | .ok (a, tree) => (.ok a, tree)
  | .error e => (.error e, root)

/-- An insertion, with the path of the new node for an answer. -/
def inserting (cwd expr : String) (make : String → Node) (root : Node) :
    Except ShellError String × Node :=
  outcome root ((insertAt root cwd expr make).map fun i => (i.path, i.tree))

/-- A removal, with the node removed for an answer. -/
def removing (cwd expr : String) (recursive : Bool) (root : Node) :
    Except ShellError Node × Node :=
  outcome root ((removeAt root cwd expr recursive).map fun r => (r.removed, r.tree))

theorem inserting_of_ok {make : String → Node} {i : Insertion}
    (h : insertAt root cwd expr make = .ok i) :
    inserting cwd expr make root = (.ok i.path, i.tree) := by
  rw [inserting, h]
  rfl

theorem inserting_of_error {make : String → Node} {e : ShellError}
    (h : insertAt root cwd expr make = .error e) :
    inserting cwd expr make root = (.error e, root) := by
  rw [inserting, h]
  rfl

theorem removing_of_ok {recursive : Bool} {r : Removal}
    (h : removeAt root cwd expr recursive = .ok r) :
    removing cwd expr recursive root = (.ok r.removed, r.tree) := by
  rw [removing, h]
  rfl

theorem removing_of_error {recursive : Bool} {e : ShellError}
    (h : removeAt root cwd expr recursive = .error e) :
    removing cwd expr recursive root = (.error e, root) := by
  rw [removing, h]
  rfl

end MemoryShell
