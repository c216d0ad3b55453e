import MemoryShell.Proofs.Contents
import MemoryShell.Proofs.Routes
import MemoryShell.Proofs.Surroundings

/-!
# Creating by path

A node is created in the directory that all but the last name of an expression lead to. Headlines:

* `LeafCut`, `leafCut`: how an expression is cut into the way to a directory and a name in it;
* `resolve_leaf_eq_ok_iff`: what it leads to is the child of that name;
* `insertAt_eq_fileExists_iff`, `exists_insertAt_eq_ok_iff`: when an insertion fails because the
  name is taken, and when it succeeds;
* `creation_by_path`: what is in the tree after it, and what was there before;
* `insertion_contract_iff`: what a node of another name than the one asked for breaks.
-/

namespace MemoryShell

open MemoryShell.Path (isValidName IsPiece segments ofNames isAbsolute dropFinalSlashes)

variable {root : Node} {cwd expr : String} {found : Location}

/-! ## The name asked for -/

/-- How an expression is cut to insert at it: there is no name in it, or only one, or a last one
behind others. -/
inductive LeafCut (expr : String) : Prop
  | nothing (names : segments expr = []) (leaf : leafName expr = "")
  | bare (names : segments expr = [leafName expr]) (relative : isAbsolute expr = false)
      (parent : parentExpr expr = ".") (leaf : IsPiece (leafName expr))
  | under (names : segments expr = segments (parentExpr expr) ++ [leafName expr])
      (base : isAbsolute expr = isAbsolute (parentExpr expr)) (leaf : IsPiece (leafName expr))

theorem leafCut (expr : String) : LeafCut expr := by
  have hnames : segments expr = segments (dropFinalSlashes expr) :=
    (Path.segments_dropFinalSlashes expr).symm
  have hbase (h : dropFinalSlashes expr ≠ "") :
      isAbsolute expr = isAbsolute (dropFinalSlashes expr) :=
    (Path.isAbsolute_dropFinalSlashes h).symm
  rcases Path.exists_cut (dropFinalSlashes expr) with hslash | ⟨dir, leaf, hleaf, hcut⟩
  · have hleaf : leafName expr = dropFinalSlashes expr := by
      rw [leafName, Path.splitParent_of_not_mem hslash]
    have hparent : parentExpr expr = "." := by
      rw [parentExpr, Path.splitParent_of_not_mem hslash]
      rfl
    by_cases hempty : dropFinalSlashes expr = ""
    · exact .nothing (by rw [hnames, hempty, Path.segments_empty]) (hleaf.trans hempty)
    · have hpiece : IsPiece (dropFinalSlashes expr) := ⟨hempty, hslash⟩
      refine .bare ?_ ?_ hparent (hleaf ▸ hpiece)
      · rw [hnames, hleaf, Path.segments_of_isPiece hpiece]
      · rw [hbase hempty, Path.isAbsolute_of_isPiece hpiece]
  · have hname : leafName expr = leaf := by
      rw [leafName, hcut, Path.splitParent_append hleaf]
    have hparent : parentExpr expr = if dir = "" then "/" else dir := by
      rw [parentExpr, hcut, Path.splitParent_append hleaf]
      rfl
    by_cases hempty : leaf = ""
    · rw [hempty, String.append_empty] at hcut
      exact .nothing (Path.segments_of_dropFinalSlashes_eq hcut) (hname.trans hempty)
    · have hpiece : IsPiece leaf := ⟨hempty, hleaf⟩
      have hne : dropFinalSlashes expr ≠ "" := by
        rw [hcut]
        intro he
        simpa using congrArg String.toList he
      refine .under ?_ ?_ (hname ▸ hpiece)
      · rw [hnames, hcut, hname, hparent, Path.segments_append, Path.segments_of_isPiece hpiece,
          Path.segments_parent]
      · rw [hbase hne, hcut, hparent, Path.isAbsolute_parent dir leaf]

/-- The name asked for is the last one of the expression. -/
theorem getLast?_segments_eq_some_iff {leaf : String} :
    (segments expr).getLast? = some leaf ↔ leafName expr = leaf ∧ leaf ≠ "" := by
  have hlast (init : List String) (hpiece : IsPiece (leafName expr)) :
      (init ++ [leafName expr]).getLast? = some leaf ↔ leafName expr = leaf ∧ leaf ≠ "" := by
    rw [List.getLast?_concat, Option.some.injEq]
    exact ⟨fun h => ⟨h, h ▸ hpiece.1⟩, fun h => h.1⟩
  cases leafCut expr with
  | nothing names leaf => simp [names, leaf, eq_comm]
  | bare names relative parent leaf => rw [names]; exact hlast [] leaf
  | under names base leaf => rw [names]; exact hlast _ leaf

/-- An insertion comes to ask for a node named `leaf`: this is the last name of the expression, it
is valid, and it is free in the directory that the rest leads to. -/
structure AsksFor (root : Node) (cwd expr leaf : String) : Prop where
  last : (segments expr).getLast? = some leaf
  valid : isValidName leaf = true
  free : ∃ parent, resolve root cwd (parentExpr expr) = .ok parent ∧ parent.node.isDir = true ∧
    parent.node.child? leaf = none

theorem AsksFor.leafName_eq {leaf : String} (h : AsksFor root cwd expr leaf) :
    leafName expr = leaf := (getLast?_segments_eq_some_iff.mp h.last).1

theorem asksFor_leafName {parent : Location} (hleaf : isValidName (leafName expr) = true)
    (hparent : resolve root cwd (parentExpr expr) = .ok parent) (hd : parent.node.isDir = true)
    (hfree : parent.node.child? (leafName expr) = none) :
    AsksFor root cwd expr (leafName expr) := by
  refine ⟨getLast?_segments_eq_some_iff.mpr ⟨rfl, ?_⟩, hleaf, parent, hparent, hd, hfree⟩
  exact (IsPiece.of_isValidName hleaf).1

/-- **An expression leads to the child of its last name** in the directory that the rest leads
to. -/
theorem resolve_leaf_eq_ok_iff (h : isValidName (leafName expr) = true) :
    resolve root cwd expr = .ok found ↔
      ∃ parent, resolve root cwd (parentExpr expr) = .ok parent ∧
        parent.node.child? (leafName expr) = some found.node ∧
          found.path = Path.under parent.path (leafName expr) := by
  cases leafCut expr with
  | nothing names leaf => exact absurd leaf (Path.isValidName_iff.mp h).1.1
  | bare names relative parent leaf =>
    have hroute : route cwd expr = route cwd "" ++ [leafName expr] := by
      rw [route_empty, route, relative, names]
      rfl
    rw [resolve_child_eq_ok_iff hroute h, parent]
    -- the dot that stands for the way passes no file, and neither does the name
    refine exists_congr fun dir => ⟨?_, ?_⟩
    · rintro ⟨hdir, hchild, hpath⟩
      exact ⟨resolve_dot_iff.mpr ⟨hdir, Node.isDir_of_child? hchild⟩, hchild, hpath⟩
    · rintro ⟨hdot, hchild, hpath⟩
      exact ⟨(resolve_dot_iff.mp hdot).1, hchild, hpath⟩
  | under names base leaf =>
    exact resolve_child_eq_ok_iff (route_eq_append base names) h

/-! ## When an insertion fails -/

/-- A failure names the expression, if a node bears the name for which it is asked. -/
theorem token?_of_asksFor {make : String → Node} {e : ShellError}
    (hname : AsksFor root cwd expr (leafName expr) → (make (leafName expr)).name = leafName expr)
    (h : insertAt root cwd expr make = .error e) : e.token? = some expr := by
  cases insertionEnd root cwd expr make with
  | invalidName _ ends => cases h.symm.trans ends; rfl
  | noParent _ _ ends => cases h.symm.trans ends; rfl
  | notADirectory _ _ _ ends => cases h.symm.trans ends; rfl
  | fileExists _ _ _ ends => cases h.symm.trans ends; rfl
  | clash leaf found isDir free child _ =>
    simp [hname (asksFor_leafName leaf found isDir free), free] at child
  | inserted ends _ => cases h.symm.trans ends

section Named

variable {make : String → Node} (hname : (make (leafName expr)).name = leafName expr)
include hname

/-- **A name is taken exactly if the expression leads somewhere.** -/
theorem insertAt_eq_fileExists_iff (hleaf : isValidName (leafName expr) = true) :
    insertAt root cwd expr make = .error (.refused .fileExists expr) ↔
      ∃ found, resolve root cwd expr = .ok found := by
  simp only [resolve_leaf_eq_ok_iff hleaf]
  cases insertionEnd root cwd expr make with
  | invalidName leaf _ => simp [leaf] at hleaf
  | noParent _ parent ends => simp [ends, parent]
  | notADirectory _ found file ends =>
    refine iff_of_false (by simp [ends]) ?_
    rintro ⟨target, parent, hparent, hchild, -⟩
    cases found.symm.trans hparent
    simp [Node.isDir_of_child? hchild] at file
  | @fileExists parent c _ found child ends =>
    exact iff_of_true ends ⟨⟨_, c⟩, parent, found, child, rfl⟩
  | clash _ _ _ free child _ => simp [hname, free] at child
  | inserted ends inserted =>
    refine iff_of_false (by simp [ends]) ?_
    rintro ⟨target, parent, hparent, hchild, -⟩
    cases inserted.parent.symm.trans hparent
    simp [inserted.freeLeaf] at hchild

/-- An insertion succeeds exactly in a directory where the expression leads nowhere. -/
theorem exists_insertAt_eq_ok_iff (hleaf : isValidName (leafName expr) = true) :
    (∃ i, insertAt root cwd expr make = .ok i) ↔
      (∃ parent, resolve root cwd (parentExpr expr) = .ok parent ∧ parent.node.isDir = true) ∧
        ¬ ∃ found, resolve root cwd expr = .ok found := by
  rw [← insertAt_eq_fileExists_iff hname hleaf]
  cases insertionEnd root cwd expr make with
  | invalidName leaf _ => simp [leaf] at hleaf
  | noParent _ parent ends => simp [ends, parent]
  | notADirectory _ found file ends => simp [ends, found, file]
  | fileExists _ _ _ ends => simp [ends]
  | clash _ _ _ free child _ => simp [hname, free] at child
  | inserted ends inserted => simp [ends, inserted.parent, inserted.isDir]

theorem token?_of_insertAt_eq_error {e : ShellError}
    (h : insertAt root cwd expr make = .error e) : e.token? = some expr :=
  token?_of_asksFor (fun _ => hname) h

end Named

/-! ## What an insertion leaves -/

namespace InsertedAt

variable {new dir : Node} {i : Insertion} {names : List String}

theorem validPath (h : InsertedAt root cwd expr new i names dir) :
    ∀ n ∈ names ++ [leafName expr], isValidName n = true :=
  Path.valid_append h.validNames h.validLeaf

theorem path_eq_under (h : InsertedAt root cwd expr new i names dir) :
    i.path = Path.under (ofNames names) (leafName expr) := by
  rw [h.path, Path.under_ofNames (Path.pieces_of_valid h.validNames)]

/-- The path of the new node led nowhere before. -/
theorem resolve_path_ne_ok (h : InsertedAt root cwd expr new i names dir) (cwd' : String)
    (found : Location) : resolve root cwd' i.path ≠ .ok found := by
  have hnone : root.find? (names ++ [leafName expr]) = none := by
    rw [Node.find?_concat, h.found, Option.bind_some, h.freeLeaf]
  rw [h.path]
  exact resolve_ofNames_ne_ok h.validPath hnone cwd' found

/-- Now the expression leads to the new node. -/
theorem resolve_expr (h : InsertedAt root cwd expr new i names dir)
    (hname : new.name = leafName expr) : resolve i.tree cwd expr = .ok ⟨i.path, new⟩ := by
  have hparent : resolve i.tree cwd (parentExpr expr) = .ok ⟨ofNames names, dir.withChild new⟩ :=
    resolve_of_hasDir h.parent h.validNames (fun _ hms => h.hasDir hms) h.find?_tree
  refine (resolve_leaf_eq_ok_iff h.validLeaf).mpr ⟨_, hparent, ?_, h.path_eq_under⟩
  rw [← hname]
  exact Node.child?_withChild_self h.freeName

/-- **An insertion leaves the rest of the tree as it is**, but for the new name in the parent. -/
theorem agreeBeside (h : InsertedAt root cwd expr new i names dir)
    (hname : new.name = leafName expr) :
    root.AgreeBeside i.tree i.path (ofNames names) (· ++ [leafName expr]) := by
  rw [h.tree, h.path]
  refine Node.agreeBeside_updateAt h.validNames h.validLeaf h.found
    (Node.name_withChild dir new) h.isDir (Node.isDir_withChild dir new) ?_ ?_
  · intro m hm
    exact Node.child?_withChild_of_ne (hname ▸ hm)
  · simp [Node.childNames, Node.withChild, hname]

end InsertedAt

/-- **Creation by path.** Let `make` give the name it is asked for, and let the last name of an
expression be a valid one. Then creation there fails because the name is taken exactly if the
expression leads somewhere, and succeeds exactly if it leads nowhere, but the rest of it to a
directory. After a success the expression leads to the new node, at a canonical path that led
nowhere before; outside of this path the tree is as before, but for the new name, which is the last
one in the parent. Every failure names the expression and leaves the tree as it was: the creation
itself, and creations one after another, which stop with this tree or go on with it. -/
theorem creation_by_path (root : Node) (cwd expr : String) {make : String → Node}
    (hmake : ∀ name, (make name).name = name) :
    (∀ leaf, (segments expr).getLast? = some leaf → isValidName leaf = true →
      (insertAt root cwd expr make = .error (.refused .fileExists expr) ↔
        ∃ found, resolve root cwd expr = .ok found) ∧
      ((∃ i, insertAt root cwd expr make = .ok i) ↔
        (∃ parent, resolve root cwd (parentExpr expr) = .ok parent ∧ parent.node.isDir = true) ∧
          ¬ ∃ found, resolve root cwd expr = .ok found)) ∧
    (∀ i, insertAt root cwd expr make = .ok i →
      ∃ parent leaf, (segments expr).getLast? = some leaf ∧ isValidName leaf = true ∧
        Path.IsCanonical i.path ∧ Path.IsCanonical parent ∧ i.path = Path.under parent leaf ∧
        resolve i.tree cwd expr = .ok ⟨i.path, make leaf⟩ ∧
        (∀ cwd' found, resolve root cwd' i.path ≠ .ok found) ∧
        root.AgreeBeside i.tree i.path parent (· ++ [leaf])) ∧
    ∀ e, insertAt root cwd expr make = .error e →
      let create := fun t expr => (insertAt t cwd expr make).map Insertion.tree
      e.token? = some expr ∧ inserting cwd expr make root = (.error e, root) ∧ ∀ rest,
        untilFailure create root (expr :: rest) = (root, some e) ∧
        despiteFailures create root (expr :: rest) =
          ((despiteFailures create root rest).1, some e) := by
  have hname : (make (leafName expr)).name = leafName expr := hmake _
  refine ⟨fun leaf hlast hvalid => ?_, fun i hi => ?_, fun e he => ?_⟩
  · obtain ⟨rfl, -⟩ := getLast?_segments_eq_some_iff.mp hlast
    exact ⟨insertAt_eq_fileExists_iff hname hvalid, exists_insertAt_eq_ok_iff hname hvalid⟩
  · obtain ⟨names, dir, h⟩ := insertAt_eq_ok_iff.mp hi
    have hlast : (segments expr).getLast? = some (leafName expr) :=
      getLast?_segments_eq_some_iff.mpr ⟨rfl, (IsPiece.of_isValidName h.validLeaf).1⟩
    exact ⟨ofNames names, leafName expr, hlast, h.validLeaf,
      Path.isCanonical_iff.mpr ⟨_, h.validPath, h.path⟩,
      Path.isCanonical_iff.mpr ⟨_, h.validNames, rfl⟩, h.path_eq_under, h.resolve_expr hname,
      h.resolve_path_ne_ok, h.agreeBeside hname⟩
  · have hcreate : (insertAt root cwd expr make).map Insertion.tree = .error e := by rw [he]; rfl
    exact ⟨token?_of_insertAt_eq_error hname he, inserting_of_error he, fun rest =>
      ⟨untilFailure_cons_error hcreate rest, despiteFailures_cons_error hcreate rest⟩⟩

/-- Of two directories of one name, the first takes the new node. -/
theorem creation_by_path_repeated_names :
    let root : Node := .directory "" [.directory "d" [.file "f" "x"], .directory "d" []]
    let make (name : String) : Node := .file name "new"
    let i : Insertion := ⟨.directory ""
      [.directory "d" [.file "f" "x", .file "g" "new"], .directory "d" []], "/d/g"⟩
    (∀ name, (make name).name = name) ∧
      insertAt root "d//" "../d/./g//" make = .ok i ∧
      (∃ parent leaf, i.path = Path.under parent leaf ∧
        resolve i.tree "d//" "../d/./g//" = .ok ⟨i.path, make leaf⟩ ∧
        root.AgreeBeside i.tree i.path parent (· ++ [leaf])) ∧
      insertAt root "d//" "f/" make = .error (.refused .fileExists "f/") := by
  intro root make i
  have hmake (name : String) : (make name).name = name := rfl
  have hparent : resolve root "d//" "../d/." = .ok ⟨"/d", .directory "d" [.file "f" "x"]⟩ := by
    have hroute : route "d//" "../d/." = ["d", "..", "d", "."] := by decide +kernel
    rw [resolve, hroute]
    rfl
  have hi : insertAt root "d//" "../d/./g//" make = .ok i := by
    have hcut : Path.splitParent (dropFinalSlashes "../d/./g//") = (some "../d/.", "g") := by
      decide +kernel
    simp only [insertAt, hcut, Option.getD_some, hparent]
    rfl
  have hf : resolve root "d//" "f/" = .ok ⟨"/d/f", .file "f" "x"⟩ := by
    have hroute : route "d//" "f/" = ["d", "f"] := by decide +kernel
    rw [resolve, hroute]
    rfl
  obtain ⟨parent, leaf, -, -, -, -, hpath, hresolve, -, hbeside⟩ :=
    (creation_by_path root "d//" "../d/./g//" hmake).2.1 i hi
  refine ⟨hmake, hi, ⟨parent, leaf, hpath, hresolve, hbeside⟩, ?_⟩
  obtain ⟨htaken, -⟩ :=
    (creation_by_path root "d//" "f/" hmake).1 "f" (by decide +kernel) (by decide)
  exact htaken.mpr ⟨_, hf⟩

/-! ## Nodes of another name -/

/-- What an insertion should keep to, whatever `make` builds: a failure names the expression, and
the path given back leads to the node built for the name asked for. -/
structure InsertionContract (root : Node) (cwd expr : String) (make : String → Node) : Prop where
  failure : ∀ e, insertAt root cwd expr make = .error e → e.token? = some expr
  success : ∀ i, insertAt root cwd expr make = .ok i →
    ∃ leaf, AsksFor root cwd expr leaf ∧
      ∀ cwd', resolve i.tree cwd' i.path = .ok ⟨i.path, make leaf⟩

namespace InsertedAt

variable {new dir : Node} {i : Insertion} {names : List String}

theorem asksFor (h : InsertedAt root cwd expr new i names dir) :
    AsksFor root cwd expr (leafName expr) :=
  asksFor_leafName h.validLeaf h.parent h.isDir h.freeLeaf

/-- **The path given back leads to the new node if this bears the name asked for**, and nowhere
otherwise. -/
theorem resolve_path_eq_ok_iff (h : InsertedAt root cwd expr new i names dir) (cwd' : String)
    {found : Location} :
    resolve i.tree cwd' i.path = .ok found ↔
      new.name = leafName expr ∧ found = ⟨i.path, new⟩ := by
  have hfind : i.tree.find? (names ++ [leafName expr]) =
      (dir.withChild new).child? (leafName expr) := by
    rw [Node.find?_concat, h.find?_tree, Option.bind_some]
  obtain ⟨path, node⟩ := found
  rw [h.path, resolve_ofNames_eq_ok_iff h.validPath, hfind, Location.mk.injEq]
  by_cases hname : new.name = leafName expr
  · rw [← hname, Node.child?_withChild_self h.freeName]
    simp [eq_comm (a := new)]
  · rw [Node.child?_withChild_of_ne (Ne.symm hname), h.freeLeaf]
    simp [hname]

end InsertedAt

/-- In a tree with valid names, what stands beside a free last name is not the whole expression. -/
theorem ne_expr_of_child? {dir c : Node} {name : String} (hdir : dir.HasValidNames)
    (hfree : dir.child? (leafName expr) = none) (hchild : dir.child? name = some c) :
    name ≠ expr := by
  rintro rfl
  have hvalid : isValidName name = true := by
    have hc := (Node.hasValidNames_iff.mp hdir c (Node.mem_children_of_child? hchild)).1
    rwa [Node.name_of_child? hchild] at hc
  have hpiece : IsPiece name := IsPiece.of_isValidName hvalid
  have hlast : (segments name).getLast? = some name := by
    rw [Path.segments_of_isPiece hpiece]
    rfl
  rw [(getLast?_segments_eq_some_iff.mp hlast).1, hchild] at hfree
  cases hfree

/-- What comes of a node that does not bear the name asked for: it clashes with another node, and
the failure does not name the expression, or it is put where the path given back does not lead. -/
theorem insertAt_of_name_ne {make : String → Node} {leaf : String} (hroot : root.WellFormed)
    (hasks : AsksFor root cwd expr leaf) (hne : (make leaf).name ≠ leaf) :
    (insertAt root cwd expr make = .error (.refused .fileExists (make leaf).name) ∧
      (make leaf).name ≠ expr) ∨
    ∃ i, insertAt root cwd expr make = .ok i ∧
      ∀ cwd' found, resolve i.tree cwd' i.path ≠ .ok found := by
  obtain rfl := hasks.leafName_eq
  obtain ⟨dir, hparent, hd, hfree⟩ := hasks.free
  cases insertionEnd root cwd expr make with
  | invalidName leaf _ => simp [hasks.valid] at leaf
  | noParent _ parent _ => cases hparent.symm.trans parent
  | notADirectory _ found file _ =>
    cases hparent.symm.trans found
    simp [hd] at file
  | fileExists _ found child _ =>
    cases hparent.symm.trans found
    simp [hfree] at child
  | clash _ found _ free child ends =>
    obtain ⟨names, -, -, hfind⟩ := resolve_eq_ok found
    exact .inl ⟨ends, ne_expr_of_child? (hroot.validNames.find? hfind) free child⟩
  | inserted ends inserted =>
    refine .inr ⟨_, ends, fun cwd' found hfound => hne ?_⟩
    exact ((inserted.resolve_path_eq_ok_iff cwd').mp hfound).1

/-- A node that bears the name asked for makes an insertion keep to its contract. -/
theorem InsertionContract.of_name {make : String → Node}
    (h : ∀ leaf, AsksFor root cwd expr leaf → (make leaf).name = leaf) :
    InsertionContract root cwd expr make := by
  refine ⟨fun e he => token?_of_asksFor (h _) he, fun i hi => ?_⟩
  obtain ⟨names, dir, hi⟩ := insertAt_eq_ok_iff.mp hi
  exact ⟨_, hi.asksFor, fun cwd' => (hi.resolve_path_eq_ok_iff cwd').mpr ⟨h _ hi.asksFor, rfl⟩⟩

/-- **An insertion keeps to its contract exactly if the node bears the name asked for.** In a
well-formed tree, every failure names the expression and the path given back leads to the new node,
if `make` builds a node of the name that it is asked for, or is not asked at all. Any other node
breaks the contract: either its own name is taken, and the failure gives this name and not the
expression, or it is in the tree under its own name, and the path given back leads nowhere. -/
theorem insertion_contract_iff (hroot : root.WellFormed) (cwd expr : String)
    (make : String → Node) :
    (InsertionContract root cwd expr make ↔
      ∀ leaf, AsksFor root cwd expr leaf → (make leaf).name = leaf) ∧
    ∀ leaf, AsksFor root cwd expr leaf → (make leaf).name ≠ leaf →
      (insertAt root cwd expr make = .error (.refused .fileExists (make leaf).name) ∧
        (make leaf).name ≠ expr) ∨
      ∃ i, insertAt root cwd expr make = .ok i ∧
        ∀ cwd' found, resolve i.tree cwd' i.path ≠ .ok found := by
  refine ⟨⟨fun hcontract leaf hasks => ?_, .of_name⟩, fun leaf => insertAt_of_name_ne hroot⟩
  by_contra hne
  rcases insertAt_of_name_ne hroot hasks hne with ⟨hfails, htoken⟩ | ⟨i, hi, hnowhere⟩
  · exact htoken (Option.some.inj (hcontract.failure _ hfails))
  · obtain ⟨asked, -, hfound⟩ := hcontract.success i hi
    exact hnowhere "" _ (hfound "")

/-- A node that always bears one name keeps the contract where this name is asked for. -/
theorem insertion_contract_iff_one_name :
    let root : Node := .directory "/" [.directory "d" []]
    let make (_ : String) : Node := .file "x" "new"
    root.WellFormed ∧ InsertionContract root "/d" ".././x//" make ∧
      insertAt root "/d" ".././x//" make =
        .ok ⟨.directory "/" [.directory "d" [], .file "x" "new"], "/x"⟩ := by
  intro root make
  have hroot : root.WellFormed := by decide
  refine ⟨hroot, (insertion_contract_iff hroot "/d" ".././x//" make).1.mpr ?_, by decide +kernel⟩
  intro leaf hasks
  have hlast : (segments ".././x//").getLast? = some "x" := by decide +kernel
  exact Option.some.inj (hlast.symm.trans hasks.last)

/-- A node of another name is not named by the failure, nor found at the path given back. -/
theorem insertion_breaks_contract :
    let root : Node := .directory "/" [.directory "a" []]
    let tree : Node := .directory "/" [.directory "a" [], .directory "y" []]
    root.WellFormed ∧
      insertAt root "/" "x" (fun _ => .directory "a" []) = .error (.refused .fileExists "a") ∧
      insertAt root "/" "x" (fun _ => .directory "y" []) = .ok ⟨tree, "/x"⟩ ∧
      resolve tree "/" "/x" = .error (.refused .noSuchFile "/x") := by
  refine ⟨by decide, ?_, ?_, ?_⟩ <;> decide +kernel

end MemoryShell
