import MemoryShell.Proofs.Creation
import MemoryShell.Proofs.Removal

/-!
# A removal undoes a creation

To remove what was just created leaves the very tree that there was, and not only one that looks
like it through paths. Headlines:

* `Node.withoutChild_withChild`: a directory after one child more and one child less;
* `InsertedAt.not_busy`: the working directory never lies in the new node;
* `removal_undoes_creation`: a creation and a removal, at the same expression or at the path of the
  new node.
-/

namespace MemoryShell

open MemoryShell.Path (segments ofNames)

/-- The child added at the end is the first one of its name, so it is the one taken out. -/
theorem Node.withoutChild_withChild {t c : Node} (hd : t.isDir = true)
    (hfree : t.child? c.name = none) : (t.withChild c).withoutChild c.name = t := by
  cases t with
  | file m s => cases hd
  | directory m cs =>
    have hothers : ∀ d ∈ cs, ¬ (d.name == c.name) = true := List.find?_eq_none.mp hfree
    have herase : (cs ++ [c]).eraseP (fun d => d.name == c.name) = cs := by
      rw [List.eraseP_append_right _ hothers, List.eraseP_cons_of_pos (by simp), List.append_nil]
    exact congrArg (directory m) herase

namespace InsertedAt

variable {root new dir : Node} {cwd expr : String} {i : Insertion} {names : List String}
  {here : Location}

/-- A working directory that resolves lies elsewhere than in the new node: it lay where it lies
before the node was there. -/
theorem not_busy (h : InsertedAt root cwd expr new i names dir)
    (hcwd : resolve root cwd "." = .ok here) :
    Path.isWithin (cwdPath i.tree cwd) (ofNames (names ++ [leafName expr])) = false := by
  obtain ⟨node, hafter⟩ := exists_resolve_dot_of_hasDir hcwd fun _ _ hdir => h.hasDir hdir
  obtain ⟨places, hplaces, hpath, hfind⟩ := resolve_eq_ok hcwd
  rw [← Bool.not_eq_true, isWithin_cwdPath_iff i.tree cwd h.validPath, cwdPath_of_resolve hafter,
    hpath, Path.segments_ofNames (Path.pieces_of_valid hplaces)]
  rintro ⟨ks, rfl⟩
  rw [List.append_assoc, Node.find?_append, h.found, Option.bind_some, List.singleton_append,
    Node.find?, h.freeLeaf] at hfind
  cases hfind

/-- **The new node can be removed**, by every expression that leads to it, and then the tree is the
one before. -/
theorem removeAt_eq_ok (h : InsertedAt root cwd expr new i names dir)
    (hname : new.name = leafName expr) (hcwd : resolve root cwd "." = .ok here) {target : String}
    (htarget : resolve i.tree cwd target = .ok ⟨i.path, new⟩) :
    removeAt i.tree cwd target true = .ok ⟨root, new⟩ := by
  have hchild : (dir.withChild new).child? (leafName expr) = some new := by
    rw [← hname]
    exact Node.child?_withChild_self h.freeName
  have hdir : (dir.withChild new).withoutChild (leafName expr) = dir := by
    rw [← hname]
    exact Node.withoutChild_withChild h.isDir h.freeName
  have hback : root = i.tree.updateAt (fun _ => dir) names := by
    rw [h.tree_eq_updateAt, Node.updateAt_updateAt fun t => Node.name_withChild t new]
    exact (Node.updateAt_of_find? h.found).symm
  have hr : RemovedAt i.tree cwd target true ⟨root, new⟩ names (leafName expr)
      (dir.withChild new) := by
    refine ⟨h.validNames, h.validLeaf, ?_, h.not_busy hcwd, fun _ => rfl, h.find?_tree, hchild, ?_⟩
    · rw [htarget, h.path]
    · rwa [hdir]
  exact hr.removeAt_eq_ok

end InsertedAt

/-- **A removal undoes a creation.** Let `make` give the name it is asked for, and let the working
directory lie somewhere. After a creation, a removal at the same expression or at the path of the
new node succeeds with this node, directories included, and leaves the tree that there was, whatever
names it repeats. -/
theorem removal_undoes_creation {root : Node} {cwd expr : String} {make : String → Node}
    {here : Location} {i : Insertion} (hmake : ∀ name, (make name).name = name)
    (hcwd : resolve root cwd "." = .ok here) (hi : insertAt root cwd expr make = .ok i) :
    ∃ leaf, (segments expr).getLast? = some leaf ∧
      ∀ target ∈ [i.path, expr], removeAt i.tree cwd target true = .ok ⟨root, make leaf⟩ := by
  obtain ⟨names, dir, h⟩ := insertAt_eq_ok_iff.mp hi
  have hname : (make (leafName expr)).name = leafName expr := hmake _
  refine ⟨leafName expr, h.asksFor.last, fun target htarget => h.removeAt_eq_ok hname hcwd ?_⟩
  simp only [List.mem_cons, List.not_mem_nil, or_false] at htarget
  rcases htarget with rfl | rfl
  · exact (h.resolve_path_eq_ok_iff cwd).mpr ⟨hname, rfl⟩
  · exact h.resolve_expr hname

/-- A directory may be made, with others in it, among children of one name. -/
theorem removal_undoes_creation_repeated_names :
    let root : Node := .directory ""
      [.directory "d" [.file "f" "1", .file "f" "2"], .directory "d" []]
    let make (name : String) : Node := .directory name [.directory "e" []]
    let i : Insertion := ⟨.directory ""
      [.directory "d" [.file "f" "1", .file "f" "2", .directory "g" [.directory "e" []]],
        .directory "d" []], "/d/g"⟩
    (∀ name, (make name).name = name) ∧
      resolve root "d/../d//" "." = .ok ⟨"/d", .directory "d" [.file "f" "1", .file "f" "2"]⟩ ∧
      insertAt root "d/../d//" "../d/./g//" make = .ok i ∧
      removeAt i.tree "d/../d//" "/d/g" true = .ok ⟨root, make "g"⟩ ∧
      removeAt i.tree "d/../d//" "../d/./g//" true = .ok ⟨root, make "g"⟩ := by
  intro root make i
  have hmake (name : String) : (make name).name = name := rfl
  have hcwd : resolve root "d/../d//" "." =
      .ok ⟨"/d", .directory "d" [.file "f" "1", .file "f" "2"]⟩ := by decide +kernel
  have hi : insertAt root "d/../d//" "../d/./g//" make = .ok i := by decide +kernel
  have hlast : (segments "../d/./g//").getLast? = some "g" := by decide +kernel
  obtain ⟨leaf, hleaf, hremoves⟩ := removal_undoes_creation hmake hcwd hi
  obtain rfl := Option.some.inj (hleaf.symm.trans hlast)
  exact ⟨hmake, hcwd, hi, hremoves _ List.mem_cons_self,
    hremoves _ (List.mem_cons_of_mem _ List.mem_cons_self)⟩

end MemoryShell
