import MemoryShell.Proofs.Contents
import MemoryShell.Proofs.Routes
import MemoryShell.Proofs.Surroundings

/-!
# Removing by path

The node that an expression leads to is removed, unless the working directory lies in it, or it is
a directory and only files may go. Headlines:

* `RemovedAt.agreeBeside`: what a removal leaves as it is;
* `RemovedAt.resolve_expr_ne_ok`: where names are unique, nothing comes to lie where the node was;
* `removeAt_eq_noSuchFile_iff`, `removeAt_eq_busy_iff`, `removeAt_eq_isADirectory_iff`: when a
  removal fails;
* `removal_by_path`: what is refused, and what is in the tree after a removal;
* `removal_keeps_cwd`: when the working directory outlasts it.
-/

namespace MemoryShell

open MemoryShell.Path (segments ofNames)

variable {root : Node} {cwd expr : String} {recursive : Bool} {target : Location}

/-! ## What a removal leaves -/

theorem Node.childNames_withoutChild (t : Node) (n : String) :
    (t.withoutChild n).childNames = t.childNames.erase n := by
  rw [childNames, childNames, withoutChild, children_directory, List.erase_eq_eraseP',
    List.eraseP_map]
  rfl

namespace RemovedAt

variable {r : Removal} {names : List String} {leaf : String} {dir : Node}

/-- **A removal leaves the rest of the tree as it is**, but for the one name in the parent. -/
theorem agreeBeside (h : RemovedAt root cwd expr recursive r names leaf dir) :
    root.AgreeBeside r.tree (ofNames (names ++ [leaf])) (ofNames names) (·.erase leaf) := by
  rw [h.tree]
  exact Node.agreeBeside_updateAt h.validNames h.validLeaf h.found
    (Node.name_withoutChild dir leaf) (Node.isDir_of_child? h.child)
    (Node.isDir_withoutChild dir leaf) (fun m hm => Node.child?_withoutChild hm)
    (Node.childNames_withoutChild dir leaf)

/-- Where the node was, nothing is left if no other child of its parent bears its name. -/
theorem find?_path (h : RemovedAt root cwd expr recursive r names leaf dir)
    (hunique : dir.childNames.Nodup) : r.tree.find? (names ++ [leaf]) = none := by
  rw [Node.find?_concat, h.find?_tree, Option.bind_some, Node.child?_withoutChild_self hunique]

/-- The expression could still lead to the place where the node was, and to no other. -/
theorem resolve_expr_ne_ok (h : RemovedAt root cwd expr recursive r names leaf dir)
    (hunique : dir.childNames.Nodup) (found : Location) :
    resolve r.tree cwd expr ≠ .ok found := by
  intro hfound
  obtain ⟨-, -, hbefore⟩ := resolve_eq_ok_iff.mp h.target
  obtain ⟨-, hafter, -⟩ := resolve_eq_ok_iff.mp hfound
  have hplace : names ++ [leaf] = Path.placeOf (route cwd expr) :=
    Path.ofNames_inj (Path.pieces_of_valid h.validPath)
      (Path.pieces_of_valid (valid_placeOf_route cwd expr)) hbefore
  rw [← hplace, h.find?_path hunique] at hafter
  cases hafter

end RemovedAt

/-! ## When a removal fails -/

theorem removeAt_eq_noSuchFile_iff :
    removeAt root cwd expr recursive = .error (.refused .noSuchFile expr) ↔
      ¬ ∃ target, resolve root cwd expr = .ok target := by
  cases htarget : resolve root cwd expr with
  | error e =>
    unfold removeAt
    simp [htarget, resolve_eq_error htarget]
  | ok target =>
    cases removalEnd recursive htarget with
    | busy _ ends => simp [ends]
    | isADirectory _ _ ends => simp [ends]
    | removed _ _ ends _ => simp [ends]

/-- The root lies on the way to every working directory. -/
theorem segments_prefix_cwdPath_of_root (h : target.path = "/") :
    segments target.path <+: segments (cwdPath root cwd) := by
  have hroot : segments "/" = [] := by decide
  rw [h, hroot]
  exact List.nil_prefix

section Found

variable (h : resolve root cwd expr = .ok target)
include h

theorem removeAt_eq_busy_iff :
    removeAt root cwd expr recursive = .error (.refused .busy expr) ↔
      target.path = "/" ∨ segments target.path <+: segments (cwdPath root cwd) := by
  rw [or_iff_right_of_imp segments_prefix_cwdPath_of_root]
  cases removalEnd recursive h with
  | busy within ends => exact iff_of_true ends within
  | isADirectory outside _ ends => simp [ends, outside]
  | removed outside _ ends _ => simp [ends, outside]

theorem removeAt_eq_isADirectory_iff
    (houtside : ¬ segments target.path <+: segments (cwdPath root cwd)) :
    removeAt root cwd expr recursive = .error (.refused .isADirectory expr) ↔
      target.node.isDir = true ∧ recursive = false := by
  cases removalEnd recursive h with
  | busy within _ => exact absurd within houtside
  | isADirectory _ refused ends => exact iff_of_true ends refused
  | removed _ allowed ends _ => simpa [ends] using allowed

theorem exists_removedAt (houtside : ¬ segments target.path <+: segments (cwdPath root cwd))
    (hallowed : ¬ (target.node.isDir = true ∧ recursive = false)) :
    ∃ r names leaf dir, RemovedAt root cwd expr recursive r names leaf dir ∧
      target = ⟨ofNames (names ++ [leaf]), r.removed⟩ := by
  cases removalEnd recursive h with
  | busy within _ => exact absurd within houtside
  | isADirectory _ refused _ => exact absurd refused hallowed
  | removed _ _ _ removed =>
    exact ⟨_, _, _, _, removed, Except.ok.inj (h.symm.trans removed.target)⟩

end Found

/-- **Removal by path.** A removal fails because there is no such file exactly if its expression
leads nowhere. Otherwise it fails because the node found is busy exactly if this is the root, or the
working directory, or above it; then because the node is a directory, exactly if it is one and only
files may go. In all other cases it succeeds, with the node found. Outside of the path of this node
the tree is as before, but for its name in the parent; and if the names there are unique, neither
the path nor the expression leads anywhere any more. A failure leaves the tree as it was: the
removal itself, and removals one after another, which stop with this tree. -/
theorem removal_by_path (root : Node) (cwd expr : String) (recursive : Bool) :
    (removeAt root cwd expr recursive = .error (.refused .noSuchFile expr) ↔
      ¬ ∃ target, resolve root cwd expr = .ok target) ∧
    (∀ target, resolve root cwd expr = .ok target →
      let busy := target.path = "/" ∨ segments target.path <+: segments (cwdPath root cwd)
      let refused := target.node.isDir = true ∧ recursive = false
      (removeAt root cwd expr recursive = .error (.refused .busy expr) ↔ busy) ∧
      (¬ busy → (removeAt root cwd expr recursive = .error (.refused .isADirectory expr) ↔
        refused)) ∧
      (¬ busy → ¬ refused → ∃ r parent leaf dir, removeAt root cwd expr recursive = .ok r ∧
        r.removed = target.node ∧ target.path = Path.under parent leaf ∧
        resolve root cwd parent = .ok ⟨parent, dir⟩ ∧
        root.AgreeBeside r.tree target.path parent (·.erase leaf) ∧
        (dir.childNames.Nodup → ∀ found,
          (∀ cwd', resolve r.tree cwd' target.path ≠ .ok found) ∧
            resolve r.tree cwd expr ≠ .ok found))) ∧
    ∀ e, removeAt root cwd expr recursive = .error e →
      removing cwd expr recursive root = (.error e, root) ∧ ∀ rest,
        untilFailure (removeNode recursive cwd) root (expr :: rest) = (root, some e) := by
  refine ⟨removeAt_eq_noSuchFile_iff, fun target htarget => ?_, fun e he => ?_⟩
  · refine ⟨removeAt_eq_busy_iff htarget, fun hbusy => ?_, fun hbusy hallowed => ?_⟩
    · exact removeAt_eq_isADirectory_iff htarget fun hwithin => hbusy (.inr hwithin)
    · obtain ⟨r, names, leaf, dir, hr, rfl⟩ :=
        exists_removedAt htarget (fun hwithin => hbusy (.inr hwithin)) hallowed
      refine ⟨r, ofNames names, leaf, dir, removeAt_eq_ok_iff.mpr ⟨names, leaf, dir, hr⟩, rfl, ?_,
        ?_, hr.agreeBeside, fun hunique found => ?_⟩
      · exact (Path.under_ofNames (Path.pieces_of_valid hr.validNames)).symm
      · exact (resolve_ofNames_eq_ok_iff hr.validNames).mpr ⟨rfl, hr.found⟩
      · exact ⟨fun cwd' => resolve_ofNames_ne_ok hr.validPath (hr.find?_path hunique) cwd' found,
          hr.resolve_expr_ne_ok hunique found⟩
  · have hremove : removeNode recursive cwd root expr = .error e := by
      rw [removeNode, he]
      rfl
    exact ⟨removing_of_error he, fun rest => untilFailure_cons_error hremove rest⟩

/-- A sibling whose name goes on from the other's is not below it. -/
example : ¬ segments "/a" <+: segments "/ab" ∧ segments "/a" <+: segments "/a/b" := by
  decide +kernel

/-! ## The working directory afterwards -/

namespace RemovedAt

variable {r : Removal} {names : List String} {leaf : String} {dir : Node} {here : Location}

/-- The way to the working directory is cut only at or below the node removed, and not even there
if another child of its name takes its place. -/
theorem resolves_cwd_iff (h : RemovedAt root cwd expr recursive r names leaf dir)
    (hcwd : resolve root cwd "." = .ok here) :
    (∃ node, resolve r.tree cwd "." = .ok ⟨here.path, node⟩) ↔
      ∀ place ∈ Path.stops cwd, names ++ [leaf] <+: place → r.tree.HasDir place := by
  constructor
  · exact fun hstays place hplace _ =>
      (exists_resolve_dot_iff.mp hstays).1 place hplace
  · intro hbelow
    refine exists_resolve_dot_of_hasDir hcwd fun place hplace hdir => ?_
    by_cases hp : names ++ [leaf] <+: place
    · exact hbelow place hplace hp
    · exact h.hasDir hdir hp

/-- Where names are unique, no directory is left at and below the node removed. -/
theorem not_hasDir (h : RemovedAt root cwd expr recursive r names leaf dir)
    (hunique : dir.childNames.Nodup) {place : List String} (hp : names ++ [leaf] <+: place) :
    ¬ r.tree.HasDir place := by
  rintro ⟨d, hd, -⟩
  obtain ⟨ks, rfl⟩ := hp
  rw [Node.find?_append, h.find?_path hunique] at hd
  cases hd

end RemovedAt

/-- **A removal keeps the working directory, unless its spelling leads through the node removed.**
Let the working directory resolve, and let a removal succeed. Then it resolves afterwards, to the
same path, exactly if each place that its names lead through, at or below the node removed, is still
a directory: by another child of the same name, so where names are unique, exactly if they lead
through no such place. A working directory without dots always resolves to where it did. -/
theorem removal_keeps_cwd {here : Location} {r : Removal} (hcwd : resolve root cwd "." = .ok here)
    (hr : removeAt root cwd expr recursive = .ok r) :
    ∃ target, resolve root cwd expr = .ok target ∧
      let stays := ∃ node, resolve r.tree cwd "." = .ok ⟨here.path, node⟩
      let below (place : List String) := segments target.path <+: place
      (stays ↔ ∀ place ∈ Path.stops cwd, below place → r.tree.HasDir place) ∧
      (root.HasUniqueNames → (stays ↔ ∀ place ∈ Path.stops cwd, ¬ below place)) ∧
      (Path.HasNoDots cwd → stays) ∧
      (¬ stays → resolve r.tree cwd "." = .error (.refused .noSuchFile ".")) := by
  obtain ⟨names, leaf, dir, h⟩ := removeAt_eq_ok_iff.mp hr
  have hplace : segments (ofNames (names ++ [leaf])) = names ++ [leaf] :=
    Path.segments_ofNames (Path.pieces_of_valid h.validPath)
  refine ⟨_, h.target, ?_⟩
  simp only [hplace]
  refine ⟨h.resolves_cwd_iff hcwd, fun hunique => ?_, fun hdots => ?_, fun hgone => ?_⟩
  · have hnodup : dir.childNames.Nodup := (Node.hasUniqueNames_iff.mp (hunique.find? h.found)).1
    rw [h.resolves_cwd_iff hcwd]
    exact forall₂_congr fun place _ => ⟨fun hkept hp => h.not_hasDir hnodup hp (hkept hp),
      fun hoff hp => absurd hp hoff⟩
  · refine (h.resolves_cwd_iff hcwd).mpr fun place hmem hp => ?_
    exact absurd (hp.trans (Path.prefix_of_mem_stops hdots hmem)) (h.not_prefix_cwd hdots)
  · cases hafter : resolve r.tree cwd "." with
    | error e => rw [resolve_eq_error hafter]
    | ok found =>
      refine absurd ⟨found.node, ?_⟩ hgone
      have hpath : found.path = here.path :=
        (exists_resolve_dot_iff.mp ⟨found.node, hafter⟩).2.trans
          (exists_resolve_dot_iff.mp ⟨here.node, hcwd⟩).2.symm
      rw [hafter, ← hpath]

/-- Another directory of the same name may take the place of the one on the way. -/
theorem removal_keeps_cwd_same_name :
    let root : Node := .directory ""
      [.directory "a" [.file "f" ""], .directory "a" [], .directory "b" []]
    let rest : Node := .directory "" [.directory "a" [], .directory "b" []]
    let cwd := "a/../b//"
    resolve root cwd "." = .ok ⟨"/b", .directory "b" []⟩ ∧
      removeAt root cwd "/a" true = .ok ⟨rest, .directory "a" [.file "f" ""]⟩ ∧
      ∃ node, resolve rest cwd "." = .ok ⟨"/b", node⟩ := by
  intro root rest cwd
  have hcwd : resolve root cwd "." = .ok ⟨"/b", .directory "b" []⟩ := by decide +kernel
  have hr : removeAt root cwd "/a" true = .ok ⟨rest, .directory "a" [.file "f" ""]⟩ := by
    decide +kernel
  have htarget : resolve root cwd "/a" = .ok ⟨"/a", .directory "a" [.file "f" ""]⟩ := by
    decide +kernel
  obtain ⟨target, ht, hstays, -⟩ := removal_keeps_cwd hcwd hr
  cases htarget.symm.trans ht
  have hstops : Path.stops cwd = [[], ["a"], [], ["b"]] := by decide +kernel
  have hplace : segments "/a" = ["a"] := by decide +kernel
  refine ⟨hcwd, hr, hstays.mpr fun place hmem hbelow => ?_⟩
  simp only [hstops, hplace, List.mem_cons, List.not_mem_nil, or_false] at hmem hbelow
  have ha : rest.HasDir ["a"] := ⟨.directory "a" [], rfl, rfl⟩
  rcases hmem with rfl | rfl | rfl | rfl
  · simp at hbelow
  · exact ha
  · simp at hbelow
  · simp at hbelow

/-- A working directory whose spelling leads through a directory and up again is lost with this
directory, though it does not lie in it. -/
theorem cwd_lost_with_directory_passed :
    let root : Node := .directory "/" [.directory "a" [], .directory "b" []]
    let rest : Node := .directory "/" [.directory "b" []]
    let cwd := "a/../b"
    resolve root cwd "." = .ok ⟨"/b", .directory "b" []⟩ ∧
      removeAt root cwd "/a" true = .ok ⟨rest, .directory "a" []⟩ ∧
      resolve rest cwd "." = .error (.refused .noSuchFile ".") := by
  refine ⟨?_, ?_, ?_⟩ <;> decide +kernel

end MemoryShell
