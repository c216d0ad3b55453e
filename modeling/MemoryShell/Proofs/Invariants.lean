import MemoryShell.Proofs.Changes

/-!
# What every run of lines keeps

Headlines:

* `cwd_stays_placed`: the working directory stays a directory of the tree, whatever the tree;
* `tree_stays_wellFormed`: a well-formed tree stays so, whatever the working directory.
-/

namespace MemoryShell

open MemoryShell.Path (isValidName segments ofNames normalize)
open Session (Change Changes)

variable {s t : Session}

/-! ## The working directory -/

/-- The working directory has no dots, and its names lead to a directory. -/
structure Session.Placed (s : Session) : Prop where
  noDots : Path.HasNoDots s.cwd
  hasDir : s.tree.HasDir (segments s.cwd)

theorem Session.placed_iff :
    s.Placed ↔ Path.HasNoDots s.cwd ∧
      ∃ here, resolve s.tree s.cwd "." = .ok here ∧ here.node.isDir = true ∧
        here.path = normalize s.cwd := by
  constructor
  · rintro ⟨hdots, d, hd, hdir⟩
    have hr : resolve s.tree s.cwd "." = .ok ⟨normalize s.cwd, d⟩ :=
      (resolve_dot_eq_ok_iff hdots).mpr ⟨rfl, hd, hdir⟩
    exact ⟨hdots, ⟨normalize s.cwd, d⟩, hr, hdir, rfl⟩
  · rintro ⟨hdots, here, hr, hdir, -⟩
    exact ⟨hdots, here.node, ((resolve_dot_eq_ok_iff hdots).mp hr).2.1, hdir⟩

/-- One change keeps the working directory: an insertion moves no directory, a removal none on
the way to it. -/
theorem Session.Placed.change (h : s.Placed) (hc : Change s t) : t.Placed := by
  cases hc with
  | log e => exact ⟨h.noDots, h.hasDir⟩
  | clear => exact ⟨h.noDots, h.hasDir⟩
  | enter hr hd =>
    rename_i found
    obtain ⟨names, hn, hp, hf⟩ := resolve_eq_ok hr
    refine ⟨hp ▸ Path.hasNoDots_ofNames hn, found.node, ?_, hd⟩
    simp only [hp, Path.segments_ofNames (Path.pieces_of_valid hn), hf]
  | makeDirectory hi =>
    obtain ⟨names, dir, hi⟩ := insertAt_eq_ok_iff.mp hi
    exact ⟨h.noDots, hi.hasDir h.hasDir⟩
  | makeFile hi =>
    obtain ⟨names, dir, hi⟩ := insertAt_eq_ok_iff.mp hi
    exact ⟨h.noDots, hi.hasDir h.hasDir⟩
  | remove hr =>
    obtain ⟨names, leaf, dir, hr⟩ := removeAt_eq_ok_iff.mp hr
    exact ⟨h.noDots, hr.hasDir h.hasDir (hr.not_prefix_cwd h.noDots)⟩

theorem Session.Placed.changes (h : s.Placed) (hc : Changes s t) : t.Placed := by
  induction hc with
  | refl => exact h
  | tail _ hc ih => exact ih.change hc

/-- **The working directory stays a directory of the tree.** If it has no dots and lies at a
directory, then after any lines it has no dots and lies at a directory, at its canonical
spelling. -/
theorem cwd_stays_placed (messages : Messages) (lines : List String)
    (hdots : Path.HasNoDots s.cwd) {here : Location} (hr : resolve s.tree s.cwd "." = .ok here)
    (hdir : here.node.isDir = true) :
    let after := Registry.builtins.executeAll messages lines s
    Path.HasNoDots after.cwd ∧
      ∃ here, resolve after.tree after.cwd "." = .ok here ∧ here.node.isDir = true ∧
        here.path = normalize after.cwd := by
  have h : s.Placed := ⟨hdots, here.node, ((resolve_dot_eq_ok_iff hdots).mp hr).2.1, hdir⟩
  exact Session.placed_iff.mp (h.changes (Registry.executeAll_changes messages lines s))

/-- Names may be repeated, and the working directory spelled carelessly. -/
theorem cwd_stays_placed_repeated_names :
    let tree : Node := .directory ""
      [.directory "a" [.directory "b" [], .file "b" "x"], .directory "a" []]
    let s : Session := ⟨[], tree, "a//b/", .none⟩
    let after := Registry.builtins.executeAll .standard
      ["rm -r /a/b", "cd ..; rm -r b b && mkdir b"] s
    Path.HasNoDots s.cwd ∧ resolve s.tree s.cwd "." = .ok ⟨"/a/b", .directory "b" []⟩ ∧
      after.cwd = "/a" ∧ Path.HasNoDots after.cwd ∧
        ∃ here, resolve after.tree after.cwd "." = .ok here ∧ here.node.isDir = true ∧
          here.path = normalize after.cwd := by
  intro tree s
  have hdots : Path.HasNoDots s.cwd := by decide
  have hr : resolve s.tree s.cwd "." = .ok ⟨"/a/b", .directory "b" []⟩ :=
    (resolve_dot_eq_ok_iff hdots).mpr ⟨by decide +kernel, by decide +kernel, rfl⟩
  exact ⟨hdots, hr, by decide +kernel, cwd_stays_placed .standard _ hdots hr rfl⟩

/-! ## The tree -/

theorem Session.wellFormed_of_change (h : s.tree.WellFormed) (hc : Change s t) :
    t.tree.WellFormed ∧ t.tree.name = s.tree.name := by
  cases hc with
  | log e => exact ⟨h, rfl⟩
  | clear => exact ⟨h, rfl⟩
  | enter hr hd => exact ⟨h, rfl⟩
  | makeDirectory hi =>
    obtain ⟨names, dir, hi⟩ := insertAt_eq_ok_iff.mp hi
    exact ⟨hi.wellFormed h hi.validLeaf (.of_children_eq_nil rfl), hi.name_tree⟩
  | makeFile hi =>
    obtain ⟨names, dir, hi⟩ := insertAt_eq_ok_iff.mp hi
    exact ⟨hi.wellFormed h hi.validLeaf (.of_children_eq_nil rfl), hi.name_tree⟩
  | remove hr =>
    obtain ⟨names, leaf, dir, hr⟩ := removeAt_eq_ok_iff.mp hr
    exact ⟨hr.wellFormed h, hr.name_tree⟩

theorem Session.wellFormed_of_changes (h : s.tree.WellFormed) (hc : Changes s t) :
    t.tree.WellFormed ∧ t.tree.name = s.tree.name := by
  induction hc with
  | refl => exact ⟨h, rfl⟩
  | tail _ hc ih =>
    obtain ⟨hw, hn⟩ := Session.wellFormed_of_change ih.1 hc
    exact ⟨hw, hn.trans ih.2⟩

/-- **A well-formed tree stays well formed**, and its root keeps its name, through any lines and
from any working directory. -/
theorem tree_stays_wellFormed (messages : Messages) (lines : List String)
    (h : s.tree.WellFormed) :
    let after := Registry.builtins.executeAll messages lines s
    after.tree.WellFormed ∧ after.tree.name = s.tree.name :=
  Session.wellFormed_of_changes h (Registry.executeAll_changes messages lines s)

/-- The working directory may lie nowhere in the tree. -/
theorem tree_stays_wellFormed_dangling_cwd :
    let s : Session := ⟨[], .directory "home" [.directory "a" [], .file "f" ""], "gone/.", .none⟩
    let after := Registry.builtins.executeAll .standard
      ["mkdir x/ /a/c/ /a//c; touch /a/c/", "rm -r /f"] s
    s.tree.WellFormed ∧ after.tree = .directory "home" [.directory "a" [.directory "c" []]] ∧
      after.tree.WellFormed ∧ after.tree.name = "home" := by
  intro s
  have h : s.tree.WellFormed := by decide
  exact ⟨h, by decide +kernel, tree_stays_wellFormed .standard _ h⟩

end MemoryShell
