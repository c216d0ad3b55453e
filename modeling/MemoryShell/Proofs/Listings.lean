import MemoryShell.Proofs.Routes

/-!
# Listing directories

A directory that an expression leads to can be listed with the directory above it, since the
canonical path found leads back to the same node and from there up. Headlines:

* `resolve_up`: two dots behind a canonical path;
* `listedIn_eq_ok`: what a listing shows of a directory;
* `splitOn_listingText`: a long listing cut at its line ends;
* `listing_is_complete`: the command, with any flags.
-/

namespace MemoryShell

open MemoryShell.Path (isValidName IsPiece segments ofNames)

/-! ## The directory above -/

/-- The path without its last name; the root is above itself. -/
def Path.above (path : String) : String := ofNames (segments path).dropLast

/-- Two dots lead one directory back on the line of descent. -/
theorem Walk.Descent.exists_step_up {root : Node} {w : Walk} (h : Descent root w)
    (hdir : w.here.isDir = true) :
    ∃ u, w.step ".." = some u ∧ Descent root u ∧ u.here.isDir = true := by
  cases h with
  | start => exact ⟨Walk.start root, by rw [Walk.step, hdir]; rfl, .start, hdir⟩
  | enter above valid found =>
    exact ⟨_, by rw [Walk.step, hdir]; rfl, above, Node.isDir_of_child? found⟩

/-- **Two dots behind the path of a directory lead to the directory above**, which the path without
its last name leads to as well. -/
theorem resolve_up {root : Node} {cwd expr : String} {dir : Location}
    (h : resolve root cwd expr = .ok dir) (hdir : dir.node.isDir = true) :
    ∃ up, up.isDir = true ∧ resolve root dir.path ".." = .ok ⟨Path.above dir.path, up⟩ ∧
      ∀ cwd', resolve root cwd' (Path.above dir.path) = .ok ⟨Path.above dir.path, up⟩ := by
  obtain ⟨w, hsteps, rfl⟩ := resolve_eq_ok_iff_steps.mp h
  have hw : Walk.Descent root w := descent_of_steps_route hsteps
  obtain ⟨u, hup, hu, hudir⟩ := hw.exists_step_up hdir
  have hpieces : ∀ n ∈ w.names, IsPiece n := Path.pieces_of_valid hw.isValidName_of_mem_names
  have habove : Path.above (ofNames w.names) = ofNames u.names := by
    rw [Path.above, Path.segments_ofNames hpieces, hw.names_step hup]
    rfl
  refine ⟨u.here, hudir, ?_, fun cwd' => ?_⟩
  · have hroute : route (ofNames w.names) ".." = w.names ++ [".."] := by
      rw [route_name _ ⟨by decide, by decide⟩, route_empty, Path.segments_ofNames hpieces]
    rw [resolve_eq_ok_iff_steps, hroute, Walk.steps_concat, hw.start_steps_names, habove]
    exact ⟨u, hup, rfl⟩
  · rw [habove, resolve_ofNames_eq_ok_iff hu.isValidName_of_mem_names]
    exact ⟨rfl, hu.find?_names⟩

/-! ## What is shown -/

/-- What a listing shows of a directory: its children in order, without the hidden ones, or, if all
are asked for, the directory itself and the one above it, and then all children. -/
def shownOf (dir up : Node) (all : Bool) : List Listed :=
  let children := dir.children.map .ofNode
  if all then ⟨".", dir⟩ :: ⟨"..", up⟩ :: children
  else children.filter fun e => !e.name.startsWith "."

theorem listedIn_eq_ok {root up : Node} {dir : Location} (hdir : dir.node.isDir = true)
    (hup : resolve root dir.path ".." = .ok ⟨Path.above dir.path, up⟩) (all : Bool) :
    listedIn root dir all = .ok (shownOf dir.node up all) := by
  unfold listedIn shownOf
  rw [hdir]
  cases all with
  | false =>
    simp only [List.filter_map]
    rfl
  | true =>
    rw [hup]
    rfl

theorem runLs_eq {s : Session} {args : Arguments} {up : Node} {dir : Location}
    (h : resolve s.tree s.cwd (args.operands.head?.getD ".") = .ok dir)
    (hdir : dir.node.isDir = true)
    (hup : resolve s.tree dir.path ".." = .ok ⟨Path.above dir.path, up⟩) :
    Builtin.runLs args s =
      let shown := shownOf dir.node up (args.hasFlag 'a')
      ⟨s, .ok (if shown.isEmpty then none else some (listingText (args.hasFlag 'l') shown))⟩ := by
  have hentries : (do
      let target ← resolve s.tree s.cwd (args.operands.head?.getD ".")
      listedIn s.tree target (args.hasFlag 'a')) =
        .ok (shownOf dir.node up (args.hasFlag 'a')) := by
    rw [h]
    exact listedIn_eq_ok hdir hup _
  unfold Builtin.runLs
  rw [hentries]
  cases shownOf dir.node up (args.hasFlag 'a') <;> rfl

/-! ## Lines of a long listing -/

theorem not_mem_longLine {e : Listed} (h : '\n' ∉ e.name.toList) : '\n' ∉ e.longLine.toList := by
  have hsize : '\n' ∉ Nat.toDigits 10 e.node.size := fun hmem =>
    absurd (Nat.isDigit_of_mem_toDigits (by decide) (by decide) hmem) (by decide)
  have hkind : '\n' ∉ (if e.node.isDir then "d" else "-").toList := by
    cases e.node.isDir <;> decide
  rw [Listed.longLine, padLeft]
  simp only [String.toList_append, List.mem_append, not_or]
  exact ⟨⟨⟨⟨hkind, by decide⟩, by simp, by simpa using hsize⟩, by decide⟩, h⟩

/-- **A long listing is cut at its line ends into one line for each entry**, if no name breaks its
line. -/
theorem splitOn_listingText {entries : List Listed} (hne : entries ≠ [])
    (h : ∀ e ∈ entries, '\n' ∉ e.name.toList) :
    (listingText true entries).toList.splitOn '\n' = entries.map (·.longLine.toList) := by
  have hlines : ∀ l ∈ entries.map (·.longLine.toList), '\n' ∉ l := by
    intro l hl
    obtain ⟨e, he, rfl⟩ := List.mem_map.mp hl
    exact not_mem_longLine (h e he)
  rw [listingText, if_pos rfl, String.toList_intercalate, List.map_map]
  exact List.splitOn_intercalate '\n' hlines (by simpa using hne)

/-! ## The command -/

/-- **A listing is complete.** Whatever the tree, if the first operand, or a dot without operands,
leads to a directory, `ls` succeeds with any flags and leaves the session as it is. It shows the
children of the directory in the order of their making; those whose names begin with a dot only if
`-a` is given, and then behind the directory itself, as `.`, and the one that the path without its
last name leads to from everywhere, as `..`, which is the root for the root. There is no output only
if nothing is shown; with `-l` it has one line for each node shown, with its kind and its size, and
without a line break in a name it is cut at its line ends into just these. -/
theorem listing_is_complete (manual : Manual) (args : Arguments) (s : Session) {dir : Location}
    (h : resolve s.tree s.cwd (args.operands.head?.getD ".") = .ok dir)
    (hdir : dir.node.isDir = true) :
    ∃ up : Node, up.isDir = true ∧
      (∀ cwd, resolve s.tree cwd (Path.above dir.path) = .ok ⟨Path.above dir.path, up⟩) ∧
      let shown := shownOf dir.node up (args.hasFlag 'a')
      let line (e : Listed) :=
        (if e.node.isDir then "d" else "-") ++ " " ++ padLeft 6 (toString e.node.size) ++ " " ++
          e.name
      let text :=
        if args.hasFlag 'l' then "\n".intercalate (shown.map line)
        else "  ".intercalate (shown.map Listed.name)
      Builtin.ls.run manual args s = ⟨s, .ok (if shown.isEmpty then none else some text)⟩ ∧
      (args.hasFlag 'l' = true → shown ≠ [] → (∀ e ∈ shown, '\n' ∉ e.name.toList) →
        text.toList.splitOn '\n' = shown.map fun e => (line e).toList) := by
  obtain ⟨up, hupdir, hup, habove⟩ := resolve_up h hdir
  refine ⟨up, hupdir, habove, ?_⟩
  intro shown line text
  refine ⟨runLs_eq h hdir hup, fun hlong hne hnames => ?_⟩
  have htext : text = listingText true shown := if_pos hlong
  rw [htext]
  exact splitOn_listingText hne hnames

/-- A working directory and an operand spelled carelessly, and names repeated beside each other: the
first directory `d` is listed, and above it lies the root. -/
theorem listing_is_complete_repeated_names :
    let d : Node := .directory "d" [.file ".h" "é", .directory "e" [], .file "e" "x"]
    let s : Session := ⟨[], .directory "r" [d, .directory "d" []], "d//e", .none⟩
    let args := (Invocation.ofChunk "ls ..//. -la").args
    let lines := ["d      3 .", "d      2 ..", "-      2 .h", "d      0 e", "-      1 e"]
    resolve s.tree s.cwd (args.operands.head?.getD ".") = .ok ⟨"/d", d⟩ ∧ d.isDir = true ∧
    (Builtin.ls.run [] args s).result = .ok (some ("\n".intercalate lines)) ∧
    ("\n".intercalate lines).toList.splitOn '\n' = lines.map String.toList := by
  intro d s args lines
  have hdir : resolve s.tree s.cwd (args.operands.head?.getD ".") = .ok ⟨"/d", d⟩ := by
    decide +kernel
  obtain ⟨up, -, habove, hrun, hcut⟩ := listing_is_complete [] args s hdir rfl
  have hroot : resolve s.tree "/" (Path.above "/d") = .ok ⟨Path.above "/d", s.tree⟩ := by
    decide +kernel
  have hup : up = s.tree := by simpa using (habove "/").symm.trans hroot
  subst hup
  have hlines := hcut (by decide +kernel) (by decide +kernel) (by decide +kernel)
  have htext : (if args.hasFlag 'l' = true then
      "\n".intercalate ((shownOf d s.tree (args.hasFlag 'a')).map Listed.longLine)
    else "  ".intercalate ((shownOf d s.tree (args.hasFlag 'a')).map Listed.name)) =
      "\n".intercalate lines := by decide +kernel
  refine ⟨hdir, rfl, ?_, ?_⟩
  · rw [hrun]
    decide +kernel
  · rw [← htext]
    exact hlines.trans (by decide +kernel)

end MemoryShell
