import MemoryShell.Proofs.Changes
import MemoryShell.Proofs.Lines
import MemoryShell.Proofs.Snapshots

/-!
# Which runs can be restored

No built-in command looks at the settings, so only the tree decides whether the session that a run
ends in can be read back from its snapshot. Headlines:

* `height_descentLine`: one line can make a tree as high as it likes;
* `parse_text_executeAll`: the limit for a session reached by lines.
-/

namespace MemoryShell

open MemoryShell.Path (isValidName ofNames segments normalize)
open Session (Change Changes)

variable {s t : Session}

/-! ## Heights -/

theorem Node.height_eq (t : Node) : t.height = childrenHeight t.children := by
  cases t <;> rfl

/-- What lies at a place is no higher than the names to the place leave room for. -/
theorem Node.length_add_height_le {root t : Node} {names : List String}
    (h : root.find? names = some t) : names.length + t.height ≤ root.height := by
  induction names generalizing root with
  | nil =>
    obtain rfl : root = t := Option.some.inj h
    exact Nat.le_of_eq (Nat.zero_add _)
  | cons n ns ih =>
    obtain ⟨c, hc, h⟩ := find?_cons_eq_some_iff.mp h
    have hbelow := height_le_childrenHeight (mem_children_of_child? hc)
    have := ih h
    rw [height_eq root, List.length_cons]
    omega

/-! ## A line that descends -/

/-- A directory made and entered, so many times, all on one line. -/
def descentLine (n : Nat) : String := ";".intercalate (List.replicate n "mkdir d && cd d")

/-- The commands of one time. -/
def descent : List Invocation :=
  [⟨"mkdir", "mkdir d ", ⟨["d"], .empty, .empty⟩⟩, ⟨"cd", " cd d", ⟨["d"], .empty, .empty⟩⟩]

theorem parse_descentLine {n : Nat} (hn : n ≠ 0) :
    Line.parse (descentLine n) = List.replicate n descent := by
  have hchunks : Line.chunks "mkdir d && cd d".toList = ["mkdir d ", " cd d"] := by decide +kernel
  have hgroups : Line.groups (descentLine n) = List.replicate n ["mkdir d ", " cd d"] := by
    rw [descentLine, Line.groups_intercalate (by simpa using hn) (by simp), List.map_replicate,
      hchunks, List.filter_replicate_of_pos (by rfl)]
  have hdescent : ["mkdir d ", " cd d"].map Invocation.ofChunk = descent := by decide +kernel
  rw [Line.parse_of_groups (by simpa [hgroups] using hn), hgroups, List.map_replicate, hdescent]

/-- The working directory lies at the place `names` and is empty. -/
structure Session.InEmptyDir (s : Session) (names : List String) : Prop where
  valid : ∀ n ∈ names, isValidName n = true
  cwd : s.cwd = ofNames names
  found : ∃ name, s.tree.find? names = some (.directory name [])

namespace Session.InEmptyDir

variable {names : List String}

theorem log (h : s.InEmptyDir names) (e : Entry) : (s.log e).InEmptyDir names :=
  ⟨h.valid, h.cwd, h.found⟩

theorem segments_cwd (h : s.InEmptyDir names) : segments s.cwd = names := by
  rw [h.cwd, Path.segments_ofNames (Path.pieces_of_valid h.valid)]

theorem valid_append (h : s.InEmptyDir names) : ∀ n ∈ names ++ ["d"], isValidName n = true :=
  Path.valid_append h.valid (by decide +kernel)

/-- Making a directory there works, and it is empty. -/
theorem exists_makeDirectory (h : s.InEmptyDir names) :
    ∃ t, makeDirectory s.cwd s.tree "d" = .ok t ∧
      t.find? (names ++ ["d"]) = some (.directory "d" []) := by
  obtain ⟨name, hf⟩ := h.found
  have hparent : resolve s.tree s.cwd (parentExpr "d") =
      .ok ⟨ofNames names, .directory name []⟩ := by
    have hdots : Path.HasNoDots s.cwd := h.cwd ▸ Path.hasNoDots_ofNames h.valid
    have hdot : parentExpr "d" = "." := by decide +kernel
    rw [hdot]
    refine (resolve_dot_eq_ok_iff hdots).mpr ⟨?_, ?_, rfl⟩
    · rw [Path.normalize_eq_ofNames, h.segments_cwd]
    · rw [h.segments_cwd, hf]
  have hleaf : leafName "d" = "d" := by decide +kernel
  have hinsert := insertAt_of_resolve (fun n => .directory n []) (by rw [hleaf]; decide +kernel)
    hparent h.valid rfl rfl
  refine ⟨s.tree.updateAt (fun _ => .directory name [.directory "d" []]) names, ?_, ?_⟩
  · rw [makeDirectory, hinsert, hleaf]
    rfl
  · refine (Node.find?_updateAt_append hf ?_ ["d"]).trans ?_ <;> rfl

/-- One time makes the way to the working directory longer by one name. -/
theorem runGroup_descent (h : s.InEmptyDir names) (messages : Messages) :
    (Registry.builtins.runGroup messages descent s).InEmptyDir (names ++ ["d"]) := by
  obtain ⟨t, hmake, hfound⟩ := h.exists_makeDirectory
  have hroute : route s.cwd "d" = names ++ ["d"] := by
    have hpiece : Path.IsPiece "d" := ⟨by decide, by decide⟩
    rw [route_name s.cwd hpiece, route_empty, h.segments_cwd]
  have hresolve : resolve t s.cwd "d" = .ok ⟨ofNames (names ++ ["d"]), .directory "d" []⟩ := by
    rw [resolve_of_isValidName (by rw [hroute]; exact h.valid_append), hroute, hfound]
  have hmkdir : Registry.builtins.dispatch ⟨"mkdir", "mkdir d ", ⟨["d"], .empty, .empty⟩⟩ s =
      .silent { s with tree := t } := by
    rw [Registry.dispatch_builtins .mkdir rfl]
    simp [Builtin.run, Builtin.needOperands, despiteFailures, hmake, Outcome.ofEdit]
  have hcd : Registry.builtins.dispatch ⟨"cd", " cd d", ⟨["d"], .empty, .empty⟩⟩
      { s with tree := t } = .silent { s with tree := t, cwd := ofNames (names ++ ["d"]) } := by
    rw [Registry.dispatch_builtins .cd rfl]
    simp [Builtin.run, Builtin.runCd, hresolve]
  simp only [descent, Registry.runGroup, hmkdir, hcd, Outcome.silent]
  exact ⟨h.valid_append, rfl, "d", hfound⟩

theorem runGroups_descent (h : s.InEmptyDir names) (messages : Messages) (n : Nat) :
    (Registry.builtins.runGroups messages (List.replicate n descent) s).InEmptyDir
      (names ++ List.replicate n "d") := by
  induction n generalizing s names with
  | zero => simpa [Registry.runGroups] using h
  | succ n ih =>
    have := ih (h.runGroup_descent messages)
    rwa [List.append_assoc, List.singleton_append, ← List.replicate_succ] at this

end Session.InEmptyDir

theorem inEmptyDir_descentLine (messages : Messages) {n : Nat} (hn : n ≠ 0) :
    (Registry.builtins.execute messages (descentLine n) .fresh).InEmptyDir
      (List.replicate n "d") := by
  have hfresh : Session.fresh.InEmptyDir [] := ⟨by simp, Path.ofNames_nil.symm, "/", rfl⟩
  rw [Registry.execute, parse_descentLine hn]
  exact (hfresh.log _).runGroups_descent messages n

/-- **One line can make a tree as high as it likes.** -/
theorem height_descentLine (messages : Messages) {n : Nat} (hn : n ≠ 0) :
    n ≤ (Registry.builtins.execute messages (descentLine n) .fresh).tree.height := by
  obtain ⟨name, hf⟩ := (inEmptyDir_descentLine messages hn).found
  have := Node.length_add_height_le hf
  rw [List.length_replicate] at this
  omega

/-! ## Restoring -/

/-- The session that such a line leads to cannot be restored if it descends too far. -/
theorem parse_text_descentLine (messages : Messages) {n : Nat} (hn : 62 < n) :
    Session.parse (Registry.builtins.execute messages (descentLine n) .fresh).text =
      .error .json := by
  have hsettings : (Registry.builtins.execute messages (descentLine n) .fresh).settings = .none :=
    Session.settings_of_changes (Registry.executeAll_changes messages [descentLine n] .fresh)
  have hheight := height_descentLine messages (Nat.ne_zero_of_lt hn)
  rw [Session.parse_text_of_settings_eq_none hsettings, if_neg (by omega)]

/-- **A session reached by lines is restored exactly where its tree is not too high**: nothing may
lie more than sixty-two names below the root. A higher tree is written all the same, and the
snapshot refused. -/
theorem parse_text_executeAll (messages : Messages) (lines : List String) :
    let s := Registry.builtins.executeAll messages lines .fresh
    Session.parse s.text = if s.tree.height ≤ 62 then .ok s else .error .json :=
  Session.parse_text_of_settings_eq_none
    (Session.settings_of_changes (Registry.executeAll_changes messages lines .fresh))

/-- So not every session that lines lead to is restored. -/
theorem descentLine_not_restored :
    Session.parse (Registry.builtins.executeAll .standard [descentLine 63] .fresh).text =
      .error .json := by
  have hone (line : String) : Registry.builtins.executeAll .standard [line] .fresh =
    Registry.builtins.execute .standard line .fresh := rfl
  rw [hone]
  exact parse_text_descentLine .standard (by decide)

end MemoryShell
