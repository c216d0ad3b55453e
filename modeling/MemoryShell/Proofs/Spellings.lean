import MemoryShell.Completion
import MemoryShell.Proofs.Chaining

/-!
# Spellings of the working directory

A working directory may be spelled with slashes doubled, at its end or missing in front. What is
found from it, and what a command does in it, depends on its names only. Headlines:

* `normalize_eq_iff`: canonical spelling tells paths apart exactly by their names;
* `resolve_of_segments_eq`, `cwdPath_of_segments_eq`: the two places where a path is found from a
  working directory;
* `normalize_spells_segments`: what canonical spelling is, and that no walk through a tree sees it;
* `Session.Respelled.execute`: a line executed on two spellings;
* `cwd_spelling_is_immaterial`: a session and the one with its directory in canonical spelling are
  alike in all that a user can see of them, the prompts apart.
-/

namespace MemoryShell

open MemoryShell.Path (segments normalize ofNames)
open Registry (builtins)

/-! ## Finding nodes -/

section Finding

variable {root : Node} {cwd cwd' : String} (h : segments cwd = segments cwd')
include h

theorem normalize_of_segments_eq : normalize cwd = normalize cwd' := by
  rw [Path.normalize_eq_ofNames, Path.normalize_eq_ofNames, h]

theorem resolve_of_segments_eq (expr : String) :
    resolve root cwd expr = resolve root cwd' expr := by
  have hroute : route cwd expr = route cwd' expr := by rw [route, route, h]
  rw [resolve, resolve, hroute]

/-- Where the working directory leads nowhere, its canonical spelling stands in for it. -/
theorem cwdPath_of_segments_eq : cwdPath root cwd = cwdPath root cwd' := by
  rw [cwdPath, cwdPath, resolve_of_segments_eq h, normalize_of_segments_eq h]

/-! ## What an operand asks for -/

theorem insertAt_of_segments_eq (expr : String) (make : String → Node) :
    insertAt root cwd expr make = insertAt root cwd' expr make := by
  simp only [insertAt, resolve_of_segments_eq h]

theorem makeDirectory_of_segments_eq : makeDirectory cwd = makeDirectory cwd' := by
  funext t expr
  rw [makeDirectory, makeDirectory, insertAt_of_segments_eq h]

theorem touchFile_of_segments_eq : touchFile cwd = touchFile cwd' := by
  funext t expr
  rw [touchFile, touchFile, resolve_of_segments_eq h, insertAt_of_segments_eq h]

theorem removeNode_of_segments_eq (recursive : Bool) :
    removeNode recursive cwd = removeNode recursive cwd' := by
  funext t expr
  simp only [removeNode, removeAt, resolve_of_segments_eq h, cwdPath_of_segments_eq h]

end Finding

/-- Canonical spelling tells paths apart exactly by their names. -/
theorem normalize_eq_iff (path other : String) :
    normalize path = normalize other ↔ segments path = segments other := by
  refine ⟨fun h => ?_, normalize_of_segments_eq⟩
  rw [← Path.segments_normalize path, h, Path.segments_normalize]

/-! ## Canonical spelling -/

/-- **The canonical spelling of a path is that of its names.** It has a slash in front and one
between any two names, whether the path is in normal form and kept or squeezed; so the paths in
normal form are those it keeps, two paths have one canonical spelling exactly when they have the
same names, and spelling again changes nothing. What is found from a path, at it or written to it
is what is found from, at or written to its canonical spelling. -/
theorem normalize_spells_segments (path : String) :
    normalize path = "/" ++ "/".intercalate (segments path) ∧
      normalize path = String.ofList (Path.dropFinalSlash (Path.squeeze
        (if path.toList.head? = some '/' then path.toList else '/' :: path.toList))) ∧
      (Path.isNormal path.toList = true ↔ normalize path = path) ∧
      (∀ other, normalize path = normalize other ↔ segments path = segments other) ∧
      normalize (normalize path) = normalize path ∧
      ∀ root : Node,
        (∀ expr, resolve root path expr = resolve root (normalize path) expr) ∧
        lookup root path = lookup root (normalize path) ∧
        ∀ node, replaceAt root path node = replaceAt root (normalize path) node := by
  have hsegs : segments (normalize path) = segments path := Path.segments_normalize path
  refine ⟨Path.normalize_eq_ofNames path, ?_, Path.isNormal_iff, normalize_eq_iff path,
    normalize_of_segments_eq hsegs, fun root => ⟨?_, ?_, fun node => ?_⟩⟩
  · apply String.toList_inj.mp
    rw [Path.toList_normalize, String.toList_ofList]
  · exact resolve_of_segments_eq hsegs.symm
  · rw [lookup, lookup, hsegs]
  · rw [replaceAt, replaceAt, hsegs]

/-! ## Commands -/

/-- Two outcomes are the same but for the spelling of the working directory. -/
def Outcome.Respelled (o p : Outcome) : Prop :=
  ∃ cwd, segments cwd = segments o.session.cwd ∧ p = ⟨{ o.session with cwd }, o.result⟩

namespace Builtin

variable {s : Session} {cwd : String}

theorem needOperands_respelled {b : Builtin} {args : Arguments} {o p : Outcome}
    (h : segments cwd = segments s.cwd) (hrun : o.Respelled p) :
    (b.needOperands args s o).Respelled (b.needOperands args { s with cwd } p) := by
  unfold needOperands
  split
  · exact ⟨cwd, h, rfl⟩
  · exact hrun

theorem ofEdit_respelled (h : segments cwd = segments s.cwd) (p : Node × Option ShellError) :
    (Outcome.ofEdit s p).Respelled (Outcome.ofEdit { s with cwd } p) := by
  obtain ⟨t, _ | e⟩ := p <;> exact ⟨cwd, h, rfl⟩

/-- **A built-in command does the same from either spelling of the working directory.** -/
theorem run_respelled (b : Builtin) (manual : Manual) (args : Arguments)
    (h : segments cwd = segments s.cwd) :
    (b.run manual args s).Respelled (b.run manual args { s with cwd }) := by
  cases b with
  | help =>
    simp only [run, runHelp]
    split
    · exact ⟨cwd, h, rfl⟩
    · split <;> exact ⟨cwd, h, rfl⟩
  | clear => exact ⟨cwd, h, rfl⟩
  | ls =>
    simp only [run, runLs, resolve_of_segments_eq h]
    split <;> exact ⟨cwd, h, rfl⟩
  | cd =>
    simp only [run, runCd, resolve_of_segments_eq h]
    split
    · split
      · exact ⟨_, rfl, rfl⟩
      · exact ⟨cwd, h, rfl⟩
    · exact ⟨cwd, h, rfl⟩
  | pwd =>
    simp only [run, normalize_of_segments_eq h]
    exact ⟨cwd, h, rfl⟩
  | cat =>
    refine needOperands_respelled h ?_
    have hread : readFile { s with cwd } = readFile s := by
      funext expr
      rw [readFile, readFile, resolve_of_segments_eq h]
    simp only [runCat, hread]
    split <;> exact ⟨cwd, h, rfl⟩
  | mkdir =>
    refine needOperands_respelled h ?_
    simp only [makeDirectory_of_segments_eq h]
    exact ofEdit_respelled h _
  | touch =>
    refine needOperands_respelled h ?_
    simp only [touchFile_of_segments_eq h]
    exact ofEdit_respelled h _
  | rm =>
    refine needOperands_respelled h ?_
    simp only [removeNode_of_segments_eq h]
    exact ofEdit_respelled h _
  | echo => exact ⟨cwd, h, rfl⟩

end Builtin

/-! ## Lines -/

/-- Two sessions differ at most in the spelling of the working directory, and in the lines that
were typed. -/
structure Session.Respelled (s t : Session) : Prop where
  tree : s.tree = t.tree
  cwd : segments s.cwd = segments t.cwd
  settings : s.settings = t.settings
  outputs : SameOutputs s.history t.history

namespace Session.Respelled

variable {s t : Session}

theorem log_output (h : s.Respelled t) (text : String) :
    (s.log (.output text)).Respelled (t.log (.output text)) :=
  ⟨h.tree, h.cwd, h.settings, SameOutputs.append_output _ _ text h.outputs⟩

theorem log_echo (h : s.Respelled t) (line : String) :
    (s.log (.echo line s.cwd)).Respelled (t.log (.echo line t.cwd)) := by
  refine ⟨h.tree, h.cwd, h.settings, ?_⟩
  exact (outputs_append_echo ..).trans (h.outputs.trans (outputs_append_echo ..).symm)

theorem eq_withCwd_withHistory (h : s.Respelled t) :
    t = { { s with cwd := t.cwd } with history := t.history } := by
  obtain ⟨history, tree, cwd, settings⟩ := s
  obtain ⟨history', tree', cwd', settings'⟩ := t
  obtain ⟨rfl, -, rfl, -⟩ := h
  rfl

/-- A built-in command has the same result on both sessions, and leaves no more of a difference. -/
theorem run (h : s.Respelled t) (b : Builtin) (manual : Manual) (args : Arguments) :
    (b.run manual args s).session.Respelled (b.run manual args t).session ∧
      (b.run manual args s).result = (b.run manual args t).result := by
  have ht := b.run_withHistory manual args { s with cwd := t.cwd } t.history
  rw [← h.eq_withCwd_withHistory] at ht
  obtain ⟨cwd, hcwd, hrun⟩ := b.run_respelled manual args (s := s) h.cwd.symm
  rw [hrun] at ht
  rw [ht]
  refine ⟨⟨rfl, hcwd.symm, rfl, ?_⟩, rfl⟩
  rw [b.history_run]
  cases b
  case clear => rfl
  all_goals exact h.outputs

theorem dispatch (h : s.Respelled t) (inv : Invocation) :
    (builtins.dispatch inv s).session.Respelled (builtins.dispatch inv t).session ∧
      (builtins.dispatch inv s).result = (builtins.dispatch inv t).result := by
  rcases Registry.dispatch_builtins_cases inv with ⟨b, hname⟩ | ⟨result, hall⟩
  · rw [Registry.dispatch_builtins b hname, Registry.dispatch_builtins b hname]
    exact h.run b _ inv.args
  · rw [hall s, hall t]
    exact ⟨h, rfl⟩

/-- **A line does the same from either spelling of the working directory.** -/
theorem execute (h : s.Respelled t) (messages : Messages) (line : String) :
    (builtins.execute messages line s).Respelled (builtins.execute messages line t) :=
  Registry.runGroups_rel messages (fun _ _ text h => h.log_output text)
    (fun inv _ _ h => h.dispatch inv) _ (h.log_echo line)

theorem executeAll (h : s.Respelled t) (messages : Messages) (lines : List String) :
    (builtins.executeAll messages lines s).Respelled (builtins.executeAll messages lines t) := by
  induction lines generalizing s t with
  | nil => exact h
  | cons line rest ih => exact ih (h.execute messages line)

theorem complete (h : s.Respelled t) (r : Registry) (typed : String) :
    complete r typed s = complete r typed t := by
  have hpath : completePath s = completePath t := by
    funext word
    simp only [completePath, h.tree, resolve_of_segments_eq h.cwd]
  rw [MemoryShell.complete, MemoryShell.complete, hpath]

end Session.Respelled

/-- **A working directory in any spelling behaves as in canonical spelling.** Lines executed on a
session and on the one with its working directory in canonical spelling leave the same tree and
settings, the same outputs, and working directories of one canonical spelling. Before and after
them, whatever is typed is completed in the same way. -/
theorem cwd_spelling_is_immaterial (messages : Messages) (lines : List String) (s : Session) :
    let after := builtins.executeAll messages lines s
    let after' := builtins.executeAll messages lines { s with cwd := normalize s.cwd }
    after.tree = after'.tree ∧ outputs after.history = outputs after'.history ∧
      normalize after.cwd = normalize after'.cwd ∧ after.settings = after'.settings ∧
      ∀ r typed, complete r typed after = complete r typed after' := by
  intro after after'
  have hstart : s.Respelled { s with cwd := normalize s.cwd } :=
    ⟨rfl, (Path.segments_normalize s.cwd).symm, rfl, rfl⟩
  have h : after.Respelled after' := hstart.executeAll messages lines
  exact ⟨h.tree, h.outputs, normalize_of_segments_eq h.cwd, h.settings, h.complete⟩

end MemoryShell
