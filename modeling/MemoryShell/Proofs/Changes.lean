import Mathlib.Logic.Relation
import MemoryShell.Execution
import MemoryShell.Proofs.Edits

/-!
# What a line changes

The built-in commands change a session in six ways only: an entry is logged, the transcript is
emptied, a directory is entered, a directory or an empty file is made, a node is removed. A run of
lines is a run of such changes, so what every change keeps, every run keeps. Headlines:

* `Builtin.run_ends`: the five ways in which a command can end;
* `Builtin.run_changes`: one command;
* `Registry.executeAll_changes`: lines one after another, with the built-in commands.
-/

namespace MemoryShell

/-! ## Changes -/

/-- One change of a session. -/
inductive Session.Change : Session → Session → Prop
  | log (s : Session) (e : Entry) : Change s (s.log e)
  | clear (s : Session) : Change s { s with history := [] }
  | enter {s : Session} {expr : String} {found : Location}
      (resolved : resolve s.tree s.cwd expr = .ok found) (isDir : found.node.isDir = true) :
      Change s { s with cwd := found.path }
  | makeDirectory {s : Session} {expr : String} {i : Insertion}
      (inserted : insertAt s.tree s.cwd expr (fun name => .directory name []) = .ok i) :
      Change s { s with tree := i.tree }
  | makeFile {s : Session} {expr : String} {i : Insertion}
      (inserted : insertAt s.tree s.cwd expr (fun name => .file name "") = .ok i) :
      Change s { s with tree := i.tree }
  | remove {s : Session} {expr : String} {recursive : Bool} {r : Removal}
      (removed : removeAt s.tree s.cwd expr recursive = .ok r) : Change s { s with tree := r.tree }

/-- Changes one after another. -/
abbrev Session.Changes : Session → Session → Prop := Relation.ReflTransGen Session.Change

open Session (Change Changes)

variable {s t : Session}

/-- No change looks at the settings. -/
theorem Session.settings_of_change (h : Change s t) : t.settings = s.settings := by
  cases h <;> rfl

theorem Session.settings_of_changes (h : Changes s t) : t.settings = s.settings := by
  induction h with
  | refl => rfl
  | tail _ hc ih => exact (Session.settings_of_change hc).trans ih

/-! ## Operands one by one -/

section Operands

variable {edit : Node → String → Except ShellError Node} {P : Node → Prop} {t : Node}
  {operands : List String}

theorem untilFailure_cons_error {expr : String} {e : ShellError} (h : edit t expr = .error e)
    (rest : List String) : untilFailure edit t (expr :: rest) = (t, some e) := by
  rw [untilFailure, h]

theorem despiteFailures_cons_error {expr : String} {e : ShellError} (h : edit t expr = .error e)
    (rest : List String) :
    despiteFailures edit t (expr :: rest) = ((despiteFailures edit t rest).1, some e) := by
  rw [despiteFailures, h]

theorem untilFailure_induction
    (h : ∀ expr ∈ operands, ∀ t u, edit t expr = .ok u → P t → P u) (ht : P t) :
    P (untilFailure edit t operands).1 := by
  induction operands generalizing t with
  | nil => exact ht
  | cons expr rest ih =>
    obtain ⟨hexpr, hrest⟩ := List.forall_mem_cons.mp h
    unfold untilFailure
    cases he : edit t expr with
    | error e => exact ht
    | ok u => exact ih hrest (hexpr t u he ht)

theorem despiteFailures_induction
    (h : ∀ expr ∈ operands, ∀ t u, edit t expr = .ok u → P t → P u) (ht : P t) :
    P (despiteFailures edit t operands).1 := by
  induction operands generalizing t with
  | nil => exact ht
  | cons expr rest ih =>
    obtain ⟨hexpr, hrest⟩ := List.forall_mem_cons.mp h
    unfold despiteFailures
    cases he : edit t expr with
    | error e => exact ih hrest ht
    | ok u => exact ih hrest (hexpr t u he ht)

end Operands

theorem session_ofEdit (s : Session) (p : Node × Option ShellError) :
    (Outcome.ofEdit s p).session = { s with tree := p.1 } := by
  obtain ⟨t, _ | e⟩ := p <;> rfl

theorem exists_of_map_eq_ok {ε α β : Type} {f : α → β} {x : Except ε α} {b : β}
    (h : x.map f = .ok b) : ∃ a, x = .ok a ∧ f a = b := by
  cases x with
  | error e => cases h
  | ok a => exact ⟨a, rfl, Except.ok.inj h⟩

theorem makeDirectory_changes {t u : Node} {expr : String}
    (h : makeDirectory s.cwd t expr = .ok u) (ht : Changes s { s with tree := t }) :
    Changes s { s with tree := u } := by
  obtain ⟨i, hi, rfl⟩ := exists_of_map_eq_ok h
  exact ht.tail (.makeDirectory (s := { s with tree := t }) hi)

theorem touchFile_changes {t u : Node} {expr : String} (h : touchFile s.cwd t expr = .ok u)
    (ht : Changes s { s with tree := t }) : Changes s { s with tree := u } := by
  unfold touchFile at h
  split at h
  · split at h
    · cases h
    · cases h; exact ht
  · obtain ⟨i, hi, rfl⟩ := exists_of_map_eq_ok h
    exact ht.tail (.makeFile (s := { s with tree := t }) hi)

theorem removeNode_changes {t u : Node} {expr : String} {recursive : Bool}
    (h : removeNode recursive s.cwd t expr = .ok u) (ht : Changes s { s with tree := t }) :
    Changes s { s with tree := u } := by
  obtain ⟨r, hr, rfl⟩ := exists_of_map_eq_ok h
  exact ht.tail (.remove (s := { s with tree := t }) hr)

/-! ## How commands end -/

namespace Builtin

/-- `t` differs from `s` at most in what the command may change. -/
structure Frame (b : Builtin) (s t : Session) : Prop where
  settings : t.settings = s.settings
  cwd : b ≠ cd → t.cwd = s.cwd
  history : b ≠ clear → s.history <+: t.history
  tree : b ∉ [mkdir, touch, rm] → t.tree = s.tree

/-- How a built-in command can end. Only where it edits the tree can it fail and leave anything
but the session it found. -/
inductive Ends (b : Builtin) (args : Arguments) (s : Session) : Outcome → Prop
  | told (text? : Option String) : Ends b args s ⟨s, .ok text?⟩
  | refused (e : ShellError) : Ends b args s (.failed s e)
  | cleared (isClear : b = clear) : Ends b args s (.silent { s with history := [] })
  | entered (isCd : b = cd) {dir : Location}
      (resolved : resolve s.tree s.cwd (args.operands.head?.getD "/") = .ok dir)
      (isDir : dir.node.isDir = true) : Ends b args s (.silent { s with cwd := dir.path })
  | edited (edits : b ∈ [mkdir, touch, rm]) (p : Node × Option ShellError) :
      Ends b args s (.ofEdit s p)

variable {b : Builtin} {args : Arguments} {s : Session}

theorem Frame.refl (b : Builtin) (s : Session) : b.Frame s s :=
  ⟨rfl, fun _ => rfl, fun _ => List.prefix_rfl, fun _ => rfl⟩

/-- However a command ends, it keeps to its part of the session. -/
theorem Ends.frame {o : Outcome} (h : b.Ends args s o) : b.Frame s o.session := by
  cases h with
  | told text? => exact .refl b s
  | refused e => exact .refl b s
  | cleared isClear => exact ⟨rfl, fun _ => rfl, fun hb => absurd isClear hb, fun _ => rfl⟩
  | entered isCd _ _ =>
    exact ⟨rfl, fun hb => absurd isCd hb, fun _ => List.prefix_rfl, fun _ => rfl⟩
  | edited edits p =>
    rw [session_ofEdit]
    exact ⟨rfl, fun _ => rfl, fun _ => List.prefix_rfl, fun hb => absurd edits hb⟩

theorem needOperands_ends {o : Outcome} (h : b.Ends args s o) :
    b.Ends args s (b.needOperands args s o) := by
  unfold needOperands
  split
  · exact .refused _
  · exact h

/-- **A built-in command ends in one of five ways.** -/
theorem run_ends (b : Builtin) (manual : Manual) (args : Arguments) (s : Session) :
    b.Ends args s (b.run manual args s) := by
  cases b with
  | help =>
    simp only [run, runHelp]
    split
    · exact .told _
    · split
      · exact .told _
      · exact .refused _
  | clear => exact .cleared rfl
  | ls =>
    simp only [run, runLs]
    split
    · exact .told none
    · exact .told _
    · exact .refused _
  | cd =>
    simp only [run, runCd]
    split
    · rename_i dir hdir
      split
      · rename_i hisDir
        exact .entered rfl hdir hisDir
      · exact .refused _
    · exact .refused _
  | pwd => exact .told _
  | cat =>
    refine needOperands_ends ?_
    unfold runCat
    split
    · exact .told _
    · exact .refused _
  | mkdir => exact needOperands_ends (.edited (by decide) _)
  | touch => exact needOperands_ends (.edited (by decide) _)
  | rm => exact needOperands_ends (.edited (by decide) _)
  | echo => exact .told _

end Builtin

/-! ## Commands -/

theorem needOperands_changes {b : Builtin} {args : Arguments} {run : Outcome}
    (h : Changes s run.session) : Changes s (b.needOperands args s run).session := by
  unfold Builtin.needOperands
  split
  · exact .refl
  · exact h

theorem Builtin.Ends.changes {b : Builtin} {args : Arguments} {o : Outcome}
    (h : b.Ends args s o) (hb : b ∉ [mkdir, touch, rm]) : Changes s o.session := by
  cases h with
  | told text? => exact .refl
  | refused e => exact .refl
  | cleared isClear => exact .single (.clear s)
  | entered isCd resolved isDir => exact .single (.enter resolved isDir)
  | edited edits p => exact absurd edits hb

/-- **A built-in command changes a session step by step.** -/
theorem Builtin.run_changes (b : Builtin) (manual : Manual) (args : Arguments) (s : Session) :
    Changes s (b.run manual args s).session := by
  by_cases hb : b ∈ [mkdir, touch, rm]
  · simp only [List.mem_cons, List.not_mem_nil, or_false] at hb
    rcases hb with rfl | rfl | rfl
    · refine needOperands_changes ?_
      rw [session_ofEdit]
      exact despiteFailures_induction (P := fun t => Changes s { s with tree := t })
        (fun _ _ _ _ => makeDirectory_changes) .refl
    · refine needOperands_changes ?_
      rw [session_ofEdit]
      exact untilFailure_induction (P := fun t => Changes s { s with tree := t })
        (fun _ _ _ _ => touchFile_changes) .refl
    · refine needOperands_changes ?_
      rw [session_ofEdit]
      exact untilFailure_induction (P := fun t => Changes s { s with tree := t })
        (fun _ _ _ _ => removeNode_changes) .refl
  · exact (b.run_ends manual args s).changes hb

/-! ## Lines -/

namespace Registry

theorem get?_extend {r : Registry} {cs : List Command} {name : String} {c : Command}
    (h : (r.extend cs).get? name = some c) : c ∈ cs ∧ c.name = name ∨ r.get? name = some c := by
  rw [get?_extend_eq, Option.or_eq_some_iff] at h
  rcases h with h | ⟨-, h⟩
  · exact .inl (of_lastNamed? h)
  · exact .inr h

theorem get?_builtins {name : String} {c : Command} (h : builtins.get? name = some c) :
    ∃ b : Builtin, b.name = name ∧ c = b.command := by
  rcases get?_extend h with ⟨hmem, hname⟩ | h
  · obtain ⟨b, -, rfl⟩ := List.mem_map.mp hmem
    exact ⟨b, hname, rfl⟩
  · cases h

theorem get?_builtins_name (b : Builtin) : builtins.get? b.name = some b.command := by
  cases b <;> rfl

/-- Where a name stands for a built-in command, it calls it. -/
theorem dispatch_of_get? {r : Registry} {inv : Invocation} {b : Builtin}
    (h : r.get? inv.name = some b.command) (hname : inv.name ≠ "") (s : Session) :
    r.dispatch inv s = b.run r.manual inv.args s := by
  rw [dispatch, if_neg hname, h]
  rfl

/-- The name of a built-in command calls it. -/
theorem dispatch_builtins (b : Builtin) {inv : Invocation} (h : inv.name = b.name) (s : Session) :
    builtins.dispatch inv s = b.run builtins.manual inv.args s := by
  have hname : inv.name ≠ "" := by
    rw [h]
    cases b <;> decide
  exact dispatch_of_get? (by rw [h, get?_builtins_name]) hname s

/-- An invocation calls a built-in command, or has one result everywhere and changes nothing. -/
theorem dispatch_builtins_cases (inv : Invocation) :
    (∃ b : Builtin, inv.name = b.name) ∨ ∃ result, ∀ s, builtins.dispatch inv s = ⟨s, result⟩ := by
  by_cases hblank : inv.name = ""
  · exact .inr ⟨.ok none, fun s => by rw [dispatch, if_pos hblank]; rfl⟩
  · cases hc : builtins.get? inv.name with
    | none =>
      refine .inr ⟨.error (.refused .commandNotFound inv.name), fun s => ?_⟩
      rw [dispatch, if_neg hblank, hc]
      rfl
    | some c =>
      obtain ⟨b, hname, -⟩ := get?_builtins hc
      exact .inl ⟨b, hname.symm⟩

theorem dispatch_changes (inv : Invocation) (s : Session) :
    Changes s (builtins.dispatch inv s).session := by
  rcases dispatch_builtins_cases inv with ⟨b, hname⟩ | ⟨result, hall⟩
  · rw [dispatch_builtins b hname]
    exact b.run_changes _ inv.args s
  · rw [hall s]

/-- **A run of lines with the built-in commands is a run of changes.** -/
theorem executeAll_changes (messages : Messages) (lines : List String) (s : Session) :
    Changes s (builtins.executeAll messages lines s) :=
  executeAll_induction messages (fun t e h => h.tail (.log t e))
    (fun _ _ _ _ inv _ t h => h.trans (dispatch_changes inv t)) .refl

end Registry

end MemoryShell
