import MemoryShell.Proofs.Changes

/-!
# Commands with several operands

A command that edits the tree goes through its operands one by one, so a call with several operands
is as good as calls with one operand each. Headlines:

* `outcomesEach`, `outcomesUntilFailure`: calls with one operand each, of which the first failure
  stops the others or not;
* `outcomesEach_of_edits`, `outcomesUntilFailure_of_edits`: what comes of them if each call is one
  edit of the tree;
* `many_operands_are_many_calls`: the three commands that edit the tree.
-/

namespace MemoryShell

/-! ## One operand at a time -/

/-- The same command with the same options and flags, for one operand alone. -/
def Invocation.alone (inv : Invocation) (expr : String) : Invocation :=
  { inv with args := { inv.args with operands := [expr] } }

/-- Why a command failed, if it did. -/
def Outcome.failure? (o : Outcome) : Option ShellError :=
  match o.result with
  | .ok _ => none
  | .error e => some e

/-- The session that the last of several calls leaves, if there is one. -/
def Outcome.sessionAfter (s : Session) (outcomes : List Outcome) : Session :=
  (outcomes.getLast?.map session).getD s

theorem Outcome.sessionAfter_cons (s : Session) (o : Outcome) (outcomes : List Outcome) :
    sessionAfter s (o :: outcomes) = sessionAfter o.session outcomes := by
  rw [sessionAfter, List.getLast?_cons, Option.map_some, Option.getD_some, sessionAfter,
    Option.getD_map]

namespace Registry

/-- What comes of a command called for one operand after another. Each call finds the session that
the one before it has left, also after a failure. -/
def outcomesEach (r : Registry) (inv : Invocation) : List String → Session → List Outcome
  | [], _ => []
  | expr :: rest, s =>
    let o := r.dispatch (inv.alone expr) s
    o :: outcomesEach r inv rest o.session

/-- What comes of the calls up to the first one that fails. -/
def outcomesUntilFailure (r : Registry) (inv : Invocation) : List String → Session → List Outcome
  | [], _ => []
  | expr :: rest, s =>
    let o := r.dispatch (inv.alone expr) s
    match o.result with
    | .ok _ => o :: outcomesUntilFailure r inv rest o.session
    | .error _ => [o]

end Registry

theorem Builtin.needOperands_of_ne_nil {b : Builtin} {args : Arguments} {s : Session}
    (h : args.operands ≠ []) (run : Outcome) : b.needOperands args s run = run := by
  rw [needOperands, if_neg (by simpa using h)]

/-! ## Calls that are edits -/

/-- A session with its tree edited once, if the edit does not fail. -/
def Outcome.ofAttempt (s : Session) : Except ShellError Node → Outcome
  | .ok t => .silent { s with tree := t }
  | .error e => .failed s e

section Edits

variable {edit : Node → String → Except ShellError Node} {r : Registry} {inv : Invocation}
  {s : Session}

theorem ofEdit_untilFailure_singleton (s : Session) (t : Node) (expr : String) :
    Outcome.ofEdit { s with tree := t } (untilFailure edit t [expr]) =
      .ofAttempt { s with tree := t } (edit t expr) := by
  unfold untilFailure
  cases edit t expr <;> rfl

theorem ofEdit_despiteFailures_singleton (s : Session) (t : Node) (expr : String) :
    Outcome.ofEdit { s with tree := t } (despiteFailures edit t [expr]) =
      .ofAttempt { s with tree := t } (edit t expr) := by
  unfold despiteFailures
  cases edit t expr <;> rfl

theorem result_ofEdit (s : Session) (p : Node × Option ShellError) :
    (Outcome.ofEdit s p).result = p.2.elim (.ok none) .error := by
  obtain ⟨t, _ | e⟩ := p <;> rfl

theorem failure?_ofEdit (s : Session) (p : Node × Option ShellError) :
    (Outcome.ofEdit s p).failure? = p.2 := by
  obtain ⟨t, _ | e⟩ := p <;> rfl

/-- Calls whatever comes of them edit despite failures. -/
theorem outcomesEach_of_edits
    (hone : ∀ expr t, r.dispatch (inv.alone expr) { s with tree := t } =
      .ofEdit { s with tree := t } (despiteFailures edit t [expr]))
    (operands : List String) (t : Node) :
    Outcome.sessionAfter { s with tree := t } (r.outcomesEach inv operands { s with tree := t }) =
        { s with tree := (despiteFailures edit t operands).1 } ∧
      (r.outcomesEach inv operands { s with tree := t }).findSome? Outcome.failure? =
        (despiteFailures edit t operands).2 := by
  induction operands generalizing t with
  | nil => exact ⟨rfl, rfl⟩
  | cons expr rest ih =>
    rw [Registry.outcomesEach, hone, ofEdit_despiteFailures_singleton, Outcome.sessionAfter_cons,
      List.findSome?_cons]
    cases hedit : edit t expr with
    | ok u =>
      rw [despiteFailures, hedit]
      exact ih u
    | error e =>
      -- the calls behind a failed one find the tree that it found
      rw [despiteFailures_cons_error hedit]
      exact ⟨(ih t).1, rfl⟩

/-- Calls up to the first failure edit until failure. -/
theorem outcomesUntilFailure_of_edits
    (hone : ∀ expr t, r.dispatch (inv.alone expr) { s with tree := t } =
      .ofEdit { s with tree := t } (untilFailure edit t [expr]))
    (operands : List String) (t : Node) :
    (r.outcomesUntilFailure inv operands { s with tree := t }).getLast?.getD
        (.silent { s with tree := t }) =
      .ofEdit s (untilFailure edit t operands) := by
  induction operands generalizing t with
  | nil => rfl
  | cons expr rest ih =>
    rw [Registry.outcomesUntilFailure, hone, ofEdit_untilFailure_singleton]
    cases hedit : edit t expr with
    | ok u =>
      rw [untilFailure, hedit, ← ih u]
      exact congrArg (Option.getD · _) List.getLast?_cons
    | error e =>
      rw [untilFailure_cons_error hedit]
      rfl

theorem outcomesUntilFailure_ne_nil {operands : List String} (h : operands ≠ []) :
    r.outcomesUntilFailure inv operands s ≠ [] := by
  obtain ⟨expr, rest, rfl⟩ := List.exists_cons_of_ne_nil h
  unfold Registry.outcomesUntilFailure
  simp only
  split <;> exact List.cons_ne_nil _ _

/-- The last call up to the first failure tells what comes of all. -/
theorem getLast?_outcomesUntilFailure
    (hone : ∀ expr t, r.dispatch (inv.alone expr) { s with tree := t } =
      .ofEdit { s with tree := t } (untilFailure edit t [expr]))
    {operands : List String} (h : operands ≠ []) :
    (r.outcomesUntilFailure inv operands s).getLast? =
      some (.ofEdit s (untilFailure edit s.tree operands)) := by
  have hlast := outcomesUntilFailure_of_edits hone operands s.tree
  rw [List.getLast?_eq_some_getLast (outcomesUntilFailure_ne_nil h)] at hlast ⊢
  exact congrArg some hlast

end Edits

/-! ## The commands -/

open Registry (builtins)

section Commands

variable {inv : Invocation} (h : inv.args.operands ≠ []) (s : Session)
include h

theorem dispatch_mkdir (hname : inv.name = Builtin.mkdir.name) :
    builtins.dispatch inv s =
      .ofEdit s (despiteFailures (makeDirectory s.cwd) s.tree inv.args.operands) := by
  rw [Registry.dispatch_builtins .mkdir hname]
  exact Builtin.needOperands_of_ne_nil h _

theorem dispatch_touch (hname : inv.name = Builtin.touch.name) :
    builtins.dispatch inv s =
      .ofEdit s (untilFailure (touchFile s.cwd) s.tree inv.args.operands) := by
  rw [Registry.dispatch_builtins .touch hname]
  exact Builtin.needOperands_of_ne_nil h _

theorem dispatch_rm (hname : inv.name = Builtin.rm.name) :
    builtins.dispatch inv s =
      .ofEdit s (untilFailure
        (removeNode (inv.args.hasFlag 'r' || inv.args.hasFlag 'R') s.cwd) s.tree
        inv.args.operands) := by
  rw [Registry.dispatch_builtins .rm hname]
  exact Builtin.needOperands_of_ne_nil h _

end Commands

/-- **Many operands are many calls.** To make several directories by one command is to make each by
a command of its own, whatever comes of the others: the session is the same in the end, and the
command fails as the first of these commands that does. To touch or to remove several nodes by one
command is to do so by commands of their own up to the first that fails: all that comes of the
command is what comes of the last one called. -/
theorem many_operands_are_many_calls (inv : Invocation) (s : Session)
    (h : inv.args.operands ≠ []) :
    (inv.name = Builtin.mkdir.name →
      let outcomes := builtins.outcomesEach inv inv.args.operands s
      (builtins.dispatch inv s).session = Outcome.sessionAfter s outcomes ∧
        (builtins.dispatch inv s).result =
          (outcomes.findSome? Outcome.failure?).elim (.ok none) .error) ∧
    (inv.name = Builtin.touch.name ∨ inv.name = Builtin.rm.name →
      (builtins.outcomesUntilFailure inv inv.args.operands s).getLast? =
        some (builtins.dispatch inv s)) := by
  have hne (expr : String) : (inv.alone expr).args.operands ≠ [] := List.cons_ne_nil expr []
  refine ⟨fun hname => ?_, ?_⟩
  · obtain ⟨hsession, hfailure⟩ := outcomesEach_of_edits (s := s)
      (fun expr t => dispatch_mkdir (hne expr) { s with tree := t } hname) inv.args.operands s.tree
    rw [dispatch_mkdir h s hname, session_ofEdit, result_ofEdit, ← hfailure]
    exact ⟨hsession.symm, rfl⟩
  · rintro (hname | hname)
    · rw [dispatch_touch h s hname]
      exact getLast?_outcomesUntilFailure
        (fun expr t => dispatch_touch (hne expr) { s with tree := t } hname) h
    · rw [dispatch_rm h s hname]
      exact getLast?_outcomesUntilFailure
        (fun expr t => dispatch_rm (hne expr) { s with tree := t } hname) h

/-- A directory missing for one operand may be made for the next, and one there may be gone. -/
theorem many_operands_are_many_calls_in_order :
    let make := Invocation.ofChunk "mkdir a/b a a/b a"
    let remove := Invocation.ofChunk "rm -r a a/b c"
    let made := builtins.outcomesEach make make.args.operands .fresh
    let s := Outcome.sessionAfter .fresh made
    (make.args.operands ≠ [] ∧ make.name = Builtin.mkdir.name ∧
      (builtins.dispatch make .fresh).session = s ∧
      made.filterMap Outcome.failure? =
        [.refused .noSuchFile "a/b", .refused .fileExists "a"] ∧
      (builtins.dispatch make .fresh).result = .error (.refused .noSuchFile "a/b")) ∧
    remove.args.operands ≠ [] ∧ remove.name = Builtin.rm.name ∧
      (builtins.outcomesUntilFailure remove remove.args.operands s).getLast? =
        some (builtins.dispatch remove s) ∧
      (builtins.dispatch remove s).failure? = some (.refused .noSuchFile "a/b") := by
  intro make remove made s
  have hmake : make.args.operands ≠ [] := by decide +kernel
  have hremove : remove.args.operands ≠ [] := by decide +kernel
  have hname : remove.name = Builtin.rm.name := by decide +kernel
  have hfailures : made.filterMap Outcome.failure? =
      [.refused .noSuchFile "a/b", .refused .fileExists "a"] := by decide +kernel
  have hfirst : made.findSome? Outcome.failure? = some (.refused .noSuchFile "a/b") := by
    decide +kernel
  obtain ⟨hsession, hresult⟩ :=
    (many_operands_are_many_calls make .fresh hmake).1 (by decide +kernel)
  exact ⟨⟨hmake, by decide +kernel, hsession, hfailures, hresult.trans (by rw [hfirst]; rfl)⟩,
    hremove, hname, (many_operands_are_many_calls remove s hremove).2 (.inr hname),
    by decide +kernel⟩

end MemoryShell
