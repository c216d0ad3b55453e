import MemoryShell.Builtin
import MemoryShell.Proofs.Walks

/-!
# How commands fail

The failures that belong to starting up never come out of a command: a built-in command fails only
by refusing, with one of the eight faults and the text at fault. Headlines:

* `insertAt_refuses`, `removeAt_refuses`: edits of the tree;
* `untilFailure_fails`, `despiteFailures_fails`: edits for several operands;
* `Builtin.run_refuses`: the built-in commands.
-/

namespace MemoryShell

variable {α β : Type}

/-- A refusal: some fault, found at some text. -/
def ShellError.IsRefusal (e : ShellError) : Prop := ∃ fault token, e = .refused fault token

/-- If this fails at all, it refuses. -/
def Refuses (x : Except ShellError α) : Prop := ∀ e, x = .error e → e.IsRefusal

theorem refuses_ok (a : α) : Refuses (.ok a) := by
  intro e h
  cases h

theorem refuses_error {e : ShellError} (h : e.IsRefusal) :
    Refuses (.error e : Except ShellError α) := by
  intro e' he
  exact Except.error.inj he ▸ h

theorem refuses_refused (fault : Fault) (token : String) :
    Refuses (.error (.refused fault token) : Except ShellError α) :=
  refuses_error ⟨fault, token, rfl⟩

theorem Refuses.map {x : Except ShellError α} (h : Refuses x) (f : α → β) : Refuses (x.map f) := by
  cases x with
  | error e => exact refuses_error (h e rfl)
  | ok a => exact refuses_ok (f a)

theorem Refuses.bind {x : Except ShellError α} {f : α → Except ShellError β} (h : Refuses x)
    (hf : ∀ a, Refuses (f a)) : Refuses (x >>= f) := by
  cases x with
  | error e => exact refuses_error (h e rfl)
  | ok a => exact hf a

theorem Refuses.mapM {f : α → Except ShellError β} (hf : ∀ a, Refuses (f a)) (as : List α) :
    Refuses (as.mapM f) := by
  induction as with
  | nil => exact refuses_ok []
  | cons a as ih =>
    rw [List.mapM_cons]
    exact (hf a).bind fun b => ih.bind fun bs => refuses_ok (b :: bs)

/-! ## Trees -/

section Trees

variable (root : Node) (cwd expr : String)

theorem resolve_refuses : Refuses (resolve root cwd expr) := by
  intro e h
  exact ⟨.noSuchFile, expr, resolve_eq_error h⟩

theorem Node.Taken.toError_isRefusal (taken : Node.Taken) : taken.toError.IsRefusal := by
  cases taken with
  | nameTaken name => exact ⟨.fileExists, name, rfl⟩
  | isFile name => exact ⟨.notADirectory, name, rfl⟩

theorem insertAt_refuses (make : String → Node) : Refuses (insertAt root cwd expr make) := by
  unfold insertAt
  simp only
  split
  · exact refuses_refused .invalidName expr
  split
  · exact refuses_refused .noSuchFile expr
  split
  · exact refuses_refused .notADirectory expr
  split
  · exact refuses_refused .fileExists expr
  split
  · exact refuses_refused .noSuchFile expr
  split
  · rename_i taken _
    exact refuses_error taken.toError_isRefusal
  · exact refuses_ok _

theorem removeAt_refuses (recursive : Bool) : Refuses (removeAt root cwd expr recursive) := by
  unfold removeAt
  split
  · rename_i e he
    exact refuses_error (resolve_refuses root cwd expr e he)
  split
  · exact refuses_refused .busy expr
  split
  · exact refuses_refused .isADirectory expr
  simp only
  split
  · exact refuses_refused .noSuchFile expr
  · exact refuses_ok _

theorem touchFile_refuses : Refuses (touchFile cwd root expr) := by
  unfold touchFile
  split
  · split
    · exact refuses_refused .isADirectory expr
    · exact refuses_ok root
  · exact (insertAt_refuses root cwd expr _).map _

theorem listedIn_refuses (target : Location) (all : Bool) :
    Refuses (listedIn root target all) := by
  unfold listedIn
  split
  · exact refuses_ok _
  split
  · exact (resolve_refuses root target.path "..").bind fun _ => refuses_ok _
  · exact refuses_ok _

end Trees

/-! ## Operands one by one -/

section Operands

variable {edit : Node → String → Except ShellError Node}

/-- The first failure is the same, whether it stops the edits or not. -/
theorem snd_despiteFailures (t : Node) (operands : List String) :
    (despiteFailures edit t operands).2 = (untilFailure edit t operands).2 := by
  induction operands generalizing t with
  | nil => rfl
  | cons expr rest ih =>
    unfold despiteFailures untilFailure
    cases edit t expr with
    | ok u => exact ih u
    | error e => rfl

variable {P : ShellError → Prop} (h : ∀ t expr e, edit t expr = .error e → P e)
include h

/-- Edits for several operands fail only as an edit for one fails. -/
theorem untilFailure_fails (t : Node) (operands : List String) {e : ShellError}
    (he : (untilFailure edit t operands).2 = some e) : P e := by
  induction operands generalizing t with
  | nil => cases he
  | cons expr rest ih =>
    unfold untilFailure at he
    cases hedit : edit t expr with
    | ok u =>
      rw [hedit] at he
      exact ih u he
    | error e' =>
      rw [hedit] at he
      obtain rfl := Option.some.inj he
      exact h t expr e' hedit

theorem despiteFailures_fails (t : Node) (operands : List String) {e : ShellError}
    (he : (despiteFailures edit t operands).2 = some e) : P e :=
  untilFailure_fails h t operands ((snd_despiteFailures t operands).symm.trans he)

end Operands

/-! ## Commands -/

namespace Builtin

variable (b : Builtin) (manual : Manual) (args : Arguments) (s : Session)

theorem readFile_refuses (expr : String) : Refuses (readFile s expr) := by
  unfold readFile
  refine (resolve_refuses s.tree s.cwd expr).bind fun found => ?_
  split
  · exact refuses_ok _
  · exact refuses_refused .isADirectory expr

variable {b s} in
theorem needOperands_refuses {run : Outcome} (h : Refuses run.result) :
    Refuses (b.needOperands args s run).result := by
  unfold needOperands
  split
  · exact refuses_refused .missingOperand b.name
  · exact h

variable {s} in
theorem ofEdit_refuses {p : Node × Option ShellError} (h : ∀ e, p.2 = some e → e.IsRefusal) :
    Refuses (Outcome.ofEdit s p).result := by
  obtain ⟨t, _ | e⟩ := p
  · exact refuses_ok none
  · exact refuses_error (h e rfl)

/-- **A built-in command fails only by refusing.** -/
theorem run_refuses : Refuses (b.run manual args s).result := by
  cases b with
  | help =>
    simp only [run, runHelp]
    split
    · exact refuses_ok _
    split
    · exact refuses_ok _
    · exact refuses_refused .commandNotFound _
  | clear => exact refuses_ok none
  | ls =>
    have hentries : Refuses (resolve s.tree s.cwd (args.operands.head?.getD ".") >>= fun target =>
        listedIn s.tree target (args.hasFlag 'a')) :=
      (resolve_refuses s.tree s.cwd _).bind fun target => listedIn_refuses s.tree target _
    simp only [run, runLs]
    split
    · exact refuses_ok none
    · exact refuses_ok _
    · rename_i e he
      exact refuses_error (hentries e he)
  | cd =>
    simp only [run, runCd]
    split
    · split
      · exact refuses_ok none
      · exact refuses_refused .notADirectory _
    · rename_i e he
      exact refuses_error (resolve_refuses s.tree s.cwd _ e he)
  | pwd => exact refuses_ok _
  | cat =>
    refine needOperands_refuses args ?_
    unfold runCat
    split
    · exact refuses_ok _
    · rename_i e he
      exact refuses_error (Refuses.mapM (readFile_refuses s) args.operands e he)
  | mkdir =>
    refine needOperands_refuses args (ofEdit_refuses fun e => ?_)
    exact despiteFailures_fails (fun t expr => (insertAt_refuses t s.cwd expr _).map _) _ _
  | touch =>
    refine needOperands_refuses args (ofEdit_refuses fun e => ?_)
    exact untilFailure_fails (fun t expr => touchFile_refuses t s.cwd expr) _ _
  | rm =>
    refine needOperands_refuses args (ofEdit_refuses fun e => ?_)
    exact untilFailure_fails (fun t expr => (removeAt_refuses t s.cwd expr _).map _) _ _
  | echo => exact refuses_ok _

end Builtin

end MemoryShell
