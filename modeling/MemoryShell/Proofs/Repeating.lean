import MemoryShell.Proofs.Creation
import MemoryShell.Proofs.Operands
import MemoryShell.Proofs.Refusals

/-!
# Creating twice

What is created for one operand is still there after the operands behind it, so the same command
finds it there the next time. Headlines:

* `LeadsTo.of_retains`: an expression leads to a file or to a directory, whatever is added;
* `forall_of_untilFailure`: what each edit makes and the later ones keep;
* `touchFile_ne_fileExists`: a file that is there is no failure;
* `creating_twice`: `touch` and `mkdir`, called twice alike.
-/

namespace MemoryShell

open MemoryShell.Path (isValidName)

/-! ## What is added to a tree -/

/-- The expression leads to a directory, or else to a file. -/
def LeadsTo (root : Node) (cwd expr : String) (isDir : Bool) : Prop :=
  ∃ found, resolve root cwd expr = .ok found ∧ found.node.isDir = isDir

theorem Node.hasDir_iff_contentAt {t : Node} {names : List String} :
    t.HasDir names ↔ t.contentAt names = some none := by
  rw [HasDir, contentAt, Option.map_eq_some_iff]
  simp only [isDir_eq_isNone_content?, Option.isNone_iff_eq_none]

variable {root t u : Node} {cwd expr : String} {isDir : Bool}

/-- Where a tree keeps all there is, an expression leads to a node of the same kind. -/
theorem LeadsTo.of_retains (h : LeadsTo t cwd expr isDir) (hkeep : t.Retains u) :
    LeadsTo u cwd expr isDir := by
  obtain ⟨⟨path, node⟩, hresolve, rfl⟩ := h
  obtain ⟨names, hnames, rfl, hfind⟩ := resolve_eq_ok hresolve
  have hcontent : t.contentAt names = some node.content? := by rw [Node.contentAt, hfind]; rfl
  obtain ⟨node', hfind', hkind⟩ := Option.map_eq_some_iff.mp (hkeep names _ hcontent)
  have hdirs (ms : List String) (hms : t.HasDir ms) : u.HasDir ms :=
    Node.hasDir_iff_contentAt.mpr (hkeep ms none (Node.hasDir_iff_contentAt.mp hms))
  refine ⟨_, resolve_of_hasDir hresolve hnames hdirs hfind', ?_⟩
  rw [Node.isDir_eq_isNone_content?, hkind, ← Node.isDir_eq_isNone_content?]

/-! ## One operand -/

/-- An insertion leads to the new node. -/
theorem InsertedAt.leadsTo {new dir : Node} {i : Insertion} {names : List String}
    (h : InsertedAt root cwd expr new i names dir) (hname : new.name = leafName expr) :
    LeadsTo i.tree cwd expr new.isDir :=
  ⟨_, h.resolve_expr hname, rfl⟩

theorem touchFile_leadsTo (h : touchFile cwd t expr = .ok u) : LeadsTo u cwd expr false := by
  unfold touchFile at h
  split at h
  · rename_i found hfound
    split at h
    · cases h
    · rename_i hfile
      obtain rfl := Except.ok.inj h
      exact ⟨found, hfound, by simpa using hfile⟩
  · obtain ⟨i, hi, rfl⟩ := exists_of_map_eq_ok h
    obtain ⟨names, dir, hi⟩ := insertAt_eq_ok_iff.mp hi
    exact hi.leadsTo rfl

/-- Nothing is to be done where there is a file. -/
theorem touchFile_eq_ok_self (h : LeadsTo t cwd expr false) : touchFile cwd t expr = .ok t := by
  obtain ⟨found, hfound, hfile⟩ := h
  rw [touchFile, hfound]
  simp [hfile]

/-- **A file that is there is no failure**, since an expression leads nowhere whenever a file is to
be made for it. -/
theorem touchFile_ne_fileExists (t : Node) (cwd expr token : String) :
    touchFile cwd t expr ≠ .error (.refused .fileExists token) := by
  intro h
  unfold touchFile at h
  split at h
  · split at h <;> cases h
  · rename_i e hnowhere
    cases insertionEnd t cwd expr (fun name => .file name "") with
    | invalidName _ ends => rw [ends] at h; cases h
    | noParent _ _ ends => rw [ends] at h; cases h
    | notADirectory _ _ _ ends => rw [ends] at h; cases h
    | fileExists leaf _ _ ends =>
      obtain ⟨found, hfound⟩ := (insertAt_eq_fileExists_iff rfl leaf).mp ends
      cases hnowhere.symm.trans hfound
    -- the new file bears the very name that is free, so it clashes with nothing
    | clash _ _ _ free child _ => cases free.symm.trans child
    | inserted ends _ => rw [ends] at h; cases h

theorem makeDirectory_leadsTo (h : makeDirectory cwd t expr = .ok u) :
    isValidName (leafName expr) = true ∧ LeadsTo u cwd expr true := by
  obtain ⟨i, hi, rfl⟩ := exists_of_map_eq_ok h
  obtain ⟨names, dir, hi⟩ := insertAt_eq_ok_iff.mp hi
  exact ⟨hi.validLeaf, hi.leadsTo rfl⟩

/-- A directory that is there is a failure. -/
theorem makeDirectory_eq_fileExists (hleaf : isValidName (leafName expr) = true)
    (h : LeadsTo t cwd expr isDir) :
    makeDirectory cwd t expr = .error (.refused .fileExists expr) := by
  obtain ⟨found, hfound, -⟩ := h
  have hexists : insertAt t cwd expr (fun name => .directory name []) =
      .error (.refused .fileExists expr) :=
    (insertAt_eq_fileExists_iff rfl hleaf).mpr ⟨found, hfound⟩
  rw [makeDirectory, hexists]
  rfl

/-! ## All operands -/

section Operands

variable {edit : Node → String → Except ShellError Node} {P : String → Node → Prop}
  {operands : List String}

/-- **What each edit makes and the later ones keep** holds for every operand in the end. -/
theorem forall_of_untilFailure (hmade : ∀ expr t u, edit t expr = .ok u → P expr u)
    (hkept : ∀ e expr t u, edit t expr = .ok u → P e t → P e u)
    (h : (untilFailure edit t operands).2 = none) :
    ∀ expr ∈ operands, P expr (untilFailure edit t operands).1 := by
  induction operands generalizing t with
  | nil => exact fun _ hexpr => absurd hexpr List.not_mem_nil
  | cons first rest ih =>
    cases hedit : edit t first with
    | error e =>
      rw [untilFailure_cons_error hedit] at h
      cases h
    | ok u =>
      rw [untilFailure, hedit] at h ⊢
      refine List.forall_mem_cons.mpr ⟨?_, ih h⟩
      -- made by the first edit, and kept by the whole run behind it
      exact untilFailure_induction (fun expr _ => hkept first expr) (hmade first t u hedit)

/-- Where nothing fails, it makes no difference what a failure stops. -/
theorem despiteFailures_eq_untilFailure (h : (despiteFailures edit t operands).2 = none) :
    despiteFailures edit t operands = untilFailure edit t operands := by
  induction operands generalizing t with
  | nil => rfl
  | cons expr rest ih =>
    cases hedit : edit t expr with
    | error e =>
      rw [despiteFailures_cons_error hedit] at h
      cases h
    | ok u =>
      rw [despiteFailures, hedit] at h ⊢
      rw [untilFailure, hedit]
      exact ih h

theorem untilFailure_of_fixed (h : ∀ expr ∈ operands, edit t expr = .ok t) :
    untilFailure edit t operands = (t, none) := by
  induction operands with
  | nil => rfl
  | cons expr rest ih =>
    obtain ⟨hexpr, hrest⟩ := List.forall_mem_cons.mp h
    rw [untilFailure, hexpr]
    exact ih hrest

theorem despiteFailures_of_errors {e : String → ShellError}
    (h : ∀ expr ∈ operands, edit t expr = .error (e expr)) :
    despiteFailures edit t operands = (t, operands.head?.map e) := by
  induction operands with
  | nil => rfl
  | cons expr rest ih =>
    obtain ⟨hexpr, hrest⟩ := List.forall_mem_cons.mp h
    rw [despiteFailures_cons_error hexpr, ih hrest]
    rfl

end Operands

variable {operands : List String}

/-- A file for each operand is found by each operand. -/
theorem untilFailure_touchFile (h : (untilFailure (touchFile cwd) t operands).2 = none) :
    (∀ expr ∈ operands, LeadsTo (untilFailure (touchFile cwd) t operands).1 cwd expr false) ∧
      untilFailure (touchFile cwd) (untilFailure (touchFile cwd) t operands).1 operands =
        ((untilFailure (touchFile cwd) t operands).1, none) := by
  have hall := forall_of_untilFailure (P := fun expr u => LeadsTo u cwd expr false)
    (fun _ _ _ => touchFile_leadsTo) (fun _ _ _ _ hu ht => ht.of_retains (touchFile_retains hu)) h
  exact ⟨hall, untilFailure_of_fixed fun expr he => touchFile_eq_ok_self (hall expr he)⟩

/-- A directory for each operand is found by each operand. -/
theorem despiteFailures_makeDirectory
    (h : (despiteFailures (makeDirectory cwd) t operands).2 = none) :
    (∀ expr ∈ operands, LeadsTo (despiteFailures (makeDirectory cwd) t operands).1 cwd expr true) ∧
      despiteFailures (makeDirectory cwd) (despiteFailures (makeDirectory cwd) t operands).1
          operands =
        ((despiteFailures (makeDirectory cwd) t operands).1,
          operands.head?.map (.refused .fileExists)) := by
  have heq := despiteFailures_eq_untilFailure h
  rw [heq] at h ⊢
  have hall := forall_of_untilFailure
    (P := fun expr u => isValidName (leafName expr) = true ∧ LeadsTo u cwd expr true)
    (fun _ _ _ => makeDirectory_leadsTo)
    (fun _ _ _ _ hu ht => ⟨ht.1, ht.2.of_retains (makeDirectory_retains hu)⟩) h
  exact ⟨fun expr he => (hall expr he).2, despiteFailures_of_errors fun expr he =>
    makeDirectory_eq_fileExists (hall expr he).1 (hall expr he).2⟩

open Registry (builtins)

/-- **Creating twice.** After a success of `touch`, every operand leads to a file, and the same
command succeeds again and changes nothing; and `touch` never fails because a file exists. After a
success of `mkdir`, every operand leads to a directory, and the same command fails, because the
first operand exists, and changes nothing. -/
theorem creating_twice (inv : Invocation) (s : Session) (h : inv.args.operands ≠ []) :
    let o := builtins.dispatch inv s
    let t := o.session
    (inv.name = Builtin.touch.name →
      (o.failure? = none →
        (∀ expr ∈ inv.args.operands, LeadsTo t.tree t.cwd expr false) ∧
          builtins.dispatch inv t = .silent t) ∧
      ∀ token, o.failure? ≠ some (.refused .fileExists token)) ∧
    (inv.name = Builtin.mkdir.name → o.failure? = none →
      (∀ expr ∈ inv.args.operands, LeadsTo t.tree t.cwd expr true) ∧
        ∃ expr, inv.args.operands.head? = some expr ∧
          builtins.dispatch inv t = .failed t (.refused .fileExists expr)) := by
  refine ⟨fun hname => ?_, fun hname => ?_⟩
  · rw [dispatch_touch h s hname, failure?_ofEdit, session_ofEdit]
    refine ⟨fun hok => ?_, fun token hexists => ?_⟩
    · obtain ⟨hall, hagain⟩ := untilFailure_touchFile hok
      refine ⟨hall, ?_⟩
      rw [dispatch_touch h _ hname, hagain]
      rfl
    · exact untilFailure_fails (P := (· ≠ .refused .fileExists token))
        (fun t expr e he => by rintro rfl; exact touchFile_ne_fileExists t s.cwd expr token he)
        _ _ hexists rfl
  · rw [dispatch_mkdir h s hname, failure?_ofEdit, session_ofEdit]
    intro hok
    obtain ⟨hall, hagain⟩ := despiteFailures_makeDirectory hok
    have hfirst := List.head?_eq_some_head h
    refine ⟨hall, _, hfirst, ?_⟩
    rw [dispatch_mkdir h _ hname, hagain, hfirst]
    rfl

/-- Operands may be spelled with dots and slashes, stand twice, or lie below one another. -/
theorem creating_twice_spelled_otherwise :
    let s := builtins.executeAll .standard ["mkdir d && cd d"] .fresh
    let touch := Invocation.ofChunk "touch ../f// ./g /d/../f"
    let mkdir := Invocation.ofChunk "mkdir e/ ../d/e/./x /y"
    let touched := (builtins.dispatch touch s).session
    let made := (builtins.dispatch mkdir s).session
    (touch.args.operands = ["../f//", "./g", "/d/../f"] ∧ touch.name = Builtin.touch.name ∧
      (builtins.dispatch touch s).failure? = none ∧
      (∀ expr ∈ touch.args.operands, LeadsTo touched.tree touched.cwd expr false) ∧
      builtins.dispatch touch touched = .silent touched) ∧
    mkdir.args.operands = ["e/", "../d/e/./x", "/y"] ∧ mkdir.name = Builtin.mkdir.name ∧
      (builtins.dispatch mkdir s).failure? = none ∧
      (∀ expr ∈ mkdir.args.operands, LeadsTo made.tree made.cwd expr true) ∧
      builtins.dispatch mkdir made = .failed made (.refused .fileExists "e/") := by
  intro s touch mkdir touched made
  have htouch : touch.args.operands = ["../f//", "./g", "/d/../f"] := by decide +kernel
  have hmkdir : mkdir.args.operands = ["e/", "../d/e/./x", "/y"] := by decide +kernel
  have htouched : (builtins.dispatch touch s).failure? = none := by decide +kernel
  have hmade : (builtins.dispatch mkdir s).failure? = none := by decide +kernel
  have htouchName : touch.name = Builtin.touch.name := by decide +kernel
  have hmkdirName : mkdir.name = Builtin.mkdir.name := by decide +kernel
  obtain ⟨htwice, -⟩ := (creating_twice touch s (by simp [htouch])).1 htouchName
  obtain ⟨hfiles, hagain⟩ := htwice htouched
  obtain ⟨hdirs, expr, hfirst, hfails⟩ :=
    (creating_twice mkdir s (by simp [hmkdir])).2 hmkdirName hmade
  obtain rfl : "e/" = expr := by simpa [hmkdir] using hfirst
  exact ⟨⟨htouch, htouchName, htouched, hfiles, hagain⟩, hmkdir, hmkdirName, hmade, hdirs, hfails⟩

end MemoryShell
