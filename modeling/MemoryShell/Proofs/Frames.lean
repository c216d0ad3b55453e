import MemoryShell.Proofs.Chaining
import MemoryShell.Proofs.Operands

/-!
# What commands leave alone

Each built-in command has its part of the session, and leaves the rest as it is. One that fails
leaves all as it is, but for operands that had their effect before another one failed. Headlines:

* `Builtin.Ends.cwd`: when the working directory moves;
* `Registry.exists_tries`: a command that edits the tree, as a call for each operand;
* `commands_keep_to_their_part`: a built-in command called in any shell.
-/

namespace MemoryShell

/-! ## Sessions after a command -/

section Logged

variable {o : Outcome}

theorem Outcome.logged_of_failure (h : o.failure? ≠ none) : o.logged = o.session := by
  obtain ⟨s, e | text?⟩ := o
  · rfl
  · exact absurd rfl h

theorem Outcome.cwd_logged (o : Outcome) : o.logged.cwd = o.session.cwd := by
  obtain ⟨s, e | _ | text⟩ := o <;> rfl

/-- An output logged is an entry more. -/
theorem Builtin.Frame.logged {b : Builtin} {s : Session} (h : b.Frame s o.session) :
    b.Frame s o.logged := by
  obtain ⟨t, e | _ | text⟩ := o
  · exact h
  · exact h
  · exact ⟨h.settings, h.cwd, fun hb => (h.history hb).trans (List.prefix_append _ _), h.tree⟩

end Logged

namespace Builtin.Ends

variable {b : Builtin} {args : Arguments} {s : Session} {o : Outcome}

/-- Only a success of `cd` moves the working directory, and to the canonical path of the directory
found. -/
theorem cwd (h : b.Ends args s o) (hmoved : o.session.cwd ≠ s.cwd) :
    b = cd ∧ o.failure? = none ∧ Path.IsCanonical o.session.cwd ∧
      ∃ dir, resolve s.tree s.cwd (args.operands.head?.getD "/") = .ok dir ∧
        o.session.cwd = dir.path ∧ lookup s.tree o.session.cwd = some dir.node ∧
        dir.node.isDir = true := by
  cases h with
  | told text? => exact absurd rfl hmoved
  | refused e => exact absurd rfl hmoved
  | cleared isClear => exact absurd rfl hmoved
  | @entered isCd dir resolved isDir =>
    obtain ⟨names, hnames, hpath, hfind⟩ := resolve_eq_ok resolved
    have hlookup : lookup s.tree dir.path = some dir.node := by
      rw [hpath, lookup_ofNames hnames, hfind]
    exact ⟨isCd, rfl, Path.isCanonical_iff.mpr ⟨names, hnames, hpath⟩, dir, resolved, rfl, hlookup,
      isDir⟩
  | edited edits p =>
    rw [session_ofEdit] at hmoved
    exact absurd rfl hmoved

/-- A failure leaves all as it is, unless the command edits the tree. -/
theorem session_of_failure (h : b.Ends args s o) (hfailed : o.failure? ≠ none) :
    o.session = s ∨ b ∈ [mkdir, touch, rm] := by
  cases h with
  | told text? => exact .inl rfl
  | refused e => exact .inl rfl
  | cleared isClear => exact absurd rfl hfailed
  | entered isCd _ _ => exact absurd rfl hfailed
  | edited edits p => exact .inr edits

end Builtin.Ends

/-! ## Calls for one operand after another -/

namespace Registry

/-- A command is tried for one operand after another: a call that succeeds does so without output,
and one that fails leaves all as it is. The operands `done` are those of the calls that succeed. -/
inductive Tries (r : Registry) (inv : Invocation) :
    Session → List String → List String → Session → Prop
  | nil (s : Session) : Tries r inv s [] [] s
  | success {s t u : Session} {expr : String} {tried done : List String}
      (call : r.dispatch (inv.alone expr) s = .silent u) (rest : Tries r inv u tried done t) :
      Tries r inv s (expr :: tried) (expr :: done) t
  | failure {s t : Session} {expr : String} {e : ShellError} {tried done : List String}
      (call : r.dispatch (inv.alone expr) s = .failed s e) (rest : Tries r inv s tried done t) :
      Tries r inv s (expr :: tried) done t

variable {r : Registry} {inv : Invocation} {s t : Session} {tried done : List String}

/-- Where no call succeeds, nothing changes. -/
theorem Tries.eq_of_done_eq_nil (h : r.Tries inv s tried done t) (hdone : done = []) : t = s := by
  induction h with
  | nil s => rfl
  | success call rest ih => exact absurd hdone (List.cons_ne_nil _ _)
  | failure call rest ih => exact ih hdone

/-- A command that fails, though one of its operands had its effect, has another operand. -/
theorem Tries.two_le_length (h : r.Tries inv s tried done t) (htried : tried <+: inv.args.operands)
    (hdone : done ≠ []) (hfailed : (r.dispatch inv s).failure? ≠ none) :
    2 ≤ inv.args.operands.length := by
  rcases hall : inv.args.operands with _ | ⟨expr, _ | ⟨expr', rest⟩⟩
  · rw [hall, List.prefix_nil] at htried
    subst htried
    cases h
    exact absurd rfl hdone
  · rw [hall, List.prefix_cons_iff] at htried
    have halone : inv.alone expr = inv := by rw [Invocation.alone, ← hall]
    rcases htried with rfl | ⟨_, rfl, hnil⟩
    · cases h
      exact absurd rfl hdone
    · obtain rfl := List.prefix_nil.mp hnil
      cases h with
      | success call rest =>
        -- the only operand is the whole command, which fails
        rw [halone] at call
        rw [call] at hfailed
        exact absurd rfl hfailed
      | failure call rest =>
        cases rest
        exact absurd rfl hdone
  · simp

section Edits

variable {edit : Node → String → Except ShellError Node}
  (hone : ∀ expr t, r.dispatch (inv.alone expr) { s with tree := t } =
    .ofAttempt { s with tree := t } (edit t expr))
include hone

theorem tries_despiteFailures (operands : List String) (t : Node) :
    ∃ done, r.Tries inv { s with tree := t } operands done
      { s with tree := (despiteFailures edit t operands).1 } := by
  induction operands generalizing t with
  | nil => exact ⟨[], .nil _⟩
  | cons expr rest ih =>
    have hcall := hone expr t
    cases hedit : edit t expr with
    | ok u =>
      rw [hedit] at hcall
      obtain ⟨done, hrest⟩ := ih u
      rw [despiteFailures, hedit]
      exact ⟨expr :: done, .success hcall hrest⟩
    | error e =>
      rw [hedit] at hcall
      obtain ⟨done, hrest⟩ := ih t
      rw [despiteFailures_cons_error hedit]
      exact ⟨done, .failure hcall hrest⟩

theorem tries_untilFailure (operands : List String) (t : Node) :
    ∃ tried done, tried <+: operands ∧ r.Tries inv { s with tree := t } tried done
      { s with tree := (untilFailure edit t operands).1 } := by
  induction operands generalizing t with
  | nil => exact ⟨[], [], List.prefix_rfl, .nil _⟩
  | cons expr rest ih =>
    have hcall := hone expr t
    cases hedit : edit t expr with
    | ok u =>
      rw [hedit] at hcall
      obtain ⟨tried, done, htried, hrest⟩ := ih u
      rw [untilFailure, hedit]
      exact ⟨expr :: tried, expr :: done, List.cons_prefix_cons.mpr ⟨rfl, htried⟩,
        .success hcall hrest⟩
    | error e =>
      rw [hedit] at hcall
      rw [untilFailure_cons_error hedit]
      exact ⟨[expr], [], List.cons_prefix_cons.mpr ⟨rfl, List.nil_prefix⟩,
        .failure hcall (.nil _)⟩

end Edits

/-- The session after edits for the operands, also if there are none and the command refuses. -/
theorem session_needOperands {b : Builtin} {args : Arguments} {p : Node × Option ShellError}
    (h : args.operands = [] → p.1 = s.tree) :
    (b.needOperands args s (.ofEdit s p)).session = { s with tree := p.1 } := by
  by_cases hnone : args.operands = []
  · rw [Builtin.needOperands, if_pos (by simpa using hnone), h hnone]
    rfl
  · rw [Builtin.needOperands_of_ne_nil hnone, session_ofEdit]

/-- **A command that edits the tree tries its operands one after another**, from the first on. -/
theorem exists_tries {b : Builtin} (h : r.get? inv.name = some b.command) (hname : inv.name ≠ "")
    (hb : b ∈ [Builtin.mkdir, .touch, .rm]) (s : Session) :
    ∃ tried done, tried <+: inv.args.operands ∧
      r.Tries inv s tried done (r.dispatch inv s).session := by
  have hcall (expr : String) (t : Node) : r.dispatch (inv.alone expr) { s with tree := t } =
      b.run r.manual (inv.alone expr).args { s with tree := t } :=
    dispatch_of_get? (show r.get? (inv.alone expr).name = some b.command from h) hname _
  have hne (expr : String) : (inv.alone expr).args.operands ≠ [] := List.cons_ne_nil expr []
  rw [dispatch_of_get? h hname]
  simp only [List.mem_cons, List.not_mem_nil, or_false] at hb
  rcases hb with rfl | hb
  · have hone (expr : String) (t : Node) := (hcall expr t).trans
      ((Builtin.needOperands_of_ne_nil (hne expr) _).trans
        (ofEdit_despiteFailures_singleton s t expr))
    obtain ⟨done, htries⟩ := tries_despiteFailures hone inv.args.operands s.tree
    refine ⟨_, done, List.prefix_rfl, ?_⟩
    rwa [Builtin.run, session_needOperands fun hnone => by rw [hnone]; rfl]
  · -- the other two differ only in what they do for one operand
    rcases hb with rfl | rfl
    all_goals
      have hone (expr : String) (t : Node) := (hcall expr t).trans
        ((Builtin.needOperands_of_ne_nil (hne expr) _).trans
          (ofEdit_untilFailure_singleton s t expr))
      obtain ⟨tried, done, htried, htries⟩ := tries_untilFailure hone inv.args.operands s.tree
      refine ⟨tried, done, htried, ?_⟩
      rwa [Builtin.run, session_needOperands fun hnone => by rw [hnone]; rfl]

end Registry

/-- **A built-in command keeps to its part of the session, and a failure leaves nothing half done.**
In any shell where a name stands for a built-in command, let this command be called. It never
changes the settings; it moves the working directory only as a success of `cd`, and to the canonical
path of a directory that is there; it keeps all entries of the transcript unless it is `clear`, and
the tree unless it is `mkdir`, `touch` or `rm`. If it fails, the session is the one before, or it is
one of these three, has two or more operands, and leaves what it has done for some of them, each of
which had its effect as in a call of its own, while each other one tried has had none. -/
theorem commands_keep_to_their_part {r : Registry} {inv : Invocation} {b : Builtin}
    (h : r.get? inv.name = some b.command) (s : Session) :
    let o := r.dispatch inv s
    let t := o.logged
    t.settings = s.settings ∧
    (t.cwd ≠ s.cwd → b = .cd ∧ o.failure? = none ∧ Path.IsCanonical t.cwd ∧
      ∃ dir, resolve s.tree s.cwd (inv.args.operands.head?.getD "/") = .ok dir ∧
        t.cwd = dir.path ∧ lookup t.tree t.cwd = some dir.node ∧ dir.node.isDir = true) ∧
    (b ≠ .clear → s.history <+: t.history) ∧
    (b ∉ [Builtin.mkdir, .touch, .rm] → t.tree = s.tree) ∧
    (o.failure? ≠ none → t = s ∨
      b ∈ [Builtin.mkdir, .touch, .rm] ∧ 2 ≤ inv.args.operands.length ∧
        ∃ tried done, tried <+: inv.args.operands ∧ done ≠ [] ∧ r.Tries inv s tried done t) := by
  intro o t
  by_cases hname : inv.name = ""
  · -- a blank name calls no command, whatever it stands for
    have ho : o = .silent s := by
      simp only [o, Registry.dispatch, if_pos hname]
    have ht : t = s := by
      simp only [t, ho]
      rfl
    rw [ht, ho]
    exact ⟨rfl, fun hmoved => absurd rfl hmoved, fun _ => List.prefix_rfl, fun _ => rfl,
      fun hfailed => absurd rfl hfailed⟩
  have hends : b.Ends inv.args s o := by
    simp only [o, Registry.dispatch_of_get? h hname]
    exact b.run_ends r.manual inv.args s
  have hframe : b.Frame s t := hends.frame.logged
  refine ⟨hframe.settings, fun hmoved => ?_, hframe.history, hframe.tree, fun hfailed => ?_⟩
  · have hcwd : t.cwd = o.session.cwd := o.cwd_logged
    rw [hcwd] at hmoved ⊢
    obtain ⟨rfl, hentered⟩ := hends.cwd hmoved
    rw [hframe.tree (by decide)]
    exact ⟨rfl, hentered⟩
  · have ht : t = o.session := Outcome.logged_of_failure hfailed
    rw [ht]
    rcases hends.session_of_failure hfailed with hsame | hb
    · exact .inl hsame
    · obtain ⟨tried, done, htried, htries⟩ := Registry.exists_tries h hname hb s
      by_cases hdone : done = []
      · exact .inl (htries.eq_of_done_eq_nil hdone)
      · exact .inr ⟨hb, htries.two_le_length htried hdone hfailed, tried, done, htried, hdone,
          htries⟩

/-- A failure between two successes undoes none, and stops none. -/
theorem commands_keep_to_their_part_some_made :
    let s : Session := ⟨[.output "old"], .root, "", .none⟩
    let inv := Invocation.ofChunk "mkdir a x/y a/b"
    let o := Registry.builtins.dispatch inv s
    let t := o.logged
    Registry.builtins.get? inv.name = some Builtin.mkdir.command ∧
      o.failure? = some (.refused .noSuchFile "x/y") ∧
      t.tree = .directory "/" [.directory "a" [.directory "b" []]] ∧
      t.settings = s.settings ∧ s.history <+: t.history ∧ 2 ≤ inv.args.operands.length ∧
      ∃ tried done, tried <+: inv.args.operands ∧ done ≠ [] ∧
        Registry.builtins.Tries inv s tried done t := by
  intro s inv o t
  have hname : inv.name = Builtin.mkdir.name := by decide +kernel
  have hget : Registry.builtins.get? inv.name = some Builtin.mkdir.command := by
    rw [hname, Registry.get?_builtins_name]
  have hfailure : o.failure? = some (.refused .noSuchFile "x/y") := by decide +kernel
  have htree : t.tree = .directory "/" [.directory "a" [.directory "b" []]] := by decide +kernel
  obtain ⟨hsettings, -, hhistory, -, hfailed⟩ := commands_keep_to_their_part hget s
  rcases hfailed (hfailure ▸ Option.some_ne_none _) with hsame | ⟨-, htwo, htries⟩
  · have hchanged : t.tree ≠ s.tree := by
      rw [htree]
      decide
    exact absurd (congrArg Session.tree hsame) hchanged
  · exact ⟨hget, hfailure, htree, hsettings, hhistory (by decide), htwo, htries⟩

end MemoryShell
