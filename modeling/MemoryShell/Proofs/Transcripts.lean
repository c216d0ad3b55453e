import Mathlib.Data.List.Forall2
import MemoryShell.Proofs.Changes
import MemoryShell.Scripted

/-!
# What commands make of the transcript

A command that does not read the transcript does the same to two sessions that differ in nothing
else, so a line does too. Which difference of transcripts is meant stays a parameter: a relation
that every command of the shell keeps. Headlines:

* `Builtin.keeps`, `Script.ignoresTranscript`: the commands there are keep such relations;
* `Registry.Keeps.runGroups`: what the commands keep, a line keeps.
-/

namespace MemoryShell

/-! ## Sessions that differ in the transcript -/

variable {R : List Entry → List Entry → Prop}

/-- Two sessions are alike in all but their transcripts, and these are related. -/
structure Session.Alike (R : List Entry → List Entry → Prop) (s t : Session) : Prop where
  tree : s.tree = t.tree
  cwd : s.cwd = t.cwd
  settings : s.settings = t.settings
  history : R s.history t.history

/-- Two outcomes leave sessions that are alike, and have the same result. -/
structure Outcome.Alike (R : List Entry → List Entry → Prop) (o p : Outcome) : Prop where
  session : o.session.Alike R p.session
  result : o.result = p.result

theorem Session.Alike.eq_withHistory {s t : Session} (h : s.Alike R t) :
    t = { s with history := t.history } := by
  obtain ⟨history, tree, cwd, settings⟩ := s
  obtain ⟨history', tree', cwd', settings'⟩ := t
  obtain ⟨rfl, rfl, rfl, -⟩ := h
  rfl

/-- A command keeps a relation of transcripts if it has outcomes that are alike on sessions that
are. -/
def Command.Keeps (R : List Entry → List Entry → Prop) (c : Command) : Prop :=
  ∀ (manual : Manual) (args : Arguments) (s t : Session), s.Alike R t →
    (c.run manual args s).Alike R (c.run manual args t)

/-- All commands of a shell keep a relation of transcripts. -/
def Registry.Keeps (R : List Entry → List Entry → Prop) (r : Registry) : Prop :=
  ∀ (name : String) (c : Command), r.get? name = some c → c.Keeps R

/-- **A command does not read the transcript** if it cannot tell one entry from another: whatever
relation holds between the entries of two transcripts, place by place, the command has the same
result on both, changes the rest of the session alike, and leaves transcripts between whose entries
the relation holds again. The entries that it writes itself are the same on both sides. -/
def Command.IgnoresTranscript (c : Command) : Prop :=
  ∀ R : Entry → Entry → Prop, (∀ e, R e e) → c.Keeps (List.Forall₂ R)

/-- No command of the shell reads the transcript. -/
def Registry.IgnoresTranscript (r : Registry) : Prop :=
  ∀ (name : String) (c : Command), r.get? name = some c → c.IgnoresTranscript

/-! ## Built-in commands -/

namespace Builtin

/-- What a built-in command leaves of a transcript. -/
def leaves (b : Builtin) (history : List Entry) : List Entry :=
  match b with
  | clear => []
  | _ => history

section Outside

variable (s : Session) (history : List Entry) (settings : Settings)

theorem needOperands_outside {b : Builtin} {args : Arguments} {o p : Outcome}
    (h : p = ⟨{ o.session with history, settings }, o.result⟩) :
    b.needOperands args { s with history, settings } p =
      ⟨{ (b.needOperands args s o).session with history, settings },
        (b.needOperands args s o).result⟩ := by
  unfold needOperands
  split
  · rfl
  · exact h

theorem ofEdit_outside (p : Node × Option ShellError) :
    Outcome.ofEdit { s with history, settings } p =
      ⟨{ (Outcome.ofEdit s p).session with history, settings }, (Outcome.ofEdit s p).result⟩ := by
  obtain ⟨t, _ | e⟩ := p <;> rfl

/-- **A built-in command looks neither at the transcript nor at the settings**: with others it does
the same, and it hands the settings back as they are. -/
theorem run_outside (b : Builtin) (manual : Manual) (args : Arguments) :
    b.run manual args { s with history, settings } =
      ⟨{ (b.run manual args s).session with history := b.leaves history, settings },
        (b.run manual args s).result⟩ := by
  cases b with
  | help =>
    simp only [run, runHelp]
    split
    · rfl
    · split <;> rfl
  | clear => rfl
  | ls =>
    simp only [run, runLs]
    split <;> rfl
  | cd =>
    simp only [run, runCd]
    split
    · split <;> rfl
    · rfl
  | pwd => rfl
  | cat =>
    refine needOperands_outside s history settings ?_
    have hread : readFile { s with history, settings } = readFile s := rfl
    simp only [runCat, hread]
    split <;> rfl
  | mkdir => exact needOperands_outside s history settings (ofEdit_outside s history settings _)
  | touch => exact needOperands_outside s history settings (ofEdit_outside s history settings _)
  | rm => exact needOperands_outside s history settings (ofEdit_outside s history settings _)
  | echo => rfl

end Outside

theorem history_run (b : Builtin) (manual : Manual) (args : Arguments) (s : Session) :
    (b.run manual args s).session.history = b.leaves s.history :=
  congrArg (fun o => o.session.history) (run_outside s s.history s.settings b manual args)

theorem settings_run (b : Builtin) (manual : Manual) (args : Arguments) (s : Session) :
    (b.run manual args s).session.settings = s.settings :=
  congrArg (fun o => o.session.settings) (run_outside s s.history s.settings b manual args)

theorem run_withHistory (b : Builtin) (manual : Manual) (args : Arguments) (s : Session)
    (history : List Entry) :
    b.run manual args { s with history } =
      ⟨{ (b.run manual args s).session with history := b.leaves history },
        (b.run manual args s).result⟩ := by
  refine (run_outside s history s.settings b manual args).trans ?_
  simp only [b.settings_run manual args s]

/-- A built-in command keeps every relation between transcripts that holds between empty ones. -/
theorem keeps (hnil : R [] []) (b : Builtin) : b.command.Keeps R := by
  intro manual args s t h
  have ht := b.run_withHistory manual args s t.history
  have hleaves : R (b.leaves s.history) (b.leaves t.history) := by
    cases b
    case clear => exact hnil
    all_goals exact h.history
  rw [← h.eq_withHistory] at ht
  rw [← b.history_run manual args s] at hleaves
  show (b.run manual args s).Alike R (b.run manual args t)
  rw [ht]
  exact ⟨⟨rfl, rfl, rfl, hleaves⟩, rfl⟩

end Builtin

namespace Registry

theorem builtins_keeps (hnil : R [] []) : builtins.Keeps R := by
  intro name c hc
  obtain ⟨b, -, rfl⟩ := get?_builtins hc
  exact b.keeps hnil

theorem IgnoresTranscript.keeps {r : Registry} (hr : r.IgnoresTranscript)
    {R : Entry → Entry → Prop} (hR : ∀ e, R e e) : r.Keeps (List.Forall₂ R) :=
  fun name c hc => hr name c hc R hR

theorem builtins_ignoresTranscript : builtins.IgnoresTranscript :=
  fun name c hc _ _ => builtins_keeps .nil name c hc

end Registry

/-! ## Scripted commands -/

theorem Session.Alike.log {s t : Session} (h : s.Alike R t) {e : Entry}
    (he : R (s.history ++ [e]) (t.history ++ [e])) : (s.log e).Alike R (t.log e) :=
  ⟨h.tree, h.cwd, h.settings, he⟩

theorem Script.change_alike (script : Script)
    (hlog : ∀ h h' text, R h h' → R (h ++ [.output text]) (h' ++ [.output text])) {s t : Session}
    (h : s.Alike R t) : (script.change s).Alike R (script.change t) := by
  have hpush : (script.push.elim s fun text => s.log (.output text)).Alike R
      (script.push.elim t fun text => t.log (.output text)) := by
    cases script.push with
    | none => exact h
    | some text => exact h.log (hlog _ _ text h.history)
  unfold change
  cases script.cwd <;> cases script.settings
  · exact hpush
  · exact { hpush with settings := rfl }
  · exact { hpush with cwd := rfl }
  · exact { hpush with cwd := rfl, settings := rfl }

/-- A scripted command keeps every relation that an entry written at both ends keeps. -/
theorem Script.keeps (script : Script) (entry : ManualEntry)
    (hlog : ∀ h h' text, R h h' → R (h ++ [.output text]) (h' ++ [.output text])) :
    (script.command entry).Keeps R := by
  intro manual args s t h
  have hchange := script.change_alike hlog h
  simp only [command, run]
  cases script.failure with
  | some e => exact ⟨hchange, rfl⟩
  | none => cases script.output <;> exact ⟨hchange, rfl⟩

theorem forall₂_append_self {R : Entry → Entry → Prop} (hR : ∀ e, R e e) {h h' : List Entry}
    (hh : List.Forall₂ R h h') (e : Entry) : List.Forall₂ R (h ++ [e]) (h' ++ [e]) :=
  List.rel_append hh (.cons (hR e) .nil)

theorem Script.ignoresTranscript (script : Script) (entry : ManualEntry) :
    (script.command entry).IgnoresTranscript :=
  fun _ hR => script.keeps entry fun _ _ _ hh => forall₂_append_self hR hh _

namespace Registry

/-- **Commands registered later may replace others**, as long as they do not read the transcript
either. -/
theorem IgnoresTranscript.extend {r : Registry} (hr : r.IgnoresTranscript) {cs : List Command}
    (hcs : ∀ c ∈ cs, c.IgnoresTranscript) : (r.extend cs).IgnoresTranscript := by
  intro name c hc
  rcases get?_extend hc with ⟨hmem, -⟩ | hget
  · exact hcs c hmem
  · exact hr name c hget

/-! ## Lines -/

variable {r : Registry} {s t : Session}

theorem Keeps.dispatch (hr : r.Keeps R) (inv : Invocation) (h : s.Alike R t) :
    (r.dispatch inv s).Alike R (r.dispatch inv t) := by
  unfold Registry.dispatch
  split
  · exact ⟨h, rfl⟩
  · split
    · rename_i c hc
      exact hr inv.name c hc r.manual inv.args s t h
    · exact ⟨h, rfl⟩

variable (hr : r.Keeps R)
  (hlog : ∀ h h' text, R h h' → R (h ++ [.output text]) (h' ++ [.output text]))
include hr hlog

theorem Keeps.runGroup (messages : Messages) (group : List Invocation) (h : s.Alike R t) :
    (r.runGroup messages group s).Alike R (r.runGroup messages group t) := by
  refine runGroup_rel messages (fun u v text h => h.log (hlog _ _ text h.history)) ?_ group h
  intro inv u v h
  exact ⟨(hr.dispatch inv h).session, (hr.dispatch inv h).result⟩

/-- **What the commands keep, a line keeps.** -/
theorem Keeps.runGroups (messages : Messages) (groups : List (List Invocation))
    (h : s.Alike R t) :
    (r.runGroups messages groups s).Alike R (r.runGroups messages groups t) := by
  refine runGroups_rel messages (fun u v text h => h.log (hlog _ _ text h.history)) ?_ groups h
  intro inv u v h
  exact ⟨(hr.dispatch inv h).session, (hr.dispatch inv h).result⟩

end Registry

end MemoryShell
