import MemoryShell.Proofs.Refusals
import MemoryShell.Proofs.Transcripts

/-!
# The calls of a line

A line calls its commands one after another, each on the session that the one before it left, and
leaves out the rest of a group when one fails. Which commands are called, and what comes of them,
depends on nothing but the tree and the working directory; and what stands in the transcript after
the line can be read off the calls. Headlines:

* `Registry.leads_calls`: a line does what its calls do;
* `tree_and_cwd_decide`: two sessions with the same tree and working directory;
* `transcript_after_line`: the transcript after a line.
-/

namespace MemoryShell

open Registry (builtins)

/-! ## Calls -/

/-- A command called in the course of a line, and the session it is called on. -/
structure Call where
  invocation : Invocation
  session : Session

/-- The text that a command leaves in the transcript: its output, or the report of its failure. -/
def Outcome.text? (messages : Messages) (o : Outcome) : Option String :=
  match o.result with
  | .ok text => text
  | .error e => some (messages.render e)

/-- The session as a command leaves it, with its text logged. -/
def Outcome.told (messages : Messages) (o : Outcome) : Session :=
  (o.text? messages).elim o.session fun text => o.session.log (.output text)

namespace Registry

/-- What comes of a call. -/
def outcome (r : Registry) (c : Call) : Outcome := r.dispatch c.invocation c.session

/-- The text that a call leaves in the transcript. -/
def text? (r : Registry) (messages : Messages) (c : Call) : Option String :=
  (r.outcome c).text? messages

/-- The calls of a group: its commands up to the first that fails. -/
def groupCalls (r : Registry) (messages : Messages) : List Invocation → Session → List Call
  | [], _ => []
  | inv :: rest, s =>
    let o := r.dispatch inv s
    ⟨inv, s⟩ :: if o.result.isOk then r.groupCalls messages rest (o.told messages) else []

/-- The calls of groups, each executed whatever came of the ones before. -/
def groupsCalls (r : Registry) (messages : Messages) : List (List Invocation) → Session → List Call
  | [], _ => []
  | group :: rest, s =>
    r.groupCalls messages group s ++ r.groupsCalls messages rest (r.runGroup messages group s)

/-- The calls of a line. -/
def calls (r : Registry) (messages : Messages) (line : String) (s : Session) : List Call :=
  r.groupsCalls messages (Line.parse line) (s.log (.echo line s.cwd))

/-- Calls lead from one session to another if each is made on the session that the one before it
left, with its text logged. -/
inductive Leads (r : Registry) (messages : Messages) : Session → List Call → Session → Prop
  | nil (s : Session) : Leads r messages s [] s
  | cons (inv : Invocation) {s t : Session} {cs : List Call}
      (rest : Leads r messages ((r.dispatch inv s).told messages) cs t) :
      Leads r messages s (⟨inv, s⟩ :: cs) t

section Leads

variable {r : Registry} {messages : Messages} {s t u : Session}

theorem Leads.append {cs ds : List Call} (h : r.Leads messages s cs t)
    (h' : r.Leads messages t ds u) : r.Leads messages s (cs ++ ds) u := by
  induction h with
  | nil s => exact h'
  | cons inv _ ih => exact .cons inv (ih h')

theorem Leads.exists_of_append {cs ds : List Call} (h : r.Leads messages s (cs ++ ds) u) :
    ∃ t, r.Leads messages s cs t ∧ r.Leads messages t ds u := by
  induction cs generalizing s with
  | nil => exact ⟨s, .nil s, h⟩
  | cons c cs ih =>
    cases h with
    | cons inv rest =>
      obtain ⟨t, hcs, hds⟩ := ih rest
      exact ⟨t, .cons inv hcs, hds⟩

/-- A group goes on exactly after a command that succeeds. -/
theorem runGroup_cons (r : Registry) (messages : Messages) (inv : Invocation)
    (rest : List Invocation) (s : Session) :
    r.runGroup messages (inv :: rest) s =
      if (r.dispatch inv s).result.isOk then
        r.runGroup messages rest ((r.dispatch inv s).told messages)
      else (r.dispatch inv s).told messages := by
  rw [runGroup]
  rcases r.dispatch inv s with ⟨t, e | _ | text⟩ <;> rfl

theorem leads_groupCalls (r : Registry) (messages : Messages) (group : List Invocation)
    (s : Session) :
    r.Leads messages s (r.groupCalls messages group s) (r.runGroup messages group s) := by
  induction group generalizing s with
  | nil => exact .nil s
  | cons inv rest ih =>
    rw [groupCalls, runGroup_cons]
    refine .cons inv ?_
    by_cases hok : (r.dispatch inv s).result.isOk = true
    · rw [if_pos hok, if_pos hok]
      exact ih _
    · rw [if_neg hok, if_neg hok]
      exact .nil _

theorem leads_groupsCalls (r : Registry) (messages : Messages) (groups : List (List Invocation))
    (s : Session) :
    r.Leads messages s (r.groupsCalls messages groups s) (r.runGroups messages groups s) := by
  induction groups generalizing s with
  | nil => exact .nil s
  | cons group rest ih => exact (leads_groupCalls r messages group s).append (ih _)

/-- **A line does what its calls do**, one after another. -/
theorem leads_calls (r : Registry) (messages : Messages) (line : String) (s : Session) :
    r.Leads messages (s.log (.echo line s.cwd)) (r.calls messages line s)
      (r.execute messages line s) :=
  leads_groupsCalls r messages (Line.parse line) _

end Leads

end Registry

/-! ## What the calls depend on -/

/-- Two sessions have the same tree and working directory. -/
structure Session.SamePlace (s t : Session) : Prop where
  tree : s.tree = t.tree
  cwd : s.cwd = t.cwd

/-- Two outcomes leave sessions with the same tree and working directory, and have the same
result. -/
structure Outcome.SamePlace (o p : Outcome) : Prop where
  session : o.session.SamePlace p.session
  result : o.result = p.result

theorem Session.SamePlace.eq_withHistory_withSettings {s t : Session} (h : s.SamePlace t) :
    t = { s with history := t.history, settings := t.settings } := by
  obtain ⟨history, tree, cwd, settings⟩ := s
  obtain ⟨history', tree', cwd', settings'⟩ := t
  obtain ⟨rfl, rfl⟩ := h
  rfl

theorem Builtin.run_samePlace (b : Builtin) (manual : Manual) (args : Arguments) {s t : Session}
    (h : s.SamePlace t) : (b.run manual args s).SamePlace (b.run manual args t) := by
  have ht := run_outside s t.history t.settings b manual args
  rw [← h.eq_withHistory_withSettings] at ht
  rw [ht]
  exact ⟨⟨rfl, rfl⟩, rfl⟩

/-- Logging an output, or none, leaves the place. -/
theorem Outcome.SamePlace.told {o p : Outcome} (h : o.SamePlace p) (messages messages' : Messages) :
    (o.told messages).SamePlace (p.told messages') := by
  have hleft (messages : Messages) (o : Outcome) : (o.told messages).SamePlace o.session := by
    unfold Outcome.told
    cases o.text? messages <;> exact ⟨rfl, rfl⟩
  exact ⟨(hleft messages o).tree.trans (h.session.tree.trans (hleft messages' p).tree.symm),
    (hleft messages o).cwd.trans (h.session.cwd.trans (hleft messages' p).cwd.symm)⟩

namespace Registry

/-- What is called, and what comes of it. -/
def observed (r : Registry) (c : Call) : Invocation × Except ShellError (Option String) :=
  (c.invocation, (r.outcome c).result)

variable {s t : Session} (messages messages' : Messages)

theorem dispatch_samePlace (inv : Invocation) (h : s.SamePlace t) :
    (builtins.dispatch inv s).SamePlace (builtins.dispatch inv t) := by
  rcases dispatch_builtins_cases inv with ⟨b, hname⟩ | ⟨result, hall⟩
  · rw [dispatch_builtins b hname, dispatch_builtins b hname]
    exact b.run_samePlace _ inv.args h
  · rw [hall s, hall t]
    exact ⟨h, rfl⟩

theorem groupCalls_samePlace (group : List Invocation) (h : s.SamePlace t) :
    (builtins.groupCalls messages group s).map builtins.observed =
        (builtins.groupCalls messages' group t).map builtins.observed ∧
      (builtins.runGroup messages group s).SamePlace (builtins.runGroup messages' group t) := by
  induction group generalizing s t with
  | nil => exact ⟨rfl, h⟩
  | cons inv rest ih =>
    have hinv := dispatch_samePlace inv h
    have htold := hinv.told messages messages'
    obtain ⟨hcalls, hrun⟩ := ih htold
    have hobserved : builtins.observed ⟨inv, s⟩ = builtins.observed ⟨inv, t⟩ :=
      congrArg (Prod.mk inv) hinv.result
    rw [groupCalls, groupCalls, runGroup_cons, runGroup_cons, List.map_cons, List.map_cons,
      hobserved, hinv.result]
    -- both sides go on or stop together, since the results are the same
    by_cases hok : (builtins.dispatch inv t).result.isOk = true
    · simp only [if_pos hok]
      exact ⟨congrArg _ hcalls, hrun⟩
    · simp only [if_neg hok]
      exact ⟨trivial, htold⟩

theorem groupsCalls_samePlace (groups : List (List Invocation)) (h : s.SamePlace t) :
    (builtins.groupsCalls messages groups s).map builtins.observed =
        (builtins.groupsCalls messages' groups t).map builtins.observed ∧
      (builtins.runGroups messages groups s).SamePlace
        (builtins.runGroups messages' groups t) := by
  induction groups generalizing s t with
  | nil => exact ⟨rfl, h⟩
  | cons group rest ih =>
    obtain ⟨hcalls, hrun⟩ := groupCalls_samePlace messages messages' group h
    obtain ⟨hcalls', hrun'⟩ := ih hrun
    rw [groupsCalls, groupsCalls, List.map_append, List.map_append, hcalls, hcalls']
    exact ⟨rfl, hrun'⟩

end Registry

/-- **Only the tree and the working directory decide what a line does.** On a session with another
transcript and other settings, and with other message templates, it calls the same commands, each
with the same output or the same failure, and these calls lead to the same tree and working
directory. The settings of either session stay as they are. -/
theorem tree_and_cwd_decide (messages messages' : Messages) (line : String) (s : Session)
    (history : List Entry) (settings : Settings) :
    let t := { s with history, settings }
    let calls := builtins.calls messages line s
    let calls' := builtins.calls messages' line t
    let after := builtins.execute messages line s
    let after' := builtins.execute messages' line t
    builtins.Leads messages (s.log (.echo line s.cwd)) calls after ∧
      builtins.Leads messages' (t.log (.echo line t.cwd)) calls' after' ∧
      calls.map builtins.observed = calls'.map builtins.observed ∧
      after.tree = after'.tree ∧ after.cwd = after'.cwd ∧
      after.settings = s.settings ∧ after'.settings = settings := by
  intro t calls calls' after after'
  have hstart : (s.log (.echo line s.cwd)).SamePlace (t.log (.echo line t.cwd)) := ⟨rfl, rfl⟩
  obtain ⟨hcalls, hplace⟩ :=
    Registry.groupsCalls_samePlace messages messages' (Line.parse line) hstart
  have hsettings (messages : Messages) (s : Session) :
      (builtins.execute messages line s).settings = s.settings :=
    Session.settings_of_changes (Registry.executeAll_changes messages [line] s)
  exact ⟨Registry.leads_calls builtins messages line s,
    Registry.leads_calls builtins messages' line t,
    hcalls, hplace.tree, hplace.cwd, hsettings messages s, hsettings messages' t⟩

/-! ## What the calls leave in the transcript -/

section Texts

variable {messages : Messages} {s t : Session} {cs : List Call}

/-- The outputs that calls leave in the transcript. -/
def Registry.texts (r : Registry) (messages : Messages) (cs : List Call) : List Entry :=
  (cs.filterMap (r.text? messages)).map .output

/-- Whether a call empties the transcript. -/
def Call.IsClear (c : Call) : Prop := c.invocation.name = Builtin.clear.name

instance (c : Call) : Decidable c.IsClear := inferInstanceAs (Decidable (_ = _))

namespace Registry

/-- A call leaves its text behind the entries it finds, or is the one that leaves none of them. -/
theorem history_told (messages : Messages) (c : Call) :
    ((builtins.outcome c).told messages).history =
      (if c.IsClear then [] else c.session.history) ++
        (builtins.text? messages c).toList.map .output := by
  have hsession : (builtins.outcome c).session.history =
      if c.IsClear then [] else c.session.history := by
    unfold outcome
    by_cases hclear : c.IsClear
    · rw [if_pos hclear, dispatch_builtins .clear hclear, Builtin.history_run]
      rfl
    · rw [if_neg hclear]
      rcases dispatch_builtins_cases c.invocation with ⟨b, hname⟩ | ⟨result, hall⟩
      · rw [dispatch_builtins b hname, Builtin.history_run]
        cases b
        case clear => exact absurd hname hclear
        all_goals rfl
      · rw [hall c.session]
  rw [← hsession]
  unfold Outcome.told text?
  cases (builtins.outcome c).text? messages with
  | none => exact (List.append_nil _).symm
  | some text => rfl

theorem text?_of_isClear (messages : Messages) {c : Call} (h : c.IsClear) :
    builtins.text? messages c = none := by
  unfold text? outcome
  rw [dispatch_builtins .clear h]
  rfl

theorem dispatch_refuses (inv : Invocation) (s : Session) :
    Refuses (builtins.dispatch inv s).result := by
  unfold dispatch
  split
  · exact refuses_ok none
  split
  · rename_i c hc
    obtain ⟨b, -, rfl⟩ := get?_builtins hc
    exact b.run_refuses _ inv.args s
  · exact refuses_refused .commandNotFound inv.name

/-- A call that fails is not of `clear`, and its text is the template of the fault. -/
theorem text?_of_failure (messages : Messages) {c : Call} {e : ShellError}
    (h : (builtins.outcome c).result = .error e) :
    ¬ c.IsClear ∧ ∃ fault token, e = .refused fault token ∧
      builtins.text? messages c = some (fill (messages.template fault) token) := by
  obtain ⟨fault, token, rfl⟩ := dispatch_refuses c.invocation c.session e h
  have htext : builtins.text? messages c = some (fill (messages.template fault) token) := by
    rw [text?, Outcome.text?, h]
    rfl
  refine ⟨fun hclear => ?_, fault, token, rfl, htext⟩
  rw [text?_of_isClear messages hclear] at htext
  cases htext

theorem runGroup_singleton (r : Registry) (messages : Messages) (inv : Invocation) (s : Session) :
    r.runGroup messages [inv] s = (r.dispatch inv s).told messages := by
  rw [runGroup_cons]
  split <;> rfl

theorem texts_cons (messages : Messages) (c : Call) (cs : List Call) :
    builtins.texts messages (c :: cs) =
      (builtins.text? messages c).toList.map .output ++ builtins.texts messages cs := by
  unfold texts
  rw [List.filterMap_cons]
  cases builtins.text? messages c <;> rfl

/-- Without `clear`, calls leave the entries there are, and their texts behind them. -/
theorem Leads.history (h : builtins.Leads messages s cs t) (hclear : ∀ c ∈ cs, ¬ c.IsClear) :
    t.history = s.history ++ builtins.texts messages cs := by
  induction h with
  | nil s => exact (List.append_nil _).symm
  | @cons inv s t cs rest ih =>
    have hfirst : ((builtins.dispatch inv s).told messages).history =
        s.history ++ (builtins.text? messages ⟨inv, s⟩).toList.map .output := by
      refine (history_told messages ⟨inv, s⟩).trans ?_
      rw [if_neg (hclear _ List.mem_cons_self)]
    rw [ih fun c hc => hclear c (List.mem_cons_of_mem _ hc), hfirst, texts_cons, List.append_assoc]

/-- Of a call of `clear` and the calls behind it, only the texts of the latter are left. -/
theorem Leads.history_of_isClear {c : Call} (h : builtins.Leads messages s (c :: cs) t)
    (hc : c.IsClear) (hclear : ∀ d ∈ cs, ¬ d.IsClear) :
    t.history = builtins.texts messages cs := by
  cases h with
  | cons inv rest =>
    have hempty : ((builtins.dispatch inv s).told messages).history = [] := by
      refine (history_told messages ⟨inv, s⟩).trans ?_
      rw [if_pos hc, text?_of_isClear messages hc]
      rfl
    rw [rest.history hclear, hempty, List.nil_append]

end Registry

end Texts

/-- **The transcript after a line.** If none of its calls is of `clear`, its echo stands behind the
old entries, and behind it the texts of the calls; if one is, only the texts of the calls after the
last such call are left. A single call adds at most one entry to those it finds, or to none if it
is of `clear`; if it fails, it adds just one, the template of its fault filled with its token. -/
theorem transcript_after_line (messages : Messages) (line : String) (s : Session) :
    let after := builtins.execute messages line s
    let calls := builtins.calls messages line s
    ((∀ c ∈ calls, ¬ c.IsClear) →
      after.history = s.history ++ .echo line s.cwd :: builtins.texts messages calls) ∧
    (∀ done c rest, calls = done ++ c :: rest → c.IsClear → (∀ d ∈ rest, ¬ d.IsClear) →
      after.history = builtins.texts messages rest) ∧
    ∀ c ∈ calls,
      let alone := builtins.runGroup messages [c.invocation] c.session
      (∃ news : Option Entry,
        alone.history = (if c.IsClear then [] else c.session.history) ++ news.toList) ∧
      ∀ e, (builtins.outcome c).result = .error e → ∃ fault token, e = .refused fault token ∧
        alone.history =
          c.session.history ++ [.output (fill (messages.template fault) token)] := by
  intro after calls
  have hleads : builtins.Leads messages (s.log (.echo line s.cwd)) calls after :=
    Registry.leads_calls builtins messages line s
  refine ⟨fun hclear => ?_, fun done c rest hcalls hc hrest => ?_, fun c _ => ?_⟩
  · rw [hleads.history hclear]
    exact List.append_assoc ..
  · rw [hcalls] at hleads
    obtain ⟨t, -, hrun⟩ := hleads.exists_of_append
    exact hrun.history_of_isClear hc hrest
  · intro alone
    have hhistory : alone.history = (if c.IsClear then [] else c.session.history) ++
        (builtins.text? messages c).toList.map .output :=
      (congrArg Session.history (Registry.runGroup_singleton ..)).trans
        (Registry.history_told messages c)
    refine ⟨⟨(builtins.text? messages c).map .output, ?_⟩, fun e he => ?_⟩
    · rw [hhistory]
      cases builtins.text? messages c <;> rfl
    · obtain ⟨hclear, fault, token, rfl, htext⟩ := Registry.text?_of_failure messages he
      rw [htext, if_neg hclear] at hhistory
      exact ⟨fault, token, rfl, hhistory⟩

/-- The calls after a failure are left out, and those after `clear` leave their texts alone. -/
theorem transcript_after_line_cleared :
    let line := "mkdir d; clear x && cat d && pwd; cd d && pwd"
    let s : Session := ⟨[.output "old"], .root, "", .none⟩
    let after := builtins.execute .standard line s
    let calls := builtins.calls .standard line s
    calls.map (·.invocation.name) = ["mkdir", "clear", "cat", "cd", "pwd"] ∧
      after.history = [.output "is a directory: d", .output "/d"] ∧
      ∃ done c rest, calls = done ++ c :: rest ∧ c.IsClear ∧ (∀ d ∈ rest, ¬ d.IsClear) ∧
        after.history = builtins.texts .standard rest := by
  intro line s after calls
  have hnames : calls.map (·.invocation.name) = ["mkdir", "clear", "cat", "cd", "pwd"] := by
    decide +kernel
  obtain ⟨c₀, tail, hcalls, -, htail⟩ := List.map_eq_cons_iff.mp hnames
  obtain ⟨c, rest, hsplit, hc, hrest⟩ := List.map_eq_cons_iff.mp htail
  have hafter : ∀ d ∈ rest, ¬ d.IsClear := by
    intro d hd hclear
    have hname : d.invocation.name ∈ ["cat", "cd", "pwd"] := hrest ▸ List.mem_map_of_mem hd
    rw [hclear] at hname
    exact absurd hname (by decide)
  have hcalls : calls = [c₀] ++ c :: rest := by rw [hcalls, hsplit, List.singleton_append]
  have htexts := (transcript_after_line .standard line s).2.1 [c₀] c rest hcalls hc hafter
  exact ⟨hnames, by decide +kernel, [c₀], c, rest, hcalls, hc, hafter, htexts⟩

end MemoryShell
