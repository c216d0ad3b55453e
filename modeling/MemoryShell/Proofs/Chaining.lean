import MemoryShell.Proofs.Lines
import MemoryShell.Proofs.Transcripts

/-!
# Semicolons and double ampersands

What `;` and `&&` mean, told through lines executed apart and commands called one by one. Headlines:

* `semicolon_is_sequencing`: `;` stands for two lines one after another, their echoes aside;
* `Registry.IgnoresTranscript.exists_filled`: which line was typed shows in its echo only;
* `chain_stops_at_first_failure`: `&&` leads up to the first command that fails, whose failure is
  reported once and last.
-/

namespace MemoryShell

open Registry (builtins)

/-! ## Semicolons -/

/-- The outputs of a transcript, without the lines that were typed. -/
def outputs (history : List Entry) : List Entry := history.filter fun e => !e.isEcho

/-- Transcripts with the same outputs. -/
def SameOutputs (h h' : List Entry) : Prop := outputs h = outputs h'

theorem outputs_append (h h' : List Entry) : outputs (h ++ h') = outputs h ++ outputs h' :=
  List.filter_append ..

theorem outputs_append_echo (h : List Entry) (line cwd : String) :
    outputs (h ++ [.echo line cwd]) = outputs h := by
  rw [outputs_append]
  exact List.append_nil _

theorem SameOutputs.append_output (h h' : List Entry) (text : String) (hsame : SameOutputs h h') :
    SameOutputs (h ++ [.output text]) (h' ++ [.output text]) := by
  rw [SameOutputs, outputs_append, outputs_append, hsame]

/-- A line typed on one side only makes no difference. -/
theorem Session.Alike.log_echo {s t : Session} (h : s.Alike SameOutputs t) (line cwd : String) :
    s.Alike SameOutputs (t.log (.echo line cwd)) :=
  ⟨h.tree, h.cwd, h.settings, h.history.trans (outputs_append_echo ..).symm⟩

namespace Registry

variable (r : Registry) (messages : Messages)

/-- The line without commands does nothing, so its commands are all there is to execute. -/
theorem execute_eq_runGroups (line : String) (s : Session) :
    r.execute messages line s =
      r.runGroups messages (Line.commands line) (s.log (.echo line s.cwd)) := by
  by_cases h : Line.groups line = []
  · rw [execute, Line.parse, Line.commands, h]
    rfl
  · rw [execute, Line.parse_of_groups h]
    rfl

theorem runGroups_append (gs gs' : List (List Invocation)) (s : Session) :
    r.runGroups messages (gs ++ gs') s = r.runGroups messages gs' (r.runGroups messages gs s) :=
  List.foldl_append

/-- The built-in commands do not even see that a line was typed. -/
theorem runGroups_builtins_alike (gs : List (List Invocation)) {s t : Session}
    (h : s.Alike SameOutputs t) :
    (builtins.runGroups messages gs s).Alike SameOutputs (builtins.runGroups messages gs t) :=
  have hnil : SameOutputs [] [] := rfl
  (builtins_keeps hnil).runGroups SameOutputs.append_output messages gs h

end Registry

/-- **A semicolon is plain sequencing**: the line `l₁;l₂` leaves the same tree, directory and
settings as the lines `l₁` and `l₂` one after another, and the same outputs. -/
theorem semicolon_is_sequencing (messages : Messages) (l₁ l₂ : String) (s : Session) :
    let joined := builtins.execute messages (l₁ ++ ";" ++ l₂) s
    let apart := builtins.executeAll messages [l₁, l₂] s
    joined.tree = apart.tree ∧ joined.cwd = apart.cwd ∧ joined.settings = apart.settings ∧
      outputs joined.history = outputs apart.history := by
  intro joined apart
  -- the two runs begin with different echoes, and the one apart has a second echo in between
  have hbegin : (s.log (.echo (l₁ ++ ";" ++ l₂) s.cwd)).Alike SameOutputs
      (s.log (.echo l₁ s.cwd)) :=
    ⟨rfl, rfl, rfl, (outputs_append_echo ..).trans (outputs_append_echo ..).symm⟩
  have hfirst := Registry.runGroups_builtins_alike messages (Line.commands l₁) hbegin
  rw [← Registry.execute_eq_runGroups] at hfirst
  have hbetween := hfirst.log_echo l₂ (builtins.execute messages l₁ s).cwd
  have hsecond := Registry.runGroups_builtins_alike messages (Line.commands l₂) hbetween
  rw [← Registry.runGroups_append, ← Line.commands_append, ← Registry.execute_eq_runGroups,
    ← Registry.execute_eq_runGroups] at hsecond
  exact ⟨hsecond.tree, hsecond.cwd, hsecond.settings, hsecond.history⟩

/-! ## Double ampersands -/

/-- The session as a command leaves it, with the output logged if the command succeeded. -/
def Outcome.logged (o : Outcome) : Session :=
  match o.result with
  | .ok (some text) => o.session.log (.output text)
  | _ => o.session

namespace Registry

/-- The session after commands called one by one. -/
def after (r : Registry) : List Invocation → Session → Session
  | [], s => s
  | inv :: rest, s => r.after rest (r.dispatch inv s).logged

/-- Whether commands called one by one all succeed. -/
def allSucceed (r : Registry) : List Invocation → Session → Bool
  | [], _ => true
  | inv :: rest, s => (r.dispatch inv s).result.isOk && r.allSucceed rest (r.dispatch inv s).logged

variable {r : Registry} {s : Session} (messages : Messages)

/-- Commands that succeed are executed one by one, and then the rest of the group. -/
theorem runGroup_append {first : List Invocation} (h : r.allSucceed first s = true)
    (rest : List Invocation) :
    r.runGroup messages (first ++ rest) s = r.runGroup messages rest (r.after first s) := by
  induction first generalizing s with
  | nil => rfl
  | cons inv first ih =>
    rw [allSucceed, Bool.and_eq_true] at h
    obtain ⟨hok, hfirst⟩ := h
    have hrest := ih hfirst
    rw [List.cons_append, runGroup, after, ← hrest]
    rcases hd : r.dispatch inv s with ⟨t, e | _ | text⟩
    · rw [hd] at hok
      cases hok
    · rfl
    · rfl

/-- The first command that fails is the last one executed. -/
theorem runGroup_cons_of_error {inv : Invocation} {e : ShellError}
    (h : (r.dispatch inv s).result = .error e) (rest : List Invocation) :
    r.runGroup messages (inv :: rest) s =
      (r.dispatch inv s).session.log (.output (messages.render e)) := by
  rw [runGroup]
  rcases hd : r.dispatch inv s with ⟨t, result⟩
  rw [hd] at h
  obtain rfl : result = .error e := h
  rfl

theorem execute_join {texts : List String} (h : Line.Joinable texts) (s : Session) :
    r.execute messages (Line.join texts) s =
      r.runGroup messages (texts.map .ofChunk) (s.log (.echo (Line.join texts) s.cwd)) := by
  rw [execute, Line.parse_join h]
  rfl

end Registry

/-! ## Which line was typed -/

/-- Two entries are the same, or the echoes of two lines typed in one directory. -/
def SameButLine (line line' cwd : String) (e e' : Entry) : Prop :=
  e = e' ∨ e = .echo line cwd ∧ e' = .echo line' cwd

/-- What two transcripts have in common at a place. -/
def common? (e e' : Entry) : Option Entry := if e = e' then some e else none

/-- A transcript with gaps, and one entry in all of them. -/
def filled (entries : List (Option Entry)) (e : Entry) : List Entry := entries.map (·.getD e)

namespace SameButLine

variable {line line' line'' cwd : String}

theorem refl (e : Entry) : SameButLine line line' cwd e e := .inl rfl

/-- Transcripts that differ in the line echoed last. -/
theorem append_echo (history : List Entry) :
    List.Forall₂ (SameButLine line line' cwd) (history ++ [.echo line cwd])
      (history ++ [.echo line' cwd]) :=
  List.rel_append (List.forall₂_same.mpr fun e _ => refl e) (.cons (.inr ⟨rfl, rfl⟩) .nil)

/-- An entry that is alike to those of two other lines is what they have in common, or the echo. -/
theorem eq_getD (hne : line ≠ line') {e e' e'' : Entry} (h : SameButLine line line'' cwd e e'')
    (h' : SameButLine line' line'' cwd e' e'') : e'' = (common? e e').getD (.echo line'' cwd) := by
  unfold common?
  split
  · rename_i heq
    rcases h with rfl | ⟨hecho, rfl⟩
    · rfl
    · rcases h' with rfl | ⟨hecho', -⟩
      · exact heq.symm
      · exact absurd (Entry.echo.inj (hecho.symm.trans (heq.trans hecho'))).1 hne
  · rename_i hdiff
    rcases h with rfl | ⟨-, rfl⟩
    · rcases h' with rfl | ⟨-, rfl⟩
      · exact absurd rfl hdiff
      · rfl
    · rfl

theorem eq_filled (hne : line ≠ line') {h h' h'' : List Entry}
    (hline : List.Forall₂ (SameButLine line line'' cwd) h h'')
    (hline' : List.Forall₂ (SameButLine line' line'' cwd) h' h'') :
    h'' = filled (List.zipWith common? h h') (.echo line'' cwd) := by
  induction hline generalizing h' with
  | nil =>
    cases hline'
    rfl
  | cons hentry _ ih =>
    cases hline' with
    | cons hentry' hrest' => exact congrArg₂ List.cons (eq_getD hne hentry hentry') (ih hrest')

/-- Transcripts of which any two are the same but for the line are one transcript with gaps. -/
theorem exists_filled {history : String → List Entry}
    (h : ∀ line line', List.Forall₂ (SameButLine line line' cwd) (history line) (history line')) :
    ∃ entries, ∀ line, history line = filled entries (.echo line cwd) := by
  -- the gaps are where two lines are told apart, whichever lines these are
  have hne : "" ≠ " " := by decide
  exact ⟨List.zipWith common? (history "") (history " "), fun line =>
    eq_filled hne (h "" line) (h " " line)⟩

end SameButLine

namespace Registry.IgnoresTranscript

variable {r : Registry} (hr : r.IgnoresTranscript) (messages : Messages) (group : List Invocation)
  (s : Session)
include hr

/-- The commands of a line do the same whatever line is echoed. -/
theorem runGroup_echo (line line' : String) :
    (r.runGroup messages group (s.log (.echo line s.cwd))).Alike
      (List.Forall₂ (SameButLine line line' s.cwd))
      (r.runGroup messages group (s.log (.echo line' s.cwd))) :=
  (hr.keeps SameButLine.refl).runGroup
    (fun _ _ _ hh => forall₂_append_self SameButLine.refl hh _) messages group
    ⟨rfl, rfl, rfl, SameButLine.append_echo s.history⟩

/-- **Only the echo shows which line was typed**: all other entries are the same for all lines. -/
theorem exists_filled :
    ∃ entries, ∀ line, (r.runGroup messages group (s.log (.echo line s.cwd))).history =
      filled entries (.echo line s.cwd) :=
  SameButLine.exists_filled fun line line' => (hr.runGroup_echo messages group s line line').history

end Registry.IgnoresTranscript

/-! ## First failures -/

/-- **A chain stops at its first failure.** Where some command of the chain is the first to fail,
the whole line leaves what the line up to that command leaves, the echo apart, and that is the
session as the command left it with one entry more, the report of its failure. The echo is the one
entry in which the two transcripts may differ: the others are those of every line that has these
commands. Where none fails there is no report: all entries are of the commands themselves. -/
theorem chain_stops_at_first_failure {r : Registry} (hr : r.IgnoresTranscript)
    (messages : Messages) (s : Session) {texts : List String} (h : Line.Joinable texts) :
    let line := Line.join texts
    let start := s.log (.echo line s.cwd)
    (∀ done text rest e, texts = done ++ text :: rest →
      r.allSucceed (done.map .ofChunk) start = true →
      (r.dispatch (.ofChunk text) (r.after (done.map .ofChunk) start)).result = .error e →
        let upTo := Line.join (done ++ [text])
        let commands := (done ++ [text]).map .ofChunk
        (r.execute messages line s).Alike (List.Forall₂ (SameButLine line upTo s.cwd))
            (r.execute messages upTo s) ∧
          (∃ entries, (r.execute messages line s).history = filled entries (.echo line s.cwd) ∧
            (r.execute messages upTo s).history = filled entries (.echo upTo s.cwd) ∧
            ∀ typed, (r.runGroup messages commands (s.log (.echo typed s.cwd))).history =
              filled entries (.echo typed s.cwd)) ∧
          r.execute messages line s =
            (r.dispatch (.ofChunk text) (r.after (done.map .ofChunk) start)).session.log
              (.output (messages.render e))) ∧
    (r.allSucceed (texts.map .ofChunk) start = true →
      r.execute messages line s = r.after (texts.map .ofChunk) start) := by
  intro line start
  refine ⟨?_, fun hall => ?_⟩
  · rintro done text rest e rfl hdone hfail upTo commands
    have hreport (rest : List String) :
        r.runGroup messages ((done ++ text :: rest).map .ofChunk) start =
          (r.dispatch (.ofChunk text) (r.after (done.map .ofChunk) start)).session.log
            (.output (messages.render e)) := by
      rw [List.map_append, List.map_cons, Registry.runGroup_append messages hdone,
        Registry.runGroup_cons_of_error messages hfail]
    -- what stands behind the failing command may be left away before the echoes are compared
    have hline : r.execute messages line s = r.runGroup messages commands start :=
      (Registry.execute_join messages h s).trans ((hreport rest).trans (hreport []).symm)
    have hupTo : r.execute messages upTo s =
        r.runGroup messages commands (s.log (.echo upTo s.cwd)) :=
      Registry.execute_join messages h.upTo s
    refine ⟨?_, ?_, (Registry.execute_join messages h s).trans (hreport rest)⟩
    · rw [hline, hupTo]
      exact hr.runGroup_echo messages commands s line upTo
    · obtain ⟨entries, hentries⟩ := hr.exists_filled messages commands s
      rw [hline, hupTo]
      exact ⟨entries, hentries line, hentries upTo, hentries⟩
  · have hnil := Registry.runGroup_append messages hall []
    rw [List.append_nil] at hnil
    exact (Registry.execute_join messages h s).trans hnil

/-- A command that writes to the transcript and moves to nowhere before it fails. -/
def stumble : Command :=
  Script.command ⟨some "oops", some "nowhere", none, some (.io "gone"), .nothing⟩
    ⟨"stumble", "Fail halfway", "stumble"⟩

/-- The transcript may be emptied and the session changed before the failure. -/
theorem chain_stops_at_first_failure_stumble :
    let r := builtins.extend [stumble]
    let texts := ["mkdir d ", " clear", "stumble -x", "pwd", "echo &"]
    let line := Line.join texts
    let upTo := Line.join ["mkdir d ", " clear", "stumble -x"]
    let start := Session.fresh.log (.echo line "/")
    let done := ["mkdir d ", " clear"].map Invocation.ofChunk
    let failing := Invocation.ofChunk "stumble -x"
    r.allSucceed done start = true ∧
      (r.dispatch failing (r.after done start)).result = .error (.io "gone") ∧
      (r.execute .standard line .fresh).Alike (List.Forall₂ (SameButLine line upTo "/"))
        (r.execute .standard upTo .fresh) ∧
      (∃ entries, (r.execute .standard line .fresh).history = filled entries (.echo line "/") ∧
        (r.execute .standard upTo .fresh).history = filled entries (.echo upTo "/")) ∧
      r.execute .standard line .fresh =
        (r.dispatch failing (r.after done start)).session.log (.output "I/O error: gone") := by
  intro r texts line upTo start done failing
  have hr : r.IgnoresTranscript := Registry.builtins_ignoresTranscript.extend
    fun c hc => List.mem_singleton.mp hc ▸ Script.ignoresTranscript _ _
  have htexts : Line.Joinable texts :=
    ⟨by decide, by decide +kernel, by decide +kernel, by decide +kernel, by decide +kernel⟩
  have hdone : r.allSucceed done start = true := by decide +kernel
  have hfail : (r.dispatch failing (r.after done start)).result = .error (.io "gone") := by
    decide +kernel
  obtain ⟨halike, ⟨entries, hline, hupTo, -⟩, hreport⟩ :=
    (chain_stops_at_first_failure hr .standard .fresh htexts).1
      ["mkdir d ", " clear"] "stumble -x" ["pwd", "echo &"] (.io "gone") rfl hdone hfail
  rw [Messages.render_of_standard] at hreport
  exact ⟨hdone, hfail, halike, ⟨entries, hline, hupTo⟩, hreport⟩

end MemoryShell
