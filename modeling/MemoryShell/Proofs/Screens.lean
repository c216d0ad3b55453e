import MemoryShell.Proofs.Transcripts
import MemoryShell.Terminal

/-!
# What stands on the screen

The lines typed and the texts written stand on the screen one below the other, up to the point
where it is cleared. A terminal writes only what is new in the transcript, and judges by a single
entry whether the screen has to be cleared first. With the built-in commands the judgement is
right, so the screen shows the transcript at every prompt. Headlines:

* `Registry.logged_execute`: a line stays in the transcript, or no line does;
* `Terminal.keepsUp_submit`: what a line brings to the screen;
* `Terminal.screen_shows_transcript`: the screen at a prompt.
-/

namespace MemoryShell

open Registry (builtins)

/-! ## Transcripts after a line -/

theorem transcriptText_append (promptName : String) (h h' : List Entry) :
    transcriptText promptName (h ++ h') =
      transcriptText promptName h ++ transcriptText promptName h' := by
  rw [transcriptText, List.map_append, String.join_append]
  rfl

theorem transcriptText_echo_cons (promptName line cwd : String) (h : List Entry) :
    transcriptText promptName (.echo line cwd :: h) =
      promptFor promptName cwd ++ " " ++ line ++ "\n" ++ transcriptText promptName h := by
  rw [transcriptText, List.map_cons, String.join_cons]
  rfl

/-- A line typed in a session stands in a transcript where it was put, or the transcript has been
emptied since and has outputs only. -/
inductive Session.Logged (s : Session) (line : String) (history : List Entry) : Prop
  | kept (news : List Entry) (h : history = s.history ++ .echo line s.cwd :: news)
  | emptied (h : ∀ e ∈ history, e.isEcho = false)

namespace Session.Logged

variable {s : Session} {line : String} {history : List Entry}

theorem append_output (h : s.Logged line history) (text : String) :
    s.Logged line (history ++ [.output text]) := by
  cases h with
  | kept news h =>
    refine .kept (news ++ [.output text]) ?_
    rw [h, List.append_assoc, List.cons_append]
  | emptied h =>
    refine .emptied fun e he => ?_
    rcases List.mem_append.mp he with he | he
    · exact h e he
    · obtain rfl := List.mem_singleton.mp he
      rfl

theorem leaves (h : s.Logged line history) (b : Builtin) : s.Logged line (b.leaves history) := by
  cases b
  case clear => exact .emptied fun _ he => absurd he List.not_mem_nil
  all_goals exact h

end Session.Logged

/-- **The line executed last stays in the transcript unless all lines have gone from it.** -/
theorem Registry.logged_execute (messages : Messages) (line : String) (s : Session) :
    s.Logged line (builtins.execute messages line s).history := by
  refine runGroups_induction (P := fun t => s.Logged line t.history) messages
    (fun _ text h => h.append_output text) (fun _ _ inv _ t h => ?_) (.kept [] rfl)
  rcases dispatch_builtins_cases inv with ⟨b, hname⟩ | ⟨result, hall⟩
  · rw [dispatch_builtins b hname, b.history_run]
    exact h.leaves b
  · rw [hall t]
    exact h

/-! ## Screens -/

/-- What happens on the screen of a terminal. -/
inductive ScreenEvent
  | write (text : String)
  | clear
  /-- A line is typed and ended. It shows on the screen although the terminal does not write it. -/
  | type (line : String)

namespace ScreenEvent

/-- What the terminal writes in an event. -/
def written : ScreenEvent → String
  | write text => text
  | clear => Reply.clearScreen
  | type _ => ""

/-- What an event makes of the text on the screen. -/
def onto (screen : String) : ScreenEvent → String
  | write text => screen ++ text
  | clear => ""
  | type line => screen ++ line ++ "\n"

end ScreenEvent

/-- All that the terminal writes in a course of events. -/
def allWritten (events : List ScreenEvent) : String := String.join (events.map (·.written))

/-- The text on the screen after a course of events: what has been written and typed since the
screen was last cleared. -/
def onScreen (events : List ScreenEvent) : String := events.foldl ScreenEvent.onto ""

/-- What a reply does on the screen. -/
def Reply.events (r : Reply) : List ScreenEvent :=
  (if r.clears then [.clear] else []) ++ [.write r.text]

theorem allWritten_cons (e : ScreenEvent) (events : List ScreenEvent) :
    allWritten (e :: events) = e.written ++ allWritten events := by
  rw [allWritten, List.map_cons, String.join_cons]
  rfl

theorem allWritten_append (events events' : List ScreenEvent) :
    allWritten (events ++ events') = allWritten events ++ allWritten events' := by
  rw [allWritten, List.map_append, String.join_append]
  rfl

theorem Reply.allWritten_events (r : Reply) : allWritten r.events = r.written := by
  rw [events, written, allWritten_append]
  cases r.clears <;> rfl

/-! ## Conversations -/

namespace Terminal

/-- The transcript as it stands on a screen. -/
def transcript (t : Terminal) : String := transcriptText t.promptName t.session.history

/-- What a line does on the screen, from the prompt that it answers to the end of the reply. -/
def exchange (t : Terminal) (line : String) (reply : Reply) : List ScreenEvent :=
  .write t.prompt :: .type line :: reply.events

/-- The terminal after some inputs, and what has happened on the screen; none if an input asks to
leave. -/
def converse (t : Terminal) : List String → Option (Terminal × List ScreenEvent)
  | [] => some (t, [])
  | input :: rest =>
    match t.respond input with
    | none => none
    | some (t', reply) =>
      (converse t' rest).map fun p => (p.1, t.exchange (dropLineEnd input) reply ++ p.2)

/-- The bytes that an input is read from. -/
def bytesOf (input : String) : List UInt8 := input.toUTF8.data.toList

theorem fromUTF8?_bytesOf (input : String) :
    String.fromUTF8? ⟨(bytesOf input).toArray⟩ = some input :=
  dif_pos input.isValidUTF8

theorem allWritten_exchange (t : Terminal) (line : String) (reply : Reply) :
    allWritten (t.exchange line reply) = t.prompt ++ reply.written := by
  rw [exchange, allWritten_cons, allWritten_cons, Reply.allWritten_events]
  exact congrArg (t.prompt ++ ·) String.empty_append

theorem after_after (written written' : String) (r : Run) :
    (r.after written').after written = r.after (written ++ written') :=
  congrArg (Run.mk · r.isComplete) String.append_assoc.symm

section Answered

variable {t u : Terminal} {input : String} {reply : Reply} (h : t.respond input = some (u, reply))
include h

theorem converse_cons (inputs : List String) :
    t.converse (input :: inputs) =
      (u.converse inputs).map fun p => (p.1, t.exchange (dropLineEnd input) reply ++ p.2) := by
  rw [converse, h]

theorem runLines_cons (lines : List (List UInt8)) :
    t.runLines (bytesOf input :: lines) = (u.runLines lines).after (t.prompt ++ reply.written) := by
  rw [runLines, fromUTF8?_bytesOf]
  simp only [h]

end Answered

/-- **What a terminal writes for some inputs is what it writes in their conversation**, and then it
goes on with the inputs behind them. -/
theorem runLines_of_converse {t t' : Terminal} {inputs : List String} {events : List ScreenEvent}
    (h : t.converse inputs = some (t', events)) (rest : List (List UInt8)) :
    t.runLines (inputs.map bytesOf ++ rest) = (t'.runLines rest).after (allWritten events) := by
  induction inputs generalizing t events with
  | nil =>
    obtain ⟨rfl, rfl⟩ := Prod.mk.inj (Option.some.inj h)
    exact congrArg (Run.mk · _) String.empty_append.symm
  | cons input inputs ih =>
    cases hr : t.respond input with
    | none =>
      rw [converse, hr] at h
      cases h
    | some p =>
      rw [converse_cons hr] at h
      obtain ⟨⟨v, events'⟩, hv, hp⟩ := Option.map_eq_some_iff.mp h
      obtain ⟨rfl, rfl⟩ := Prod.mk.inj hp
      rw [List.map_cons, List.cons_append, runLines_cons hr, ih hv, after_after, allWritten_append,
        allWritten_exchange]

/-! ## Submitted lines -/

/-- An input is submitted to the shell if it asks neither for a completion nor to leave. -/
structure IsSubmitted (input : String) : Prop where
  noTab : ¬ (dropLineEnd input).endsWith "\t"
  stays : Text.trim (dropLineEnd input) ≠ "exit"

instance (input : String) : Decidable (IsSubmitted input) :=
  decidable_of_iff (¬ (dropLineEnd input).endsWith "\t" ∧ Text.trim (dropLineEnd input) ≠ "exit")
    ⟨fun ⟨h, h'⟩ => ⟨h, h'⟩, fun ⟨h, h'⟩ => ⟨h, h'⟩⟩

theorem respond_of_isSubmitted {input : String} (h : IsSubmitted input) (t : Terminal) :
    t.respond input = some (t.submit (dropLineEnd input)) := by
  rw [respond, if_neg h.noTab, if_neg h.stays]

theorem session_submit (t : Terminal) (line : String) :
    (t.submit line).1.session = t.shell.registry.execute t.shell.messages line t.session := rfl

theorem reply_of_kept {t : Terminal} {line : String} {news : List Entry}
    (h : (t.submit line).1.session.history =
      t.session.history ++ .echo line t.session.cwd :: news) :
    (t.submit line).2 = ⟨false, transcriptText t.promptName news⟩ := by
  rw [session_submit] at h
  simp only [submit, Shell.execute, h, List.drop_left, if_true]

theorem reply_of_emptied {t : Terminal} {line : String}
    (h : ∀ e ∈ (t.submit line).1.session.history, e.isEcho = false) :
    (t.submit line).2 = ⟨true, (t.submit line).1.transcript⟩ := by
  rw [session_submit] at h
  simp only [submit, Shell.execute]
  split
  · rename_i typed cwd shown hdrop
    have hecho := h (.echo typed cwd) (List.mem_of_mem_drop (hdrop ▸ List.mem_cons_self))
    cases hecho
  · rfl

/-- Lines have been executed on a terminal, and in the course of events the screen has kept up with
the transcript. -/
structure KeepsUp (t : Terminal) (lines : List String) (events : List ScreenEvent) (u : Terminal) :
    Prop where
  promptName : u.promptName = t.promptName
  registry : u.shell.registry = t.shell.registry
  messages : u.shell.messages = t.shell.messages
  session : u.session = t.shell.registry.executeAll t.shell.messages lines t.session
  screen : events.foldl ScreenEvent.onto t.transcript = u.transcript

theorem KeepsUp.refl (t : Terminal) : t.KeepsUp [] [] t := ⟨rfl, rfl, rfl, rfl, rfl⟩

theorem KeepsUp.trans {t u v : Terminal} {lines lines' : List String}
    {events events' : List ScreenEvent} (h : t.KeepsUp lines events u)
    (h' : u.KeepsUp lines' events' v) : t.KeepsUp (lines ++ lines') (events ++ events') v where
  promptName := h'.promptName.trans h.promptName
  registry := h'.registry.trans h.registry
  messages := h'.messages.trans h.messages
  session := by
    rw [h'.session, h.registry, h.messages, h.session]
    exact List.foldl_append.symm
  screen := by rw [List.foldl_append, h.screen, h'.screen]

/-- **What a submitted line does on the screen keeps up with the transcript.** -/
theorem keepsUp_submit {t : Terminal} (ht : t.shell.registry = builtins) (line : String) :
    t.KeepsUp [line] (t.exchange line (t.submit line).2) (t.submit line).1 := by
  refine ⟨rfl, rfl, rfl, rfl, ?_⟩
  have hlogged : t.session.Logged line (t.submit line).1.session.history := by
    rw [session_submit, ht]
    exact Registry.logged_execute t.shell.messages line t.session
  cases hlogged with
  | kept news h =>
    rw [reply_of_kept h]
    show t.transcript ++ t.prompt ++ line ++ "\n" ++ _ = transcriptText t.promptName _
    rw [h, transcriptText_append, transcriptText_echo_cons]
    simp only [transcript, prompt, Session.prompt, String.append_assoc]
  | emptied h =>
    rw [reply_of_emptied h]
    exact String.empty_append

/-- All inputs that are submitted are answered, and the screen keeps up with them. -/
theorem exists_converse_keepsUp {inputs : List String} (h : ∀ input ∈ inputs, IsSubmitted input)
    {t : Terminal} (ht : t.shell.registry = builtins) :
    ∃ u events, t.converse inputs = some (u, events) ∧
      t.KeepsUp (inputs.map dropLineEnd) events u := by
  induction inputs generalizing t with
  | nil => exact ⟨t, [], rfl, .refl t⟩
  | cons input rest ih =>
    have hfirst := respond_of_isSubmitted (h input List.mem_cons_self) t
    have hstep := keepsUp_submit ht (dropLineEnd input)
    generalize t.submit (dropLineEnd input) = answer at hfirst hstep
    obtain ⟨u, reply⟩ := answer
    obtain ⟨v, events, hconverse, hrest⟩ :=
      ih (fun i hi => h i (List.mem_cons_of_mem _ hi)) (hstep.registry.trans ht)
    refine ⟨v, t.exchange (dropLineEnd input) reply ++ events, ?_, hstep.trans hrest⟩
    rw [converse_cons hfirst, hconverse]
    rfl

/-- **The screen shows the transcript.** A terminal is started with any tree, prompt name and
message templates, and any lines are submitted to it, whatever input lies behind them. Then its
session is the one that they lead to; what it has written is what it writes in the course of events;
and at the prompt that it writes next, the texts written and the lines typed since the screen was
last cleared are the transcript, the prompt and a blank. -/
theorem screen_shows_transcript (startup : Startup) {inputs : List String}
    (h : ∀ input ∈ inputs, IsSubmitted input) (rest : List (List UInt8)) :
    let promptName := startup.config.promptName
    ∃ t events, (start startup).converse inputs = some (t, events) ∧
      t.session = builtins.executeAll startup.config.messages (inputs.map dropLineEnd)
        (.ofTree startup.tree) ∧
      (start startup).runLines (inputs.map bytesOf ++ rest) =
        (t.runLines rest).after (allWritten events) ∧
      onScreen (events ++ [.write t.prompt]) =
        transcriptText promptName t.session.history ++ t.session.prompt promptName ++ " " := by
  intro promptName
  obtain ⟨t, events, hconverse, hkept⟩ := exists_converse_keepsUp h (t := start startup) rfl
  refine ⟨t, events, hconverse, hkept.session, runLines_of_converse hconverse rest, ?_⟩
  have hevents : onScreen events = t.transcript := hkept.screen
  rw [onScreen, List.foldl_append]
  show onScreen events ++ t.prompt = _
  rw [hevents, transcript, prompt, hkept.promptName]
  exact String.append_assoc.symm

/-- The transcript may be emptied in the middle of a line. -/
theorem screen_shows_transcript_emptied :
    let inputs := ["pwd\n", "echo a; clear && echo b\r\n", "cd tmp\n"]
    (∀ input ∈ inputs, IsSubmitted input) ∧
      ∃ t events, (start ⟨.standard, demoTree⟩).converse inputs = some (t, events) ∧
        (start ⟨.standard, demoTree⟩).runLines (inputs.map bytesOf) =
          (t.runLines []).after (allWritten events) ∧
        onScreen (events ++ [.write t.prompt]) =
          "b\nhacker@default ~/ $ cd tmp\nhacker@default ~/tmp $ " := by
  intro inputs
  have h : ∀ input ∈ inputs, IsSubmitted input := by decide +kernel
  obtain ⟨t, events, hconverse, hsession, hrun, hscreen⟩ :=
    screen_shows_transcript ⟨.standard, demoTree⟩ h []
  rw [List.append_nil] at hrun
  refine ⟨h, t, events, hconverse, hrun, ?_⟩
  rw [hscreen, hsession]
  decide +kernel

end Terminal

end MemoryShell
