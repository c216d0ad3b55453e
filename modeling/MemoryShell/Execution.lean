import MemoryShell.Line.Chain
import MemoryShell.Messages
import MemoryShell.Registry

/-!
# Executing lines

The groups of a line are executed one after another, whatever comes of them; within a group the
first command that fails is reported, and the ones behind it are skipped. Headlines:

* `Registry.dispatch`: one command;
* `Registry.runGroup`: one group;
* `Registry.execute`: a line, echoed first;
* `Registry.execute_induction`: what entries and commands keep, a line keeps;
* `Registry.runGroups_rel`: so does a line executed twice, on two sessions.
-/

namespace MemoryShell.Registry

/-- `dispatch`: what comes of one command, before its output is logged. The blank command does
nothing. -/
def dispatch (r : Registry) (inv : Invocation) (s : Session) : Outcome :=
  if inv.name = "" then .silent s
  else
    match r.get? inv.name with
    | some c => c.run r.manual inv.args s
    | none => .failed s (.refused .commandNotFound inv.name)

/-- The commands of a group up to the first failure, each one's output logged. -/
def runGroup (r : Registry) (messages : Messages) : List Invocation → Session → Session
  | [], s => s
  | inv :: rest, s =>
    match r.dispatch inv s with
    | ⟨s, .ok none⟩ => runGroup r messages rest s
    | ⟨s, .ok (some text)⟩ => runGroup r messages rest (s.log (.output text))
    | ⟨s, .error e⟩ => s.log (.output (messages.render e))

/-- All groups of a line. -/
def runGroups (r : Registry) (messages : Messages) (groups : List (List Invocation))
    (s : Session) : Session :=
  groups.foldl (fun s g => r.runGroup messages g s) s

/-- `execute`: the echo of a line, with the directory it was typed in, and then the commands of the
line. -/
def execute (r : Registry) (messages : Messages) (line : String) (s : Session) : Session :=
  r.runGroups messages (Line.parse line) (s.log (.echo line s.cwd))

/-- Lines one after another. -/
def executeAll (r : Registry) (messages : Messages) (lines : List String) (s : Session) : Session :=
  lines.foldl (fun s line => r.execute messages line s) s

/-! ## What a line keeps -/

section Kept

variable {r : Registry} {P : Session → Prop} {s : Session} (messages : Messages)

theorem runGroup_induction {group : List Invocation}
    (hlog : ∀ s text, P s → P (s.log (.output text)))
    (hrun : ∀ inv ∈ group, ∀ s, P s → P (r.dispatch inv s).session) (h : P s) :
    P (r.runGroup messages group s) := by
  induction group generalizing s with
  | nil => exact h
  | cons inv rest ih =>
    have hs := hrun inv List.mem_cons_self s h
    have ih {s : Session} (h : P s) : P (r.runGroup messages rest s) :=
      ih (fun inv hi => hrun inv (List.mem_cons_of_mem _ hi)) h
    rw [runGroup]
    split <;> rename_i he <;> rw [he] at hs
    · exact ih hs
    · exact ih (hlog _ _ hs)
    · exact hlog _ _ hs

theorem runGroups_induction {groups : List (List Invocation)}
    (hlog : ∀ s text, P s → P (s.log (.output text)))
    (hrun : ∀ group ∈ groups, ∀ inv ∈ group, ∀ s, P s → P (r.dispatch inv s).session) (h : P s) :
    P (r.runGroups messages groups s) := by
  induction groups generalizing s with
  | nil => exact h
  | cons group rest ih =>
    have hgroup := runGroup_induction messages hlog (hrun group List.mem_cons_self) h
    exact ih (fun g hg => hrun g (List.mem_cons_of_mem _ hg)) hgroup

theorem execute_induction {line : String} (hlog : ∀ s e, P s → P (s.log e))
    (hrun : ∀ group ∈ Line.parse line, ∀ inv ∈ group, ∀ s, P s → P (r.dispatch inv s).session)
    (h : P s) : P (r.execute messages line s) :=
  runGroups_induction messages (fun s text => hlog s (.output text)) hrun (hlog _ _ h)

theorem executeAll_induction {lines : List String} (hlog : ∀ s e, P s → P (s.log e))
    (hrun : ∀ line ∈ lines, ∀ group ∈ Line.parse line, ∀ inv ∈ group, ∀ s, P s →
      P (r.dispatch inv s).session)
    (h : P s) : P (r.executeAll messages lines s) := by
  induction lines generalizing s with
  | nil => exact h
  | cons line rest ih =>
    have hline := execute_induction messages hlog (hrun line List.mem_cons_self) h
    exact ih (fun l hl => hrun l (List.mem_cons_of_mem _ hl)) hline

end Kept

section Related

variable {r : Registry} {Q : Session → Session → Prop} {s t : Session} (messages : Messages)
  (hlog : ∀ s t text, Q s t → Q (s.log (.output text)) (t.log (.output text)))
  (hrun : ∀ inv s t, Q s t → Q (r.dispatch inv s).session (r.dispatch inv t).session ∧
    (r.dispatch inv s).result = (r.dispatch inv t).result)
include hlog hrun

theorem runGroup_rel (group : List Invocation) (h : Q s t) :
    Q (r.runGroup messages group s) (r.runGroup messages group t) := by
  induction group generalizing s t with
  | nil => exact h
  | cons inv rest ih =>
    obtain ⟨hsession, hresult⟩ := hrun inv s t h
    rw [runGroup, runGroup]
    -- both sides go on or stop together, since their results are the same
    rcases hs : r.dispatch inv s with ⟨u, result⟩
    rcases ht : r.dispatch inv t with ⟨v, result'⟩
    rw [hs, ht] at hsession hresult
    obtain rfl : result = result' := hresult
    rcases result with e | _ | text
    · exact hlog _ _ _ hsession
    · exact ih hsession
    · exact ih (hlog _ _ _ hsession)

theorem runGroups_rel (groups : List (List Invocation)) (h : Q s t) :
    Q (r.runGroups messages groups s) (r.runGroups messages groups t) := by
  induction groups generalizing s t with
  | nil => exact h
  | cons group rest ih => exact ih (runGroup_rel messages hlog hrun group h)

end Related

end MemoryShell.Registry
