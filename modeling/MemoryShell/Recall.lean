/-!
# Recalling lines

The lines submitted so far, with a cursor to step through them. The buffer keeps the lines on the
two sides of the cursor, so the cursor cannot leave them. Headlines:

* `lines_push`, `cursor_push`: a submitted line comes last, with the cursor behind it;
* `lines_previous`, `lines_next`: stepping moves the cursor and nothing else.
-/

namespace MemoryShell

/-- `RecallBuffer`: submitted lines around a cursor, those before it, the nearest first, and those
from it on. -/
structure Recall where
  before : List String
  after : List String
deriving DecidableEq, Repr, Inhabited

namespace Recall

/-- `commands`: all the lines, in the order of their submission. -/
def lines (r : Recall) : List String := r.before.reverse ++ r.after

/-- `cursor`: how many lines stand before the cursor. -/
def cursor (r : Recall) : Nat := r.before.length

/-- `from_commands`: the buffer of these lines, with the cursor behind the last. -/
def ofLines (lines : List String) : Recall := ⟨lines.reverse, []⟩

/-- `new`: the buffer without lines. -/
def empty : Recall := ofLines []

/-- `push`: a submitted line; the cursor goes behind it. -/
def push (r : Recall) (line : String) : Recall := ofLines (r.lines ++ [line])

/-- `set_cursor`: the cursor moved to a place, or behind the last line if there is no such place. -/
def moveTo (r : Recall) (place : Nat) : Recall :=
  ⟨(r.lines.take place).reverse, r.lines.drop place⟩

/-- `has_prev_command`: whether there is a line before the cursor. -/
def hasPrevious (r : Recall) : Bool := !r.before.isEmpty

/-- `prev_command`: one line back, and that line; at the first line nothing moves. -/
def previous (r : Recall) : Option String × Recall :=
  match r.before with
  | [] => (none, r)
  | line :: before => (some line, ⟨before, line :: r.after⟩)

/-- `has_next_command`: whether the cursor is anywhere but on the last line. Behind the last line,
and in a buffer without lines, this holds although there is nothing to step to. -/
def hasNext (r : Recall) : Bool := r.after.length != 1

/-- `next_command`: one line on, and the line there, if the step did not lead behind the last
line. -/
def next (r : Recall) : Option String × Recall :=
  match r.after with
  | [] => (none, r)
  | line :: after => (after.head?, ⟨line :: r.before, after⟩)

theorem lines_push (r : Recall) (line : String) : (r.push line).lines = r.lines ++ [line] := by
  simp [push, ofLines, lines]

theorem cursor_push (r : Recall) (line : String) :
    (r.push line).cursor = (r.push line).lines.length := by
  simp only [push, ofLines, lines, cursor, List.length_append, List.length_reverse]
  simp

theorem lines_moveTo (r : Recall) (place : Nat) : (r.moveTo place).lines = r.lines := by
  simp [moveTo, lines]

theorem cursor_moveTo (r : Recall) (place : Nat) :
    (r.moveTo place).cursor = min place r.lines.length := by
  simp [moveTo, cursor]

theorem lines_previous (r : Recall) : r.previous.2.lines = r.lines := by
  unfold previous lines; split <;> simp_all

theorem lines_next (r : Recall) : r.next.2.lines = r.lines := by
  unfold next lines; split <;> simp_all

end Recall

end MemoryShell
