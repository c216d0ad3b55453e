import Mathlib.Algebra.Group.Nat.Defs
import MemoryShell.Recall

/-!
# Going through the lines submitted

A buffer is known by its lines and the place of its cursor. To step is to answer with the line one
place away and to move the cursor there, so that steps back and steps on replay the lines as they
were submitted. Headlines:

* `previous_eq`, `next_eq`: one step, told by the lines and the cursor;
* `steps_previous`, `steps_next`: many steps in one direction;
* `lines_run`: which lines there are after any moves;
* `indexed_run`, `Indexed.inRange_run`: the buffer refines a list with an index beside it, which no
  move takes out of its range;
* `recall_replays_lines`: all of it, for every buffer that moves lead to.
-/

namespace MemoryShell.Recall

variable {r : Recall}

/-! ## The place of the cursor -/

theorem lines_ofLines (lines : List String) : (ofLines lines).lines = lines := by
  simp [ofLines, Recall.lines]

theorem cursor_le (r : Recall) : r.cursor ≤ r.lines.length := by
  simp [cursor, lines]

/-- A buffer is its lines with the cursor put at its place. -/
theorem moveTo_cursor (r : Recall) : r.moveTo r.cursor = r := by
  simp [moveTo, cursor, lines]

/-- Of two moves to a place the later one counts. -/
theorem moveTo_moveTo (r : Recall) (place place' : Nat) :
    (r.moveTo place).moveTo place' = r.moveTo place' := by
  rw [moveTo, lines_moveTo]
  rfl

/-- Behind the last line all places are one. -/
theorem moveTo_of_le {place : Nat} (h : r.lines.length ≤ place) :
    r.moveTo place = r.moveTo r.lines.length := by
  simp [moveTo, List.take_of_length_le h, List.drop_eq_nil_of_le h]

theorem hasPrevious_iff : r.hasPrevious = true ↔ 0 < r.cursor := by
  rw [hasPrevious, cursor, List.length_pos_iff]
  simp

theorem hasNext_iff : r.hasNext = true ↔ r.cursor + 1 ≠ r.lines.length := by
  simp [hasNext, cursor, lines, eq_comm (a := 1)]

/-! ## One step -/

/-- **A step back answers with the line before the cursor**, if there is one, and goes there. -/
theorem previous_eq (r : Recall) :
    r.previous =
      (if r.cursor = 0 then none else r.lines[r.cursor - 1]?, r.moveTo (r.cursor - 1)) := by
  obtain ⟨before, after⟩ := r
  cases before with
  | nil => simp [previous, cursor, moveTo, lines]
  | cons line before => simp [previous, cursor, moveTo, lines]

/-- **A step on answers with the line behind the one at the cursor**, if there is one, and goes
there, but not further than behind the last line. -/
theorem next_eq (r : Recall) : r.next = (r.lines[r.cursor + 1]?, r.moveTo (r.cursor + 1)) := by
  obtain ⟨before, after⟩ := r
  cases after with
  | nil => simp [next, cursor, moveTo, lines, List.take_of_length_le]
  | cons line after =>
    -- the line at the cursor goes over to the lines before it
    have hlines : lines ⟨before, line :: after⟩ = (line :: before).reverse ++ after := by
      simp [lines]
    have hcursor : cursor ⟨before, line :: after⟩ + 1 = (line :: before).reverse.length := by
      simp [cursor]
    rw [moveTo, hlines, hcursor, List.take_left, List.drop_left, List.reverse_reverse,
      List.getElem?_append_right (Nat.le_refl _), Nat.sub_self, ← List.head?_eq_getElem?]
    rfl

/-- There is an answer to a step back exactly if there is said to be a line before the cursor. -/
theorem isSome_previous (r : Recall) : r.previous.1.isSome = r.hasPrevious := by
  have hle := r.cursor_le
  rw [Bool.eq_iff_iff, hasPrevious_iff, previous_eq]
  by_cases hfirst : r.cursor = 0
  · simp [hfirst]
  · simp only [if_neg hfirst, isSome_getElem?]
    omega

/-- There is an answer to a step on only if there is said to be a line to step to. -/
theorem hasNext_of_isSome_next (h : r.next.1.isSome = true) : r.hasNext = true := by
  have hlt : r.cursor + 1 < r.lines.length := by simpa [next_eq] using h
  rw [hasNext_iff]
  omega

/-! ## Many steps -/

/-- The answers to some number of steps, and the buffer after them. -/
def steps (step : Recall → Option String × Recall) : Nat → Recall → List (Option String) × Recall
  | 0, r => ([], r)
  | k + 1, r =>
    let (answer, r) := step r
    let (answers, r) := steps step k r
    (answer :: answers, r)

theorem steps_succ (step : Recall → Option String × Recall) (k : Nat) (r : Recall) :
    steps step (k + 1) r =
      ((step r).1 :: (steps step k (step r).2).1, (steps step k (step r).2).2) := rfl

/-- **Steps back answer with the lines before the cursor, from the nearest on.** -/
theorem steps_previous {k : Nat} (h : k ≤ r.cursor) :
    steps previous k r =
      ((List.range k).map fun i => r.lines[r.cursor - (i + 1)]?, r.moveTo (r.cursor - k)) := by
  induction k generalizing r with
  | zero => rw [Nat.sub_zero, moveTo_cursor]; rfl
  | succ k ih =>
    have hcursor : (r.moveTo (r.cursor - 1)).cursor = r.cursor - 1 := by
      have hle := r.cursor_le
      rw [cursor_moveTo]
      omega
    have hrest := ih (r := r.moveTo (r.cursor - 1)) (by omega)
    rw [hcursor, lines_moveTo, moveTo_moveTo] at hrest
    have hplace (i : Nat) : r.cursor - 1 - i = r.cursor - (i + 1) := by omega
    rw [steps_succ, previous_eq, if_neg (by omega), hrest, List.range_succ_eq_map, List.map_cons,
      List.map_map]
    simp only [hplace, Nat.zero_add]
    rfl

/-- **Steps on answer with the lines behind the one at the cursor, from the nearest on**, and with
none when these are used up. -/
theorem steps_next (r : Recall) (j : Nat) :
    steps next j r =
      ((List.range j).map fun i => r.lines[r.cursor + (i + 1)]?, r.moveTo (r.cursor + j)) := by
  induction j generalizing r with
  | zero => rw [Nat.add_zero, moveTo_cursor]; rfl
  | succ j ih =>
    have hrest := ih (r.moveTo (r.cursor + 1))
    rw [cursor_moveTo, lines_moveTo, moveTo_moveTo] at hrest
    have hle := r.cursor_le
    -- where the cursor is held behind the last line, it answers as if it had gone on
    have hanswer (i : Nat) : r.lines[min (r.cursor + 1) r.lines.length + (i + 1)]? =
        r.lines[r.cursor + (i + 1 + 1)]? := by
      by_cases hend : r.cursor + 1 ≤ r.lines.length
      · rw [Nat.min_eq_left hend, Nat.add_right_comm, Nat.add_assoc r.cursor]
      · rw [List.getElem?_eq_none (by omega), List.getElem?_eq_none (by omega)]
    have hmove : r.moveTo (min (r.cursor + 1) r.lines.length + j) =
        r.moveTo (r.cursor + (j + 1)) := by
      by_cases hend : r.cursor + 1 ≤ r.lines.length
      · rw [Nat.min_eq_left hend, Nat.add_right_comm, Nat.add_assoc r.cursor]
      · have hheld : r.lines.length ≤ min (r.cursor + 1) r.lines.length + j := by omega
        have hpast : r.lines.length ≤ r.cursor + (j + 1) := by omega
        rw [moveTo_of_le hheld, moveTo_of_le hpast]
    rw [steps_succ, next_eq, hrest, hmove, List.range_succ_eq_map, List.map_cons, List.map_map]
    simp only [hanswer, Nat.zero_add]
    rfl

/-! ## Runs of moves -/

/-- What can be done with a buffer. -/
inductive Move
  | push (line : String)
  | moveTo (place : Nat)
  | previous
  | next

/-- The line that a move submits. -/
def Move.line? : Move → Option String
  | .push line => some line
  | _ => none

/-- The buffer after a move. -/
def move (r : Recall) : Move → Recall
  | .push line => r.push line
  | .moveTo place => r.moveTo place
  | .previous => r.previous.2
  | .next => r.next.2

/-- The buffer after one move after another. -/
def run (r : Recall) (moves : List Move) : Recall := moves.foldl move r

theorem lines_move (r : Recall) (m : Move) : (r.move m).lines = r.lines ++ m.line?.toList := by
  cases m with
  | push line => exact lines_push r line
  | moveTo place => exact (lines_moveTo r place).trans (List.append_nil _).symm
  | previous => exact (lines_previous r).trans (List.append_nil _).symm
  | next => exact (lines_next r).trans (List.append_nil _).symm

/-- **Moves leave the lines as they are and in their order**, with those submitted behind them. -/
theorem lines_run (r : Recall) (moves : List Move) :
    (r.run moves).lines = r.lines ++ moves.filterMap Move.line? := by
  induction moves generalizing r with
  | nil => simp [run]
  | cons m ms ih =>
    have hrest := ih (r.move m)
    rw [lines_move, List.append_assoc] at hrest
    refine hrest.trans (congrArg (r.lines ++ ·) ?_)
    cases h : m.line? <;> simp [h]

/-! ## Lines with an index -/

/-- A buffer as a list with an index beside it, where nothing but the moves holds the index within
the list. -/
structure Indexed where
  lines : List String
  index : Nat
deriving DecidableEq

namespace Indexed

/-- The index is that of a line or the one behind the last. -/
def InRange (b : Indexed) : Prop := b.index ≤ b.lines.length

/-- `from_commands`: these lines, with the index behind the last. -/
def ofLines (lines : List String) : Indexed := ⟨lines, lines.length⟩

/-- `push`: one line more, and the index behind it. -/
def push (b : Indexed) (line : String) : Indexed := ofLines (b.lines ++ [line])

/-- `set_cursor`: the index is cut down to the number of lines. -/
def moveTo (b : Indexed) (place : Nat) : Indexed := { b with index := min place b.lines.length }

/-- `prev_command`: none at index `0`, else the line at the index before. -/
def previous (b : Indexed) : Option String × Indexed :=
  if b.index = 0 then (none, b) else (b.lines[b.index - 1]?, { b with index := b.index - 1 })

/-- `next_command`: the index goes on unless it is behind the last line, and the line there. -/
def next (b : Indexed) : Option String × Indexed :=
  let index := if b.index < b.lines.length then b.index + 1 else b.index
  (b.lines[index]?, { b with index })

/-- The list and its index after a move. -/
def move (b : Indexed) : Move → Indexed
  | .push line => b.push line
  | .moveTo place => b.moveTo place
  | .previous => b.previous.2
  | .next => b.next.2

/-- The list and its index after one move after another. -/
def run (b : Indexed) (moves : List Move) : Indexed := moves.foldl move b

variable {b : Indexed}

theorem inRange_ofLines (lines : List String) : (ofLines lines).InRange := Nat.le_refl _

theorem InRange.previous (h : b.InRange) : b.previous.2.InRange := by
  unfold Indexed.previous
  split
  · exact h
  · exact Nat.le_trans (Nat.sub_le b.index 1) h

theorem InRange.next (h : b.InRange) : b.next.2.InRange := by
  change (if b.index < b.lines.length then b.index + 1 else b.index) ≤ b.lines.length
  split
  · exact Nat.succ_le_of_lt ‹_›
  · exact h

/-- No move takes the index out of its range. -/
theorem InRange.move (h : b.InRange) (m : Move) : (b.move m).InRange := by
  cases m with
  | push line => exact inRange_ofLines _
  | moveTo place => exact Nat.min_le_right _ _
  | previous => exact h.previous
  | next => exact h.next

/-- **No moves take the index out of its range.** -/
theorem inRange_run (h : b.InRange) (moves : List Move) : (b.run moves).InRange := by
  induction moves generalizing b with
  | nil => exact h
  | cons m ms ih => exact ih (h.move m)

end Indexed

/-- A buffer as a list with the place of the cursor beside it. -/
def indexed (r : Recall) : Indexed := ⟨r.lines, r.cursor⟩

theorem indexed_ofLines (lines : List String) : (ofLines lines).indexed = .ofLines lines := by
  simp [indexed, Indexed.ofLines, ofLines, Recall.lines, cursor]

theorem indexed_push (r : Recall) (line : String) :
    (r.push line).indexed = r.indexed.push line := by
  rw [indexed, cursor_push, lines_push]
  rfl

theorem indexed_moveTo (r : Recall) (place : Nat) :
    (r.moveTo place).indexed = r.indexed.moveTo place := by
  rw [indexed, cursor_moveTo, lines_moveTo]
  rfl

/-- A step back on the list has the same answer and the same end. -/
theorem indexed_previous (r : Recall) :
    r.indexed.previous = (r.previous.1, r.previous.2.indexed) := by
  rw [previous_eq, indexed_moveTo]
  have hle := r.cursor_le
  unfold Indexed.previous Indexed.moveTo indexed
  by_cases hfirst : r.cursor = 0
  · simp [hfirst]
  · simp only [if_neg hfirst, Nat.min_eq_left (show r.cursor - 1 ≤ r.lines.length by omega)]

/-- A step on in the list has the same answer and the same end: behind the last line the index
stays, and there is no line to answer with. -/
theorem indexed_next (r : Recall) : r.indexed.next = (r.next.1, r.next.2.indexed) := by
  rw [next_eq, indexed_moveTo]
  have hle := r.cursor_le
  unfold Indexed.next Indexed.moveTo indexed
  by_cases hlt : r.cursor < r.lines.length
  · simp only [if_pos hlt, Nat.min_eq_left (Nat.succ_le_of_lt hlt)]
  · have hend : r.cursor = r.lines.length := by omega
    simp [hend]

/-- A move of the buffer is that move of the list and its index. -/
theorem indexed_move (r : Recall) (m : Move) : (r.move m).indexed = r.indexed.move m := by
  cases m with
  | push line => exact indexed_push r line
  | moveTo place => exact indexed_moveTo r place
  | previous => exact (congrArg Prod.snd (indexed_previous r)).symm
  | next => exact (congrArg Prod.snd (indexed_next r)).symm

/-- **The buffer refines the list and its index**, whatever the moves. -/
theorem indexed_run (r : Recall) (moves : List Move) :
    (r.run moves).indexed = r.indexed.run moves := by
  induction moves generalizing r with
  | nil => rfl
  | cons m ms ih => exact (ih (r.move m)).trans (by rw [indexed_move]; rfl)

/-! ## Replaying -/

/-- **A buffer replays the lines submitted.** However the cursor was moved while lines were
submitted to a buffer with some lines in it or none, the cursor is on one of the lines or behind
the last, and the lines are those of the beginning with those submitted behind them. As many lines
as can be stored are fewer than `2 ^ 63`, so that the cursor and the place behind it can be counted
in 64 bits.

A step back has an answer exactly if there is said to be a line before the cursor, and a step on has
one only if there is said to be a line to step to; this is said of every place but the last line.

Steps back, as many as there are lines before the cursor at most, answer with these lines, the
nearest first, and then steps on with those behind the line that the cursor is on now; these answer
with none from the end of the lines on, where the cursor stays. -/
theorem recall_replays_lines (initial : List String) (moves : List Move) :
    let r := (ofLines initial).run moves
    (r.cursor ≤ r.lines.length ∧ (r.lines.length < 2 ^ 63 → r.cursor + 1 < 2 ^ 64)) ∧
    r.lines = initial ++ moves.filterMap Move.line? ∧
    (r.previous.1.isSome = r.hasPrevious) ∧ (r.next.1.isSome = true → r.hasNext = true) ∧
    (r.hasNext = false ↔ r.cursor + 1 = r.lines.length) ∧
    ∀ k ≤ r.cursor, ∀ j,
      let back := steps previous k r
      let on := steps next j back.2
      back.1 = ((List.range k).map fun i => r.lines[r.cursor - (i + 1)]?) ∧ none ∉ back.1 ∧
      on.1 = ((List.range j).map fun i => r.lines[r.cursor - k + (i + 1)]?) ∧
      on.2.lines = r.lines ∧ on.2.cursor = min r.lines.length (r.cursor - k + j) := by
  intro r
  have hle : r.cursor ≤ r.lines.length := by
    have hrange := Indexed.inRange_run (Indexed.inRange_ofLines initial) moves
    rwa [← indexed_ofLines, ← indexed_run] at hrange
  refine ⟨⟨hle, fun hfew => by omega⟩, ?_, r.isSome_previous, hasNext_of_isSome_next, ?_, ?_⟩
  · rw [lines_run, lines_ofLines]
  · rw [Bool.eq_false_iff, ne_eq, hasNext_iff, Decidable.not_not]
  · intro k hk j back on
    have hback : back = _ := steps_previous hk
    have hcursor : (r.moveTo (r.cursor - k)).cursor = r.cursor - k := by
      rw [cursor_moveTo]
      omega
    have hon : on = _ := steps_next back.2 j
    rw [hback] at hon
    simp only [hcursor, lines_moveTo, moveTo_moveTo] at hon
    refine ⟨by rw [hback], fun hnone => ?_, by rw [hon], by rw [hon, lines_moveTo], ?_⟩
    · rw [hback, List.mem_map] at hnone
      obtain ⟨i, hi, hnone⟩ := hnone
      rw [List.getElem?_eq_none_iff] at hnone
      rw [List.mem_range] at hi
      omega
    · rw [hon, cursor_moveTo, Nat.min_comm]

/-- Four lines, two of them alike and one empty; a place far behind the last line is the place
behind it, from where two steps back and four steps on lead past the end. -/
theorem recall_replays_lines_past_end :
    let r := (ofLines ["ls", "pwd"]).run
      [.previous, .push "", .previous, .push "ls", .moveTo 0, .next, .moveTo (2 ^ 64 - 1)]
    (r.lines = ["ls", "pwd", "", "ls"] ∧ r.cursor = 4 ∧ 2 ≤ r.cursor ∧ r.lines.length < 2 ^ 63) ∧
    r.cursor + 1 < 2 ^ 64 ∧
    (steps previous 2 r).1 = [some "ls", some ""] ∧
    (steps next 4 (steps previous 2 r).2).1 = [some "ls", none, none, none] ∧
    (steps next 4 (steps previous 2 r).2).2.cursor = 4 := by
  intro r
  have hlines : r.lines = ["ls", "pwd", "", "ls"] := by decide +kernel
  have hcursor : r.cursor = 4 := by decide +kernel
  have htwo : 2 ≤ r.cursor := by omega
  have hfew : r.lines.length < 2 ^ 63 := by simp [hlines]
  obtain ⟨⟨-, hcount⟩, -, -, -, -, hreplay⟩ := recall_replays_lines ["ls", "pwd"]
    [.previous, .push "", .previous, .push "ls", .moveTo 0, .next, .moveTo (2 ^ 64 - 1)]
  obtain ⟨hback, -, hon, -, hend⟩ := hreplay 2 htwo 4
  refine ⟨⟨hlines, hcursor, htwo, hfew⟩, hcount hfew, ?_, ?_, ?_⟩
  · exact hback.trans (by rw [hlines, hcursor]; rfl)
  · exact hon.trans (by rw [hlines, hcursor]; rfl)
  · exact hend.trans (by rw [hlines, hcursor]; rfl)

end MemoryShell.Recall
