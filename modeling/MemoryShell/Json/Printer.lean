import MemoryShell.Json.Basic
import MemoryShell.Json.Quoted

/-!
# Printing JSON

A value is laid out with one item or member on a line, two blanks of indentation for each open
bracket, and nothing between the brackets of an empty one. Headline:

* `pretty`: the text of a value.
-/

namespace MemoryShell.Json

/-- A line break and the indentation at a depth. -/
def newline (depth : Nat) : List Char := '\n' :: List.replicate (2 * depth) ' '

mutual

/-- The characters of a value that stands at a depth. -/
def chars (depth : Nat) : Json → List Char
  | null => ['n', 'u', 'l', 'l']
  | bool true => ['t', 'r', 'u', 'e']
  | bool false => ['f', 'a', 'l', 's', 'e']
  | number n => n.chars
  | string s => Quoted.chars s.toList
  | array [] => ['[', ']']
  | array (v :: vs) =>
    '[' :: (newline (depth + 1) ++ (chars (depth + 1) v ++ itemChars depth vs))
  | object [] => ['\x7b', '\x7d']
  | object ((k, v) :: ms) =>
    '\x7b' :: (newline (depth + 1) ++ (Quoted.chars k.toList ++ ':' :: ' ' ::
      (chars (depth + 1) v ++ memberChars depth ms)))

/-- The further items of an array that stands at a depth, and its closing bracket. -/
def itemChars (depth : Nat) : List Json → List Char
  | [] => newline depth ++ [']']
  | v :: vs => ',' :: (newline (depth + 1) ++ (chars (depth + 1) v ++ itemChars depth vs))

/-- The further members of an object that stands at a depth, and its closing brace. -/
def memberChars (depth : Nat) : List (String × Json) → List Char
  | [] => newline depth ++ ['\x7d']
  | (k, v) :: ms =>
    ',' :: (newline (depth + 1) ++ (Quoted.chars k.toList ++ ':' :: ' ' ::
      (chars (depth + 1) v ++ memberChars depth ms)))

end

/-- The text of a value. -/
def pretty (v : Json) : String := String.ofList (v.chars 0)

end MemoryShell.Json
