import MemoryShell.Text.Blank

/-!
# Cutting text

Words between blanks, and the pieces between occurrences of a two-character mark. Headlines:

* `splitOnPair_ne_nil`: there is always a piece, the empty one of an empty text;
* `words_eq_nil_iff`: a text has no word exactly when all its characters are blank.
-/

namespace MemoryShell.Text

/-! ## Two-character marks -/

/-- The pieces of a text between the occurrences of `a` directly followed by `b`, found from the
left: an occurrence begins after the end of the one before it. -/
def splitOnPair (a b : Char) : List Char → List (List Char)
  | [] => [[]]
  | [c] => [[c]]
  | c :: d :: cs =>
    if c = a ∧ d = b then [] :: splitOnPair a b cs
    else (splitOnPair a b (d :: cs)).modifyHead (c :: ·)

theorem splitOnPair_ne_nil (a b : Char) (cs : List Char) : splitOnPair a b cs ≠ [] := by
  fun_induction splitOnPair a b cs with
  | case1 => simp
  | case2 => simp
  | case3 => simp
  | case4 c d cs _ ih => cases h : splitOnPair a b (d :: cs) <;> simp_all

/-! ## Words -/

/-- Whether a text holds nothing but blanks. -/
def isBlankText (s : String) : Bool := s.toList.all isBlank

/-- The longest runs of characters without a blank, in order. -/
def words (s : String) : List String :=
  ((s.toList.splitOnP isBlank).filter fun w => !w.isEmpty).map String.ofList

/-- A text without the blanks at its two ends. -/
def trim (s : String) : String :=
  String.ofList ((s.toList.dropWhile isBlank).reverse.dropWhile isBlank).reverse

private theorem filter_splitOnP_eq_nil_iff (cs : List Char) :
    ((cs.splitOnP isBlank).filter fun w => !w.isEmpty) = [] ↔ cs.all isBlank = true := by
  induction cs with
  | nil => simp
  | cons c cs ih =>
    rw [List.splitOnP_cons_eq_if_modifyHead]
    by_cases h : isBlank c = true
    · simp only [h, if_true, List.all_cons, Bool.true_and, ← ih]
      simp
    · cases hs : cs.splitOnP isBlank with
      | nil => exact absurd hs (List.splitOnP_ne_nil _ _)
      | cons w ws => simp [h]

theorem words_eq_nil_iff (s : String) : words s = [] ↔ isBlankText s = true := by
  simp only [words, List.map_eq_nil_iff, isBlankText]
  exact filter_splitOnP_eq_nil_iff s.toList

end MemoryShell.Text
