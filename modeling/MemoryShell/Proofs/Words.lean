import Mathlib.Data.List.Infix
import MemoryShell.Text.Split

/-!
# Pieces of a text

What the pieces are like that a text is cut into, and what of a text stands in one of them.
Headlines:

* `not_of_mem_splitOnP`, `infix_of_mem_splitOnP`: a piece holds no separator, and stands in the
  text;
* `exists_infix_of_splitOn`: what holds no separator stands in one piece;
* `startsWith_iff_head?`: a text that begins with a character;
* `words_append`, `words_of_isWord`: the words of a text put together from words.
-/

namespace MemoryShell.Text

/-! ## Pieces -/

section Pieces

variable {α : Type} {p : α → Bool} {a : α} {cs v w xs ys : List α}

/-- No piece holds what the text was cut at. -/
theorem not_of_mem_splitOnP (h : w ∈ cs.splitOnP p) : ∀ c ∈ w, p c = false := by
  induction cs generalizing w with
  | nil =>
    rw [List.splitOnP_nil, List.mem_singleton] at h
    simp [h]
  | cons c cs ih =>
    rw [List.splitOnP_cons_eq_if_modifyHead] at h
    by_cases hc : p c = true
    · rw [if_pos hc] at h
      rcases List.mem_cons.mp h with rfl | h
      · exact fun _ hd => absurd hd List.not_mem_nil
      · exact ih h
    · rw [if_neg hc] at h
      obtain ⟨v, vs, hvs⟩ := List.exists_cons_of_ne_nil (List.splitOnP_ne_nil p cs)
      rw [hvs] at h ih
      rcases List.mem_cons.mp h with rfl | h
      · exact List.forall_mem_cons.mpr ⟨Bool.eq_false_iff.mpr hc, ih List.mem_cons_self⟩
      · exact ih (List.mem_cons_of_mem v h)

/-- The first piece stands at the front of the text, the others anywhere. -/
theorem infix_of_splitOnP_eq_cons {vs : List (List α)} (h : cs.splitOnP p = v :: vs) :
    v <+: cs ∧ ∀ w ∈ vs, w <:+: cs := by
  induction cs generalizing v vs with
  | nil =>
    rw [List.splitOnP_nil] at h
    obtain ⟨rfl, rfl⟩ := List.cons.inj h
    exact ⟨List.prefix_rfl, fun _ hw => absurd hw List.not_mem_nil⟩
  | cons c cs ih =>
    have hlater {w : List α} (hw : w <:+: cs) : w <:+: c :: cs :=
      hw.trans (List.suffix_cons c cs).isInfix
    obtain ⟨u, us, hus⟩ := List.exists_cons_of_ne_nil (List.splitOnP_ne_nil p cs)
    obtain ⟨hu, hrest⟩ := ih hus
    rw [List.splitOnP_cons_eq_if_modifyHead, hus] at h
    by_cases hc : p c = true
    · rw [if_pos hc] at h
      obtain ⟨rfl, rfl⟩ := List.cons.inj h
      refine ⟨List.nil_prefix, fun w hw => hlater ?_⟩
      rcases List.mem_cons.mp hw with rfl | hw
      · exact hu.isInfix
      · exact hrest w hw
    · rw [if_neg hc, List.modifyHead_cons] at h
      obtain ⟨rfl, rfl⟩ := List.cons.inj h
      exact ⟨List.cons_prefix_cons.mpr ⟨rfl, hu⟩, fun w hw => hlater (hrest w hw)⟩

/-- A piece stands in the text. -/
theorem infix_of_mem_splitOnP (h : w ∈ cs.splitOnP p) : w <:+: cs := by
  obtain ⟨v, vs, hvs⟩ := List.exists_cons_of_ne_nil (List.splitOnP_ne_nil p cs)
  obtain ⟨hv, hrest⟩ := infix_of_splitOnP_eq_cons hvs
  rw [hvs] at h
  rcases List.mem_cons.mp h with rfl | h
  · exact hv.isInfix
  · exact hrest w h

theorem eq_nil_of_prefix_cons (ha : a ∉ w) (h : w <+: a :: ys) : w = [] := by
  cases w with
  | nil => rfl
  | cons b w =>
    obtain ⟨rfl, -⟩ := List.cons_prefix_cons.mp h
    exact absurd List.mem_cons_self ha

/-- What holds no separator does not reach across one. -/
theorem infix_append_cons (ha : a ∉ w) (h : w <:+: xs ++ a :: ys) : w <:+: xs ∨ w <:+: ys := by
  rcases List.infix_append_iff.mp h with hleft | hright | ⟨w₁, w₂, rfl, hleft, hright⟩
  · exact .inl hleft
  · rcases List.infix_cons_iff.mp hright with hfront | hright
    · rw [eq_nil_of_prefix_cons ha hfront]
      exact .inl List.nil_infix
    · exact .inr hright
  · rw [eq_nil_of_prefix_cons (fun hmem => ha (List.mem_append_right w₁ hmem)) hright,
      List.append_nil]
    exact .inl hleft.isInfix

theorem exists_infix_of_intercalate {ps : List (List α)} (hne : w ≠ []) (ha : a ∉ w)
    (h : w <:+: [a].intercalate ps) : ∃ v ∈ ps, w <:+: v := by
  induction ps with
  | nil => exact absurd (List.infix_nil.mp h) hne
  | cons v ps ih =>
    cases ps with
    | nil => exact ⟨v, List.mem_cons_self, by simpa using h⟩
    | cons u us =>
      have hcons : [a].intercalate (v :: u :: us) = v ++ a :: [a].intercalate (u :: us) := by
        simp [List.intercalate]
      rw [hcons] at h
      rcases infix_append_cons ha h with h | h
      · exact ⟨v, List.mem_cons_self, h⟩
      · obtain ⟨x, hx, hw⟩ := ih h
        exact ⟨x, List.mem_cons_of_mem v hx, hw⟩

/-- **What holds no separator stands in one piece.** -/
theorem exists_infix_of_splitOn [BEq α] [LawfulBEq α] (hne : w ≠ []) (ha : a ∉ w)
    (h : w <:+: cs) : ∃ v ∈ cs.splitOn a, w <:+: v :=
  exists_infix_of_intercalate hne ha (by rwa [List.intercalate_splitOn])

end Pieces

/-! ## Beginnings -/

theorem startsWith_iff_head? {s t : String} {c : Char} (ht : t.toList = [c]) :
    s.startsWith t = true ↔ s.toList.head? = some c := by
  rw [String.startsWith_string_iff, ht]
  cases s.toList with
  | nil => simp
  | cons d ds => simp [List.cons_prefix_cons, eq_comm]

theorem startsWith_trans {a b c : String} (hab : a.startsWith b = true)
    (hbc : b.startsWith c = true) : a.startsWith c = true := by
  rw [String.startsWith_string_iff] at hab hbc ⊢
  exact hbc.trans hab

/-- A text in front of both makes no difference. -/
theorem startsWith_append {a b : String} (front : String) (h : a.startsWith b = true) :
    (front ++ a).startsWith (front ++ b) = true := by
  rw [String.startsWith_string_iff] at h ⊢
  rw [String.toList_append, String.toList_append]
  exact (List.prefix_append_right_inj _).mpr h

theorem head?_append {s : String} (h : s ≠ "") (t : String) :
    (s ++ t).toList.head? = s.toList.head? := by
  rw [String.toList_append, List.head?_append_of_ne_nil _ (by simpa using h)]

/-! ## Words -/

/-- A word: not empty, and without blanks. -/
def IsWord (w : String) : Prop := w ≠ "" ∧ ∀ c ∈ w.toList, isBlank c = false

instance (w : String) : Decidable (IsWord w) :=
  decidable_of_iff (w ≠ "" ∧ (w.toList.all fun c => !isBlank c) = true) (by simp [IsWord])

theorem isWord_append {v w : String} (hv : IsWord v) (hw : ∀ c ∈ w.toList, isBlank c = false) :
    IsWord (v ++ w) := by
  refine ⟨by simp [hv.1], fun c hc => ?_⟩
  rw [String.toList_append, List.mem_append] at hc
  exact hc.elim (hv.2 c) (hw c)

/-- A text without blanks is one word. -/
theorem words_of_isWord {w : String} (h : IsWord w) : words w = [w] := by
  unfold words
  rw [List.splitOnP_eq_singleton h.2]
  simp [h.1]

/-- A word of a text stands in it. -/
theorem of_mem_words {s w : String} (h : w ∈ words s) : IsWord w ∧ w.toList <:+: s.toList := by
  obtain ⟨cs, hcs, rfl⟩ := List.mem_map.mp h
  obtain ⟨hpiece, hne⟩ := List.mem_filter.mp hcs
  rw [IsWord, String.toList_ofList]
  exact ⟨⟨by simpa using hne, not_of_mem_splitOnP hpiece⟩, infix_of_mem_splitOnP hpiece⟩

/-- Blanks in front of a text add no word. -/
theorem words_blank_append {a : String} (h : isBlankText a = true) (b : String) :
    words (a ++ b) = words b := by
  have hskip (cs ds : List Char) (hcs : cs.all isBlank = true) :
      ((cs ++ ds).splitOnP isBlank).filter (fun w => !w.isEmpty) =
        (ds.splitOnP isBlank).filter fun w => !w.isEmpty := by
    induction cs with
    | nil => rfl
    | cons c cs ih =>
      obtain ⟨hc, hcs⟩ := (Bool.and_eq_true _ _).mp hcs
      rw [List.cons_append, List.splitOnP_cons_eq_if_modifyHead, if_pos hc,
        List.filter_cons_of_neg (by simp), ih hcs]
  rw [words, String.toList_append, hskip _ _ h]
  rfl

/-- The text is empty, or begins with a blank. -/
def BreaksOff (s : String) : Prop := ∀ c ∈ s.toList.head?, isBlank c = true

/-- **Where a blank begins, words are separated.** -/
theorem words_append (a : String) {b : String} (h : BreaksOff b) :
    words (a ++ b) = words a ++ words b := by
  unfold words
  rw [String.toList_append]
  cases hb : b.toList with
  | nil => simp
  | cons c cs =>
    have hc : isBlank c = true := h c (by rw [hb]; rfl)
    rw [List.splitOnP_append_cons _ _ hc, List.filter_append, List.map_append,
      List.splitOnP_cons_eq_if_modifyHead, if_pos hc, List.filter_cons_of_neg (by simp)]

/-- A blank between two texts separates their words. -/
theorem words_append_blank (a b : String) : words (a ++ " " ++ b) = words a ++ words b := by
  rw [String.append_assoc, words_append a, words_blank_append (by decide)]
  intro c hc
  obtain rfl : ' ' = c := by simpa using hc
  decide

/-- Words with a blank between any two are words again. -/
theorem words_intercalate {ws : List String} (h : ∀ w ∈ ws, IsWord w) :
    words (" ".intercalate ws) = ws := by
  induction ws with
  | nil => decide
  | cons w ws ih =>
    obtain ⟨hw, hws⟩ := List.forall_mem_cons.mp h
    cases ws with
    | nil => simpa using words_of_isWord hw
    | cons v vs =>
      rw [String.intercalate_cons_of_ne_nil (by simp), words_append_blank, words_of_isWord hw,
        ih hws]
      rfl

end MemoryShell.Text
