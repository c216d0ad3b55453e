import Mathlib.Data.List.Infix
import MemoryShell.Text.Split

/-!
# Marks of two characters

A text is cut at every mark, and the pieces joined by the mark are the text again. If something else
is put between the pieces, the mark may arise where it meets them. Headlines:

* `intercalate_splitOnPair`, `splitOnPair_intercalate`: cutting and joining undo each other;
* `no_mark_of_mem_splitOnPair`: the mark stands in no piece;
* `mark_infix_append_iff`: where a text of two parts holds the mark;
* `no_mark_intercalate`: what may be put between the pieces so that it arises nowhere.
-/

namespace MemoryShell.Text

variable {a b : Char} {cs rest t xs ys : List Char} {ps : List (List Char)}

/-! ## Cutting at a mark -/

/-- The first piece begins where the text does, or the mark does. -/
theorem head_splitOnPair_cons {c : Char} {w : List Char} {ws : List (List Char)}
    (h : splitOnPair a b (c :: cs) = w :: ws) : w = [] ∧ c = a ∨ ∃ v, w = c :: v := by
  cases cs with
  | nil =>
    obtain ⟨rfl, -⟩ := List.cons.inj h
    exact .inr ⟨[], rfl⟩
  | cons d cs =>
    rw [splitOnPair] at h
    split at h
    · rename_i hmark
      exact .inl ⟨(List.cons.inj h).1.symm, hmark.1⟩
    · obtain ⟨v, vs, hvs⟩ := List.exists_cons_of_ne_nil (splitOnPair_ne_nil a b (d :: cs))
      rw [hvs, List.modifyHead_cons] at h
      exact .inr ⟨v, (List.cons.inj h).1.symm⟩

theorem mem_of_mem_splitOnPair {c : Char} {w : List Char} (hw : w ∈ splitOnPair a b cs)
    (hc : c ∈ w) : c ∈ cs := by
  fun_induction splitOnPair a b cs generalizing w with
  | case1 => exact List.mem_singleton.mp hw ▸ hc
  | case2 => exact List.mem_singleton.mp hw ▸ hc
  | case3 e d cs _ ih =>
    rcases List.mem_cons.mp hw with rfl | hw
    · exact absurd hc List.not_mem_nil
    · exact List.mem_cons_of_mem e (List.mem_cons_of_mem d (ih hw hc))
  | case4 e d cs _ ih =>
    obtain ⟨v, vs, hvs⟩ := List.exists_cons_of_ne_nil (splitOnPair_ne_nil a b (d :: cs))
    rw [hvs] at hw ih
    rcases List.mem_cons.mp hw with rfl | hw
    · rcases List.mem_cons.mp hc with rfl | hc
      · exact List.mem_cons_self
      · exact List.mem_cons_of_mem e (ih List.mem_cons_self hc)
    · exact List.mem_cons_of_mem e (ih (List.mem_cons_of_mem v hw) hc)

/-- The mark stands in no piece. -/
theorem no_mark_of_mem_splitOnPair {w : List Char} (hw : w ∈ splitOnPair a b cs) :
    ¬ [a, b] <:+: w := by
  fun_induction splitOnPair a b cs generalizing w with
  | case1 =>
    rw [List.mem_singleton.mp hw]
    simp
  | case2 =>
    rw [List.mem_singleton.mp hw]
    simp [List.infix_cons_iff]
  | case3 c d cs _ ih =>
    rcases List.mem_cons.mp hw with rfl | hw
    · simp
    · exact ih hw
  | case4 c d cs hmark ih =>
    obtain ⟨v, vs, hvs⟩ := List.exists_cons_of_ne_nil (splitOnPair_ne_nil a b (d :: cs))
    rw [hvs] at hw ih
    rcases List.mem_cons.mp hw with rfl | hw
    · intro hsub
      rcases List.infix_cons_iff.mp hsub with hfront | hsub
      · -- a mark at the front would end in the character that the rest begins with
        obtain ⟨rfl, hv⟩ := List.cons_prefix_cons.mp hfront
        rcases head_splitOnPair_cons hvs with ⟨rfl, -⟩ | ⟨u, rfl⟩
        · simp at hv
        · exact hmark ⟨rfl, (List.cons_prefix_cons.mp hv).1.symm⟩
      · exact ih List.mem_cons_self hsub
    · exact ih (List.mem_cons_of_mem v hw)

/-- A piece with a doubled character behind it does not end in that character, since the mark is
found from the left: of three in a row the first two are the mark. -/
theorem getLast?_ne_of_mem_dropLast_splitOnPair {w : List Char}
    (hw : w ∈ (splitOnPair a a cs).dropLast) : w.getLast? ≠ some a := by
  fun_induction splitOnPair a a cs generalizing w with
  | case1 => exact absurd hw List.not_mem_nil
  | case2 => exact absurd hw List.not_mem_nil
  | case3 c d cs _ ih =>
    rw [List.dropLast_cons_of_ne_nil (splitOnPair_ne_nil a a cs)] at hw
    rcases List.mem_cons.mp hw with rfl | hw
    · simp
    · exact ih hw
  | case4 c d cs hmark ih =>
    obtain ⟨v, vs, hvs⟩ := List.exists_cons_of_ne_nil (splitOnPair_ne_nil a a (d :: cs))
    rw [hvs] at hw ih
    rw [List.modifyHead_cons] at hw
    cases vs with
    | nil => exact absurd hw List.not_mem_nil
    | cons u us =>
      rw [List.dropLast_cons_cons] at hw ih
      rcases List.mem_cons.mp hw with rfl | hw
      · rcases head_splitOnPair_cons hvs with ⟨rfl, rfl⟩ | ⟨v, rfl⟩
        · intro hc
          exact hmark ⟨by simpa using hc, rfl⟩
        · rw [List.getLast?_cons_cons]
          exact ih List.mem_cons_self
      · exact ih (List.mem_cons_of_mem v hw)

/-! ## Joining by a mark -/

/-- **The pieces joined by the mark are the text.** -/
theorem intercalate_splitOnPair (a b : Char) (cs : List Char) :
    [a, b].intercalate (splitOnPair a b cs) = cs := by
  fun_induction splitOnPair a b cs with
  | case1 => rfl
  | case2 => rfl
  | case3 c d cs hcd ih =>
    obtain ⟨rfl, rfl⟩ := hcd
    rw [List.intercalate_cons_of_ne_nil (splitOnPair_ne_nil c d cs), ih]
    rfl
  | case4 c d cs _ ih =>
    obtain ⟨v, vs, hvs⟩ := List.exists_cons_of_ne_nil (splitOnPair_ne_nil a b (d :: cs))
    rw [hvs] at ih ⊢
    rw [List.modifyHead_cons, List.intercalate_cons_cons_left, ih]

theorem splitOnPair_of_no_mark (h : ¬ [a, b] <:+: cs) : splitOnPair a b cs = [cs] := by
  fun_induction splitOnPair a b cs with
  | case1 => rfl
  | case2 => rfl
  | case3 c d cs hcd =>
    obtain ⟨rfl, rfl⟩ := hcd
    exact absurd ⟨[], cs, rfl⟩ h
  | case4 c d cs _ ih =>
    rw [ih fun hsub => h (hsub.trans (List.suffix_cons c (d :: cs)).isInfix)]
    rfl

/-- A piece ends where the mark begins. If the mark is a doubled character and the piece ended in
it, the mark could be found one place earlier. -/
theorem splitOnPair_append (h : ¬ [a, b] <:+: cs) (hend : a = b → cs.getLast? ≠ some a) :
    splitOnPair a b (cs ++ a :: b :: rest) = cs :: splitOnPair a b rest := by
  induction cs with
  | nil => rw [List.nil_append, splitOnPair, if_pos ⟨rfl, rfl⟩]
  | cons c cs ih =>
    have htail : ¬ [a, b] <:+: cs := fun hsub => h (hsub.trans (List.suffix_cons c cs).isInfix)
    cases cs with
    | nil =>
      have hmark : ¬ (c = a ∧ a = b) := fun ⟨hca, hab⟩ => hend hab (congrArg some hca)
      rw [List.cons_append, List.nil_append, splitOnPair, if_neg hmark, splitOnPair,
        if_pos ⟨rfl, rfl⟩]
      rfl
    | cons d cs =>
      have hmark : ¬ (c = a ∧ d = b) := by
        rintro ⟨rfl, rfl⟩
        exact h ⟨[], cs, rfl⟩
      have hpieces := ih htail (by simpa using hend)
      rw [List.cons_append] at hpieces
      rw [List.cons_append, List.cons_append, splitOnPair, if_neg hmark, hpieces]
      rfl

/-- **Pieces joined by the mark are cut apart again.** -/
theorem splitOnPair_intercalate (hne : ps ≠ []) (hmark : ∀ p ∈ ps, ¬ [a, b] <:+: p)
    (hend : a = b → ∀ p ∈ ps.dropLast, p.getLast? ≠ some a) :
    splitOnPair a b ([a, b].intercalate ps) = ps := by
  induction ps with
  | nil => exact absurd rfl hne
  | cons p ps ih =>
    cases ps with
    | nil => rw [List.intercalate_singleton, splitOnPair_of_no_mark (hmark p List.mem_cons_self)]
    | cons q qs =>
      have hjoined :
          [a, b].intercalate (p :: q :: qs) = p ++ a :: b :: [a, b].intercalate (q :: qs) := by
        rw [List.intercalate_cons_cons, List.append_assoc]
        rfl
      rw [hjoined, splitOnPair_append (hmark p List.mem_cons_self)
        fun hab => hend hab p List.mem_cons_self, ih (by simp)
        (fun r hr => hmark r (List.mem_cons_of_mem p hr))
        fun hab r hr => hend hab r (List.mem_cons_of_mem p hr)]

/-! ## Joining by something else -/

/-- **A mark in a text made of two parts stands in one of them, or half in each.** -/
theorem mark_infix_append_iff :
    [a, b] <:+: xs ++ ys ↔
      [a, b] <:+: xs ∨ [a, b] <:+: ys ∨ xs.getLast? = some a ∧ ys.head? = some b := by
  rw [List.infix_append_iff_ne_nil]
  refine or_congr_right (or_congr_right ⟨?_, ?_⟩)
  · -- neither half is empty, so each of them is one character
    rintro ⟨left, right, hleft, hright, hmark, ⟨us, rfl⟩, ⟨vs, rfl⟩⟩
    obtain ⟨c, left, rfl⟩ := List.exists_cons_of_ne_nil hleft
    obtain ⟨rfl, hrest⟩ := List.cons.inj hmark
    rcases List.append_eq_singleton_iff.mp hrest.symm with ⟨rfl, rfl⟩ | ⟨-, rfl⟩
    · exact ⟨List.getLast?_concat, rfl⟩
    · exact absurd rfl hright
  · rintro ⟨hleft, hright⟩
    obtain ⟨us, rfl⟩ := List.getLast?_eq_some_iff.mp hleft
    obtain ⟨vs, rfl⟩ := List.head?_eq_some_iff.mp hright
    exact ⟨[a], [b], by simp, by simp, rfl, ⟨us, rfl⟩, ⟨vs, rfl⟩⟩

/-- **What holds no mark, and neither begins with its end nor ends in its beginning, can be put
between pieces without a mark.** It has to keep the pieces apart, so it must not be empty. -/
theorem no_mark_intercalate (hne : t ≠ []) (ht : ¬ [a, b] <:+: t) (hfront : t.head? ≠ some b)
    (hback : t.getLast? ≠ some a) (hps : ∀ p ∈ ps, ¬ [a, b] <:+: p) :
    ¬ [a, b] <:+: t.intercalate ps := by
  induction ps with
  | nil => simp
  | cons p ps ih =>
    cases ps with
    | nil =>
      rw [List.intercalate_singleton]
      exact hps p List.mem_cons_self
    | cons q qs =>
      have hrest := ih fun r hr => hps r (List.mem_cons_of_mem p hr)
      have hbehind : ¬ [a, b] <:+: t ++ t.intercalate (q :: qs) := by
        rw [mark_infix_append_iff]
        rintro (h | h | ⟨h, -⟩)
        · exact ht h
        · exact hrest h
        · exact hback h
      rw [List.intercalate_cons_cons, List.append_assoc, mark_infix_append_iff,
        List.head?_append_of_ne_nil t hne]
      rintro (h | h | ⟨-, h⟩)
      · exact hps p List.mem_cons_self h
      · exact hbehind h
      · exact hfront h

end MemoryShell.Text
