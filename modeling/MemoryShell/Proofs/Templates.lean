import Mathlib.Logic.ExistsUnique
import MemoryShell.Messages
import MemoryShell.Proofs.Marks

/-!
# Templates filled

A template is filled in one pass: it falls into pieces at its placeholders, the token is put between
the pieces, and nothing looks at the token. A placeholder may still be in the result: it came with
the token, or it arose where two of the texts put together meet. Headlines:

* `existsUnique_piecesOf`: a template falls into its pieces in one way;
* `PiecesOf.fill_eq`: the filled template is the token between these pieces;
* `fill_append`: what is put at a placeholder is the token as it is;
* `not_hasPlaceholder_fill_iff`: the tokens with which no template keeps or gets a placeholder;
* `filling_is_one_pass`: all of this together.
-/

namespace MemoryShell

/-- What stands in a template for the token. -/
def placeholder : String := "$1"

def HasPlaceholder (text : String) : Prop := placeholder.toList <:+: text.toList

instance (text : String) : Decidable (HasPlaceholder text) :=
  inferInstanceAs (Decidable (placeholder.toList <:+: text.toList))

/-! ## The pieces of a template -/

/-- The texts between the placeholders of a template, with what is in front of the first one and
behind the last. -/
structure PiecesOf (template : String) (pieces : List String) : Prop where
  ne_nil : pieces ≠ []
  no_placeholder : ∀ p ∈ pieces, ¬ HasPlaceholder p
  joined : placeholder.intercalate pieces = template

namespace PiecesOf

variable {template front behind : String} {pieces others : List String}

theorem no_mark (h : PiecesOf template pieces) :
    ∀ w ∈ pieces.map String.toList, ¬ ['$', '1'] <:+: w := by
  intro w hw
  obtain ⟨p, hp, rfl⟩ := List.mem_map.mp hw
  exact h.no_placeholder p hp

theorem splitOnPair_eq (h : PiecesOf template pieces) :
    Text.splitOnPair '$' '1' template.toList = pieces.map String.toList := by
  have hsame : '$' ≠ '1' := by decide
  rw [← h.joined, String.toList_intercalate]
  exact Text.splitOnPair_intercalate (by simpa using h.ne_nil) h.no_mark (absurd · hsame)

protected theorem eq (h : PiecesOf template pieces) (ho : PiecesOf template others) :
    pieces = others := by
  have hchars := h.splitOnPair_eq.symm.trans ho.splitOnPair_eq
  exact List.map_injective_iff.mpr (fun _ _ => String.toList_injective) hchars

/-- **Between the pieces of a template is the token.** The pieces do not depend on it. -/
theorem fill_eq (h : PiecesOf template pieces) (token : String) :
    fill template token = token.intercalate pieces := by
  apply String.toList_inj.mp
  rw [fill, String.toList_ofList, fillChars_eq_intercalate, h.splitOnPair_eq,
    String.toList_intercalate]

theorem of_not_hasPlaceholder (h : ¬ HasPlaceholder template) : PiecesOf template [template] :=
  ⟨List.cons_ne_nil _ _, by simpa using h, String.intercalate_singleton⟩

/-- Two templates with a placeholder between them have the pieces of both. -/
protected theorem append (hf : PiecesOf front pieces) (hb : PiecesOf behind others) :
    PiecesOf (front ++ placeholder ++ behind) (pieces ++ others) := by
  refine ⟨List.append_ne_nil_of_left_ne_nil hf.ne_nil others, ?_, ?_⟩
  · intro p hp
    rcases List.mem_append.mp hp with hp | hp
    · exact hf.no_placeholder p hp
    · exact hb.no_placeholder p hp
  · rw [String.intercalate_append_of_ne_nil hf.ne_nil hb.ne_nil, hf.joined, hb.joined]

end PiecesOf

theorem exists_piecesOf (template : String) : ∃ pieces, PiecesOf template pieces := by
  refine ⟨(Text.splitOnPair '$' '1' template.toList).map String.ofList, ?_, ?_, ?_⟩
  · simpa using Text.splitOnPair_ne_nil '$' '1' template.toList
  · intro p hp
    obtain ⟨w, hw, rfl⟩ := List.mem_map.mp hp
    rw [HasPlaceholder, String.toList_ofList]
    exact Text.no_mark_of_mem_splitOnPair hw
  · apply String.toList_inj.mp
    rw [String.toList_intercalate, List.map_map]
    simpa [Function.comp_def, placeholder] using
      Text.intercalate_splitOnPair '$' '1' template.toList

theorem existsUnique_piecesOf (template : String) : ∃! pieces, PiecesOf template pieces :=
  existsUnique_of_exists_of_unique (exists_piecesOf template) fun _ _ => PiecesOf.eq

/-! ## What filling does -/

theorem fill_of_not_hasPlaceholder {text token : String} (h : ¬ HasPlaceholder text) :
    fill text token = text := by
  rw [(PiecesOf.of_not_hasPlaceholder h).fill_eq, String.intercalate_singleton]

/-- **At a placeholder is the token as it is**, and on either side of it what that side is filled
to. Of the three texts put together none is looked at again. -/
theorem fill_append (front behind token : String) :
    fill (front ++ placeholder ++ behind) token =
      fill front token ++ token ++ fill behind token := by
  obtain ⟨ps, hps⟩ := exists_piecesOf front
  obtain ⟨qs, hqs⟩ := exists_piecesOf behind
  rw [(hps.append hqs).fill_eq, hps.fill_eq, hqs.fill_eq,
    String.intercalate_append_of_ne_nil hps.ne_nil hqs.ne_nil]

/-- A placeholder put at every placeholder. -/
theorem fill_placeholder (template : String) : fill template placeholder = template := by
  obtain ⟨pieces, h⟩ := exists_piecesOf template
  rw [h.fill_eq, h.joined]

/-! ## Tokens with which no placeholder is left -/

section Inert

variable {token : String}

/-- A text that is not empty and has no placeholder, and neither begins with the end of one nor ends
in the beginning of one. -/
structure Inert (token : String) : Prop where
  ne_empty : token ≠ ""
  no_placeholder : ¬ HasPlaceholder token
  front : token.toList.head? ≠ some '1'
  back : token.toList.getLast? ≠ some '$'

theorem Inert.of_not_mem (hne : token ≠ "") (hdollar : '$' ∉ token.toList)
    (hone : token.toList.head? ≠ some '1') : Inert token where
  ne_empty := hne
  no_placeholder h := hdollar (h.subset List.mem_cons_self)
  front := hone
  back h := hdollar (List.mem_of_getLast? h)

theorem Inert.not_hasPlaceholder_fill (h : Inert token) (template : String) :
    ¬ HasPlaceholder (fill template token) := by
  obtain ⟨pieces, hpieces⟩ := exists_piecesOf template
  rw [hpieces.fill_eq, HasPlaceholder, String.toList_intercalate]
  exact Text.no_mark_intercalate (by simpa using h.ne_empty) h.no_placeholder h.front h.back
    hpieces.no_mark

/-- **Only an inert token leaves every template without a placeholder.** Each of the other tokens
leaves one in a template made for it, as the two halves of a placeholder around a placeholder are
for the empty token. -/
theorem not_hasPlaceholder_fill_iff :
    (∀ template, ¬ HasPlaceholder (fill template token)) ↔ Inert token := by
  refine ⟨fun h => ?_, Inert.not_hasPlaceholder_fill⟩
  have hfill {front behind : String} (hf : ¬ HasPlaceholder front) (hb : ¬ HasPlaceholder behind) :
      ¬ HasPlaceholder (front ++ token ++ behind) := by
    have hnone := h (front ++ placeholder ++ behind)
    rwa [fill_append, fill_of_not_hasPlaceholder hf, fill_of_not_hasPlaceholder hb] at hnone
  have hdollar : ¬ HasPlaceholder "$" := by decide
  have hone : ¬ HasPlaceholder "1" := by decide
  have hempty : ¬ HasPlaceholder "" := by decide
  refine ⟨?_, ?_, fun hfront => hfill hdollar hempty ?_, fun hback => hfill hempty hone ?_⟩
  · rintro rfl
    exact hfill hdollar hone (by decide)
  · simpa using hfill hempty hempty
  · rw [HasPlaceholder, String.append_empty, String.toList_append]
    exact Text.mark_infix_append_iff.mpr (.inr (.inr ⟨rfl, hfront⟩))
  · rw [HasPlaceholder, String.empty_append, String.toList_append]
    exact Text.mark_infix_append_iff.mpr (.inr (.inr ⟨hback, rfl⟩))

end Inert

/-! ## One pass -/

/-- **Filling is one pass over the template.** A template falls into pieces without a placeholder in
just one way, and filled it is these pieces with the token between any two. So the token is never
looked at: wherever a placeholder is, the token is put there as it is, and the texts on either side
are filled on their own. To fill in the placeholder itself changes nothing. And if the token is not
empty, has no `$` and does not begin with `1`, then no placeholder is left in any template, nor does
one arise where the token meets a piece. The tokens with which none is left in any template are the
inert ones and no others. -/
theorem filling_is_one_pass (template : String) :
    (∃! pieces, PiecesOf template pieces) ∧
    (∀ pieces, PiecesOf template pieces →
      ∀ token, fill template token = token.intercalate pieces) ∧
    (∀ front behind, template = front ++ placeholder ++ behind →
      ∀ token, fill template token = fill front token ++ token ++ fill behind token) ∧
    fill template placeholder = template ∧
    (∀ token, token ≠ "" → '$' ∉ token.toList → token.toList.head? ≠ some '1' →
      ¬ HasPlaceholder (fill template token)) ∧
    ∀ token, (∀ other, ¬ HasPlaceholder (fill other token)) ↔ Inert token := by
  refine ⟨existsUnique_piecesOf template, fun _ h => h.fill_eq, ?_, fill_placeholder template, ?_,
    fun _ => not_hasPlaceholder_fill_iff⟩
  · rintro front behind rfl token
    exact fill_append front behind token
  · intro token hne hdollar hone
    exact (Inert.of_not_mem hne hdollar hone).not_hasPlaceholder_fill template

/-- A template with halves of a placeholder around its placeholders. Filled with two placeholders it
keeps both at either place, and filled with a plain token it keeps none, though the halves stay. -/
theorem filling_is_one_pass_halves :
    let template := "$$11$$1?"
    let pieces := ["$", "1$", "?"]
    PiecesOf template pieces ∧ fill template "$1$1" = "$1$1".intercalate pieces ∧
    template = "$" ++ placeholder ++ "1$$1?" ∧
    fill template "$1$1" = fill "$" "$1$1" ++ "$1$1" ++ fill "1$$1?" "$1$1" ∧
    "a1" ≠ "" ∧ '$' ∉ "a1".toList ∧ "a1".toList.head? ≠ some '1' ∧
    fill template "a1" = "$a11$a1?" ∧ ¬ HasPlaceholder (fill template "a1") := by
  intro template pieces
  obtain ⟨-, hpieces, hcut, -, hplain, -⟩ := filling_is_one_pass template
  have hof : PiecesOf template pieces := ⟨by simp [pieces], by decide, by decide⟩
  have hfront : template = "$" ++ placeholder ++ "1$$1?" := by decide
  have hne : "a1" ≠ "" := by simp
  have hdollar : '$' ∉ "a1".toList := by simp
  have hone : "a1".toList.head? ≠ some '1' := by simp
  exact ⟨hof, hpieces pieces hof "$1$1", hfront, hcut "$" "1$$1?" hfront "$1$1", hne, hdollar, hone,
    by decide, hplain "a1" hne hdollar hone⟩

end MemoryShell
