import MemoryShell.Record
import MemoryShell.ShellError
import MemoryShell.Text.Split

/-!
# Message templates

A refused command is reported by its fault's template, in which every `$1` stands for the text at
fault. Headlines:

* `fillChars_eq_intercalate`: filling puts the token between the pieces of the template, so a `$1`
  that came with the token stays as it is;
* `render_of_standard`: the standard templates say what `ShellError.message` says.
-/

namespace MemoryShell

/-! ## Filling a template -/

/-- The template with `token` in place of every `$1`, found from the left. -/
def fillChars (token : List Char) : List Char → List Char
  | [] => []
  | [c] => [c]
  | c :: d :: cs =>
    if c = '$' ∧ d = '1' then token ++ fillChars token cs else c :: fillChars token (d :: cs)

/-- `render_template`: the text of `template` for `token`. -/
def fill (template token : String) : String :=
  String.ofList (fillChars token.toList template.toList)

theorem fillChars_eq_intercalate (token template : List Char) :
    fillChars token template = token.intercalate (Text.splitOnPair '$' '1' template) := by
  fun_induction fillChars token template with
  | case1 => simp [Text.splitOnPair]
  | case2 => simp [Text.splitOnPair]
  | case3 c d cs h ih =>
    rw [Text.splitOnPair, if_pos h,
      List.intercalate_cons_of_ne_nil (Text.splitOnPair_ne_nil _ _ _), ih]
    simp
  | case4 c d cs h ih =>
    rw [Text.splitOnPair, if_neg h, ih]
    cases hs : Text.splitOnPair '$' '1' (d :: cs) with
    | nil => exact absurd hs (Text.splitOnPair_ne_nil _ _ _)
    | cons p ps => cases ps <;> simp

/-! ## The templates of a shell -/

/-- `Messages`: one template for each fault. -/
structure Messages where
  template : Fault → String

namespace Messages

variable {α : Type}

/-- A fault's label, a colon and the token. -/
def standard : Messages := ⟨fun f => f.label ++ ": $1"⟩

instance : Inhabited Messages := ⟨standard⟩

/-- `template_for`: the template for a failure; failures without a token have none. -/
def templateFor? (m : Messages) : ShellError → Option String
  | .refused fault _ => some (m.template fault)
  | _ => none

/-- `render`: the transcript line for a failure: the filled template, or its own words where it has
none. -/
def render (m : Messages) : ShellError → String
  | .refused fault token => fill (m.template fault) token
  | e => e.message

/-- The templates that a record gives; those left out are the standard ones. -/
def ofRecord? (text? : α → Option String) (record : Record α) : Option Messages :=
  let field (f : Fault) : Option String :=
    (record f.key (Fault.all.idxOf f)).getD? text? (standard.template f)
  if Fault.all.all fun f => (field f).isSome then some ⟨fun f => (field f).getD ""⟩ else none

theorem render_of_standard (e : ShellError) : standard.render e = e.message := by
  cases e with
  | refused fault token =>
    apply String.toList_inj.1
    cases fault <;> simp [render, standard, fill, ShellError.message, Fault.label, fillChars]
  | _ => rfl

end Messages

end MemoryShell
