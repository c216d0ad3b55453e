import MemoryShell.OrderedMap
import MemoryShell.Text.Split

/-!
# Commands as typed

One command of a line is a name followed by items: operands, options with a value, and groups of
one-letter flags. Headlines:

* `TokenKind.ofToken`: what a token is, read off its leading dashes;
* `Item.ofTokens`: an option takes the token after it as its value, whatever that is;
* `name_ofChunk`: the name is the first word of the text the command was read from.
-/

namespace MemoryShell

/-! ## Items -/

/-- What a token announces. -/
inductive TokenKind
  /-- The token is an operand. -/
  | operand
  /-- One dash and letters: each letter is a flag. -/
  | flags (letters : List Char)
  /-- Two dashes and a name: an option whose value is the next token. -/
  | option (key : String)
deriving DecidableEq, Repr

/-- Two dashes with something behind them begin an option, one dash with something else than a
dash behind it begins flags, and all else is an operand, `-` and `--` included. -/
def TokenKind.ofToken (token : String) : TokenKind :=
  match token.toList with
  | '-' :: '-' :: c :: cs => .option (String.ofList (c :: cs))
  | '-' :: c :: cs => if c = '-' then .operand else .flags (c :: cs)
  | _ => .operand

/-- One item of a command, after its name. -/
inductive Item
  | operand (text : String)
  | option (key value : String)
  | flags (letters : List Char)
deriving DecidableEq, Repr

/-- The items that a list of tokens spells. An option at the end has the empty value. -/
def Item.ofTokens : List String → List Item
  | [] => []
  | [token] =>
    match TokenKind.ofToken token with
    | .operand => [.operand token]
    | .flags letters => [.flags letters]
    | .option key => [.option key ""]
  | token :: next :: rest =>
    match TokenKind.ofToken token with
    | .operand => .operand token :: Item.ofTokens (next :: rest)
    | .flags letters => .flags letters :: Item.ofTokens (next :: rest)
    | .option key => .option key next :: Item.ofTokens rest

/-! ## Arguments -/

/-- What a command is told, its `Args` and `Flags`: operands in order, option values by key, and a
set of flags. -/
structure Arguments where
  operands : List String
  options : OrderedMap String String
  flags : OrderedMap Char Unit
deriving DecidableEq

namespace Arguments

/-- No arguments. -/
def empty : Arguments := ⟨[], .empty, .empty⟩

instance : Inhabited Arguments := ⟨empty⟩

/-- Arguments with one more item; an option replaces an earlier one of the same key. -/
def add (args : Arguments) : Item → Arguments
  | .operand text => { args with operands := args.operands ++ [text] }
  | .option key value => { args with options := args.options.insert key value }
  | .flags letters => { args with flags := letters.foldl (fun s c => s.insert c ()) args.flags }

/-- The arguments that a list of items spells. -/
def ofItems (items : List Item) : Arguments := items.foldl add empty

/-- `named`: the value of the option `key`. -/
def option? (args : Arguments) (key : String) : Option String := args.options.get? key

/-- `has`: whether the flag `c` is set. -/
def hasFlag (args : Arguments) (c : Char) : Bool := args.flags.contains c

end Arguments

/-! ## Invocations -/

/-- `Invocation`: one command of a line, with its name, its arguments, and the text it was read
from. -/
structure Invocation where
  name : String
  input : String
  args : Arguments
deriving DecidableEq, Inhabited

namespace Invocation

/-- The invocation without a name, which does nothing. -/
def blank (input : String) : Invocation := ⟨"", input, .empty⟩

/-- `parse_input`: reads the text of one command. A text without words gives the blank
invocation. -/
def ofChunk (chunk : String) : Invocation :=
  match Text.words chunk with
  | [] => blank chunk
  | name :: tokens => ⟨name, chunk, .ofItems (Item.ofTokens tokens)⟩

theorem input_ofChunk (chunk : String) : (ofChunk chunk).input = chunk := by
  unfold ofChunk; split <;> rfl

theorem name_ofChunk (chunk : String) : (ofChunk chunk).name = (Text.words chunk).headD "" := by
  unfold ofChunk; split <;> simp_all [blank]

end Invocation

end MemoryShell
