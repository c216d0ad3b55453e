import Mathlib.Data.List.TakeWhile
import MemoryShell.Line.Invocation
import MemoryShell.Proofs.Words

/-!
# Commands and their wordings

A command may be worded in many ways: a name, then items in any order, each spelled by one token or
two, and blanks around the tokens. Reading it finds the wording again, up to the blanks. Headlines:

* `spaced_iff`: the words of a text are the tokens that it holds between blanks;
* `Item.ofTokens_append`: a spelled item is read back, whatever stands behind it;
* `operands_ofItems`, `hasFlag_ofItems`, `option?_ofItems`: the arguments that items amount to;
* `reading_undoes_wording`: every wording is read back, and every chunk has exactly one.
-/

namespace MemoryShell

/-! ## Tokens between blanks -/

namespace Text

/-- The text holds these tokens: blanks may stand in front of the first and behind the last, and
there is a blank between any two. -/
inductive Spaced : List String → String → Prop
  | nil {behind : String} (blank : isBlankText behind = true) : Spaced [] behind
  | cons {front token behind : String} {tokens : List String} (blank : isBlankText front = true)
      (gap : BreaksOff behind) (rest : Spaced tokens behind) :
      Spaced (token :: tokens) (front ++ token ++ behind)

variable {text : String} {tokens : List String}

theorem Spaced.words (h : Spaced tokens text) (hwords : ∀ t ∈ tokens, IsWord t) :
    words text = tokens := by
  induction h with
  | nil blank => exact (words_eq_nil_iff _).mpr blank
  | cons blank gap rest ih =>
    obtain ⟨hword, hwords⟩ := List.forall_mem_cons.mp hwords
    rw [String.append_assoc, words_blank_append blank, words_append _ gap, words_of_isWord hword,
      ih hwords]
    rfl

/-- A text with a word in it, cut behind the first one. -/
theorem exists_first_word (h : isBlankText text = false) :
    ∃ front token behind, text = front ++ token ++ behind ∧ isBlankText front = true ∧
      IsWord token ∧ BreaksOff behind := by
  let rest := text.toList.dropWhile isBlank
  have hcut : text.toList = text.toList.takeWhile isBlank ++
      rest.takeWhile (!isBlank ·) ++ rest.dropWhile (!isBlank ·) := by
    rw [List.append_assoc, List.takeWhile_append_dropWhile, List.takeWhile_append_dropWhile]
  refine ⟨String.ofList (text.toList.takeWhile isBlank),
    String.ofList (rest.takeWhile (!isBlank ·)), String.ofList (rest.dropWhile (!isBlank ·)),
    String.toList_inj.mp (by simpa using hcut), ?_, ⟨?_, ?_⟩, ?_⟩
  · rw [isBlankText, String.toList_ofList, List.all_eq_true]
    exact fun c hc => List.mem_takeWhile_imp hc
  · have hrest : rest ≠ [] := by
      intro hnil
      rw [List.dropWhile_eq_nil_iff] at hnil
      rw [isBlankText, List.all_eq_true.mpr hnil] at h
      cases h
    obtain ⟨c, cs, hcs⟩ := List.exists_cons_of_ne_nil hrest
    have hc : isBlank c = false := by
      have hnot := List.head?_dropWhile_not isBlank text.toList
      rwa [show text.toList.dropWhile isBlank = c :: cs from hcs] at hnot
    simp [hcs, hc]
  · rw [String.toList_ofList]
    exact fun c hc => by simpa using List.mem_takeWhile_imp hc
  · intro c hc
    rw [String.toList_ofList, Option.mem_def] at hc
    have hnot := List.head?_dropWhile_not (!isBlank ·) rest
    rw [hc] at hnot
    simpa using hnot

/-- Every text holds its words. -/
theorem spaced_words (text : String) : Spaced (words text) text := by
  -- the induction is on the words that are left; the text behind the first one shrinks with them
  generalize hwords : words text = tokens
  induction tokens generalizing text with
  | nil => exact .nil ((words_eq_nil_iff text).mp hwords)
  | cons w ws ih =>
    have hblank : isBlankText text = false := by
      rw [Bool.eq_false_iff, ne_eq, ← words_eq_nil_iff, hwords]
      exact List.cons_ne_nil w ws
    obtain ⟨front, token, behind, rfl, hfront, htoken, hgap⟩ := exists_first_word hblank
    rw [String.append_assoc, words_blank_append hfront, words_append _ hgap,
      words_of_isWord htoken] at hwords
    obtain ⟨rfl, hrest⟩ := List.cons.inj hwords
    exact .cons hfront hgap (ih behind hrest)

/-- **The words of a text are the tokens that it holds between blanks.** -/
theorem spaced_iff (hwords : ∀ t ∈ tokens, IsWord t) : Spaced tokens text ↔ words text = tokens :=
  ⟨fun h => h.words hwords, fun h => h ▸ spaced_words text⟩

end Text

open Text (IsWord Spaced)

/-! ## Kinds of tokens -/

/-- A token that is read as flags or as an option. -/
def TokenKind.IsDashed (token : String) : Prop :=
  token.startsWith "-" = true ∧ token ≠ "-" ∧ token ≠ "--"

instance (token : String) : Decidable (TokenKind.IsDashed token) :=
  inferInstanceAs (Decidable (_ ∧ _))

theorem TokenKind.ofToken_eq_operand_iff {token : String} :
    ofToken token = .operand ↔ ¬ IsDashed token := by
  have hdashed : IsDashed token ↔
      ['-'] <+: token.toList ∧ token.toList ≠ ['-'] ∧ token.toList ≠ ['-', '-'] := by
    unfold IsDashed
    rw [String.startsWith_string_iff, ← String.toList_inj.ne, ← String.toList_inj.ne]
    rfl
  rw [hdashed]
  unfold ofToken
  split
  · rename_i heq
    simp [heq]
  · rename_i c cs hlong heq
    rw [heq]
    by_cases hc : c = '-'
    · subst hc
      cases cs with
      | nil => simp
      | cons d ds => exact absurd rfl (hlong d ds rfl)
    · simp [hc]
  · rename_i hlong hshort
    simp only [ne_eq, not_and, not_not, true_iff]
    rintro ⟨cs, hcs⟩ hne
    cases cs with
    | nil => exact absurd hcs.symm hne
    | cons c cs => exact absurd hcs.symm (hshort c cs)

theorem TokenKind.ofToken_eq_flags_iff {token : String} {letters : List Char} :
    ofToken token = .flags letters ↔
      token = "-" ++ String.ofList letters ∧ letters ≠ [] ∧ letters.head? ≠ some '-' := by
  refine ⟨fun h => ?_, ?_⟩
  · unfold ofToken at h
    split at h
    · cases h
    · rename_i c cs _ heq
      split at h
      · cases h
      · rename_i hc
        obtain rfl := TokenKind.flags.inj h
        exact ⟨String.toList_inj.mp (by simpa using heq), List.cons_ne_nil c cs, by simpa using hc⟩
    · cases h
  · rintro ⟨rfl, hne, hdash⟩
    obtain ⟨c, cs, rfl⟩ := List.exists_cons_of_ne_nil hne
    have hc : c ≠ '-' := by simpa using hdash
    simp [ofToken, hc]

theorem TokenKind.ofToken_eq_option_iff {token key : String} :
    ofToken token = .option key ↔ token = "--" ++ key ∧ key ≠ "" := by
  refine ⟨fun h => ?_, ?_⟩
  · unfold ofToken at h
    split at h
    · rename_i c cs heq
      obtain rfl := TokenKind.option.inj h
      exact ⟨String.toList_inj.mp (by simpa using heq), by simp⟩
    · split at h <;> cases h
    · cases h
  · rintro ⟨rfl, hne⟩
    obtain ⟨c, cs, hkey⟩ := List.exists_cons_of_ne_nil (l := key.toList) (by simpa using hne)
    have hback : key = String.ofList (c :: cs) := by rw [← hkey, String.ofList_toList]
    simp [ofToken, hback]

/-! ## Items -/

namespace Item

/-- The tokens that spell an item. -/
def tokens : Item → List String
  | operand text => [text]
  | flags letters => ["-" ++ String.ofList letters]
  | option key value => ["--" ++ key, value]

/-- An item that tokens can spell: an operand is not taken for flags or an option, flags are not
taken for an option, and an option has a key and a value. -/
def IsProper : Item → Prop
  | operand text => IsWord text ∧ ¬ TokenKind.IsDashed text
  | flags letters =>
    letters ≠ [] ∧ (∀ c ∈ letters, Text.isBlank c = false) ∧ letters.head? ≠ some '-'
  | option key value => IsWord key ∧ IsWord value

instance : DecidablePred IsProper
  | operand _ => inferInstanceAs (Decidable (_ ∧ _))
  | flags letters =>
    decidable_of_iff (letters ≠ [] ∧ (letters.all fun c => !Text.isBlank c) = true ∧
      letters.head? ≠ some '-') (by simp [IsProper])
  | option _ _ => inferInstanceAs (Decidable (_ ∧ _))

variable {item : Item} {token : String}

theorem ofTokens_of_operand (h : TokenKind.ofToken token = .operand) (rest : List String) :
    ofTokens (token :: rest) = operand token :: ofTokens rest := by
  cases rest <;> simp [ofTokens, h]

theorem ofTokens_of_flags {letters : List Char} (h : TokenKind.ofToken token = .flags letters)
    (rest : List String) : ofTokens (token :: rest) = flags letters :: ofTokens rest := by
  cases rest <;> simp [ofTokens, h]

theorem ofTokens_of_option {key : String} (h : TokenKind.ofToken token = .option key)
    (value : String) (rest : List String) :
    ofTokens (token :: value :: rest) = option key value :: ofTokens rest := by
  simp [ofTokens, h]

theorem ofTokens_of_last_option {key : String} (h : TokenKind.ofToken token = .option key) :
    ofTokens [token] = [option key ""] := by
  simp [ofTokens, h]

/-- **A spelled item is read back**, whatever stands behind it. -/
theorem ofTokens_append (h : item.IsProper) (rest : List String) :
    ofTokens (item.tokens ++ rest) = item :: ofTokens rest := by
  cases item with
  | operand text => exact ofTokens_of_operand (TokenKind.ofToken_eq_operand_iff.mpr h.2) rest
  | flags letters =>
    exact ofTokens_of_flags (TokenKind.ofToken_eq_flags_iff.mpr ⟨rfl, h.1, h.2.2⟩) rest
  | option key value =>
    exact ofTokens_of_option (TokenKind.ofToken_eq_option_iff.mpr ⟨rfl, h.1.1⟩) value rest

theorem isWord_of_mem_tokens (h : item.IsProper) : ∀ t ∈ item.tokens, IsWord t := by
  cases item with
  | operand text => simpa [tokens] using h.1
  | flags letters => simpa [tokens] using Text.isWord_append (by decide) (by simpa using h.2.1)
  | option key value => simpa [tokens] using ⟨Text.isWord_append (by decide) h.1.2, h.2⟩

theorem isProper_operand (hword : IsWord token) (h : TokenKind.ofToken token = .operand) :
    (operand token).IsProper :=
  ⟨hword, TokenKind.ofToken_eq_operand_iff.mp h⟩

theorem isProper_flags {letters : List Char} (hword : IsWord token)
    (h : TokenKind.ofToken token = .flags letters) :
    (flags letters).IsProper ∧ token = "-" ++ String.ofList letters := by
  obtain ⟨rfl, hne, hdash⟩ := TokenKind.ofToken_eq_flags_iff.mp h
  exact ⟨⟨hne, fun c hc => hword.2 c (by simp [hc]), hdash⟩, rfl⟩

theorem isWord_of_option {key : String} (hword : IsWord token)
    (h : TokenKind.ofToken token = .option key) : IsWord key ∧ token = "--" ++ key := by
  obtain ⟨rfl, hne⟩ := TokenKind.ofToken_eq_option_iff.mp h
  exact ⟨⟨hne, fun c hc => hword.2 c (by simp [hc])⟩, rfl⟩

/-! ## What items amount to -/

/-- The operand that an item adds. -/
def operand? : Item → Option String
  | operand text => some text
  | _ => none

theorem operand?_eq_some_iff {expr : String} :
    item.operand? = some expr ↔ item = .operand expr := by
  cases item <;> simp [operand?]

/-- The flags that an item sets. -/
def letters : Item → List Char
  | flags letters => letters
  | _ => []

/-- The value that an item gives to the option `key`. -/
def value? (key : String) : Item → Option String
  | option k value => if k = key then some value else none
  | _ => none

end Item

namespace Arguments

variable {args : Arguments} {items : List Item}

theorem operands_foldl_add :
    (items.foldl add args).operands = args.operands ++ items.filterMap Item.operand? := by
  induction items generalizing args with
  | nil => exact (List.append_nil _).symm
  | cons item items ih =>
    rw [List.foldl_cons, ih, List.filterMap_cons]
    cases item <;> simp [add, Item.operand?]

theorem contains_foldl_insert (letters : List Char) (set : OrderedMap Char Unit) (c : Char) :
    (letters.foldl (fun s c => s.insert c ()) set).contains c = true ↔
      c ∈ letters ∨ set.contains c = true := by
  induction letters generalizing set with
  | nil => simp
  | cons d ds ih =>
    rw [List.foldl_cons, ih, OrderedMap.contains_insert, List.mem_cons, eq_comm (a := d)]
    tauto

theorem hasFlag_add (item : Item) (c : Char) :
    (args.add item).hasFlag c = true ↔ c ∈ item.letters ∨ args.hasFlag c = true := by
  cases item with
  | flags letters => exact contains_foldl_insert letters args.flags c
  | operand text => exact (or_iff_right List.not_mem_nil).symm
  | option key value => exact (or_iff_right List.not_mem_nil).symm

theorem hasFlag_foldl_add (c : Char) :
    (items.foldl add args).hasFlag c = true ↔
      c ∈ items.flatMap Item.letters ∨ args.hasFlag c = true := by
  induction items generalizing args with
  | nil => exact (or_iff_right List.not_mem_nil).symm
  | cons item items ih =>
    rw [List.foldl_cons, ih, hasFlag_add, List.flatMap_cons, List.mem_append]
    tauto

theorem option?_add (item : Item) (key : String) :
    (args.add item).option? key = (item.value? key).or (args.option? key) := by
  cases item with
  | option k value =>
    rw [add, option?, OrderedMap.get?_insert, Item.value?]
    split <;> rfl
  | operand text => rfl
  | flags letters => rfl

theorem option?_foldl_add (key : String) :
    (items.foldl add args).option? key =
      (items.reverse.findSome? (Item.value? key)).or (args.option? key) := by
  induction items generalizing args with
  | nil => rfl
  | cons item items ih =>
    rw [List.foldl_cons, ih, option?_add, List.reverse_cons, List.findSome?_append,
      Option.or_assoc, List.findSome?_singleton]

/-- The operands are those of the items, in order. -/
theorem operands_ofItems (items : List Item) :
    (ofItems items).operands = items.filterMap Item.operand? :=
  operands_foldl_add.trans (List.nil_append _)

/-- The flags are all letters of the items. -/
theorem hasFlag_ofItems (items : List Item) (c : Char) :
    (ofItems items).hasFlag c = true ↔ c ∈ items.flatMap Item.letters :=
  (hasFlag_foldl_add c).trans (or_iff_left Bool.false_ne_true)

/-- An option has the value that the last item with its key gives it. -/
theorem option?_ofItems (items : List Item) (key : String) :
    (ofItems items).option? key = items.reverse.findSome? (Item.value? key) :=
  (option?_foldl_add key).trans Option.or_none

end Arguments

/-! ## Wordings -/

/-- How a command is worded: its name, its items, and perhaps the key of an option that stands at
the end without a value. -/
structure Wording where
  name : String
  items : List Item
  trailing? : Option String
deriving DecidableEq

namespace Wording

variable {w v : Wording} {chunk : String}

/-- The tokens that spell the items. -/
def tail (w : Wording) : List String :=
  w.items.flatMap Item.tokens ++ (w.trailing?.map ("--" ++ ·)).toList

/-- The items that the tokens are read as: an option without a value has the empty one. -/
def itemsRead (w : Wording) : List Item :=
  w.items ++ (w.trailing?.map (Item.option · "")).toList

/-- A wording in which the name and each item can be spelled. -/
structure IsProper (w : Wording) : Prop where
  name : IsWord w.name
  items : ∀ item ∈ w.items, item.IsProper
  trailing : ∀ key ∈ w.trailing?, IsWord key

/-- The chunk holds the name and then the tokens of the items, with blanks between any two of them
and perhaps around. -/
def Spells (w : Wording) (chunk : String) : Prop := Spaced (w.name :: w.tail) chunk

theorem IsProper.isWord (h : w.IsProper) : ∀ t ∈ w.name :: w.tail, IsWord t := by
  refine List.forall_mem_cons.mpr ⟨h.name, fun t ht => ?_⟩
  rcases List.mem_append.mp ht with ht | ht
  · obtain ⟨item, hitem, ht⟩ := List.mem_flatMap.mp ht
    exact Item.isWord_of_mem_tokens (h.items item hitem) t ht
  · obtain ⟨key, hkey, rfl⟩ := Option.map_eq_some_iff.mp (Option.mem_toList.mp ht)
    exact Text.isWord_append (by decide) (h.trailing key hkey).2

theorem IsProper.spells_iff (h : w.IsProper) :
    w.Spells chunk ↔ Text.words chunk = w.name :: w.tail :=
  Text.spaced_iff h.isWord

/-- The tokens of a wording are read as its items. -/
theorem IsProper.ofTokens_tail (h : w.IsProper) : Item.ofTokens w.tail = w.itemsRead := by
  have hitems (items : List Item) (rest : List String) (h : ∀ item ∈ items, item.IsProper) :
      Item.ofTokens (items.flatMap Item.tokens ++ rest) = items ++ Item.ofTokens rest := by
    induction items with
    | nil => rfl
    | cons item items ih =>
      obtain ⟨hitem, hitems⟩ := List.forall_mem_cons.mp h
      rw [List.flatMap_cons, List.append_assoc, Item.ofTokens_append hitem, ih hitems]
      rfl
  rw [tail, hitems _ _ h.items, itemsRead]
  cases hkey : w.trailing? with
  | none => rfl
  | some key =>
    exact congrArg (w.items ++ ·) (Item.ofTokens_of_last_option
      (TokenKind.ofToken_eq_option_iff.mpr ⟨rfl, (h.trailing key hkey).1⟩))

/-- The items read tell the wording, since no proper item has an empty value. -/
theorem IsProper.eq_of_itemsRead_eq (hw : w.IsProper) (hv : v.IsProper) (hname : w.name = v.name)
    (h : w.itemsRead = v.itemsRead) : w = v := by
  have hvalue {w : Wording} (hw : w.IsProper) (key : String) : Item.option key "" ∉ w.items :=
    fun hmem => (hw.items _ hmem).2.1 rfl
  obtain ⟨name, items, trailing?⟩ := w
  obtain ⟨name', items', trailing?'⟩ := v
  obtain rfl : name = name' := hname
  cases trailing? with
  | none =>
    cases trailing?' with
    | none => simpa [itemsRead] using h
    | some key =>
      have hmem : Item.option key "" ∈ items := by
        simp only [itemsRead, Option.map_none, Option.toList_none, List.append_nil] at h
        simp [h]
      exact absurd hmem (hvalue hw key)
  | some key =>
    cases trailing?' with
    | none =>
      have hmem : Item.option key "" ∈ items' := by
        simp only [itemsRead, Option.map_none, Option.toList_none, List.append_nil] at h
        simp [← h]
      exact absurd hmem (hvalue hv key)
    | some key' => simpa [itemsRead] using h

/-- Any tokens spell items, the last of which may lack its value. -/
theorem exists_of_tokens {name : String} (hname : IsWord name) {tokens : List String}
    (hwords : ∀ t ∈ tokens, IsWord t) : ∃ w : Wording, w.IsProper ∧ w.name = name ∧
      w.tail = tokens := by
  have hcons (item : Item) {ts : List String} (hitem : item.IsProper)
      (h : ∃ w : Wording, w.IsProper ∧ w.name = name ∧ w.tail = ts) :
      ∃ w : Wording, w.IsProper ∧ w.name = name ∧ w.tail = item.tokens ++ ts := by
    obtain ⟨w, hw, rfl, rfl⟩ := h
    exact ⟨{ w with items := item :: w.items },
      ⟨hw.name, List.forall_mem_cons.mpr ⟨hitem, hw.items⟩, hw.trailing⟩, rfl, by simp [tail]⟩
  have hnil : ∃ w : Wording, w.IsProper ∧ w.name = name ∧ w.tail = [] :=
    ⟨⟨name, [], none⟩, ⟨hname, by simp, by simp⟩, rfl, rfl⟩
  -- along the reading: an option takes two tokens, and only the last token may lack its value
  fun_induction Item.ofTokens tokens with
  | case1 => exact hnil
  | case2 token hkind =>
    have htoken := hwords token List.mem_cons_self
    exact hcons (.operand token) (Item.isProper_operand htoken hkind) hnil
  | case3 token letters hkind =>
    obtain ⟨hproper, rfl⟩ := Item.isProper_flags (hwords token List.mem_cons_self) hkind
    exact hcons (.flags letters) hproper hnil
  | case4 token key hkind =>
    obtain ⟨hkey, rfl⟩ := Item.isWord_of_option (hwords token List.mem_cons_self) hkind
    exact ⟨⟨name, [], some key⟩, ⟨hname, by simp, by simpa using hkey⟩, rfl, rfl⟩
  | case5 token next rest hkind ih =>
    obtain ⟨htoken, hrest⟩ := List.forall_mem_cons.mp hwords
    exact hcons (.operand token) (Item.isProper_operand htoken hkind) (ih hrest)
  | case6 token next rest letters hkind ih =>
    obtain ⟨htoken, hrest⟩ := List.forall_mem_cons.mp hwords
    obtain ⟨hproper, rfl⟩ := Item.isProper_flags htoken hkind
    exact hcons (.flags letters) hproper (ih hrest)
  | case7 token next rest key hkind ih =>
    obtain ⟨htoken, hwords⟩ := List.forall_mem_cons.mp hwords
    obtain ⟨hnext, hrest⟩ := List.forall_mem_cons.mp hwords
    obtain ⟨hkey, rfl⟩ := Item.isWord_of_option htoken hkind
    exact hcons (.option key next) ⟨hkey, hnext⟩ (ih hrest)

/-! ## Reading -/

theorem IsProper.ofChunk_eq (h : w.IsProper) (hspells : w.Spells chunk) :
    Invocation.ofChunk chunk = ⟨w.name, chunk, .ofItems w.itemsRead⟩ := by
  rw [Invocation.ofChunk, h.spells_iff.mp hspells, ← h.ofTokens_tail]

theorem operands_itemsRead (w : Wording) :
    w.itemsRead.filterMap Item.operand? = w.items.filterMap Item.operand? := by
  rw [itemsRead, List.filterMap_append]
  cases w.trailing? <;> exact List.append_nil _

theorem letters_itemsRead (w : Wording) :
    w.itemsRead.flatMap Item.letters = w.items.flatMap Item.letters := by
  rw [itemsRead, List.flatMap_append]
  cases w.trailing? <;> exact List.append_nil _

theorem value?_itemsRead (w : Wording) (key : String) :
    w.itemsRead.reverse.findSome? (Item.value? key) =
      if w.trailing? = some key then some "" else w.items.reverse.findSome? (Item.value? key) := by
  rw [itemsRead]
  cases w.trailing? with
  | none => simp
  | some k => by_cases hk : k = key <;> simp [Item.value?, hk]

end Wording

/-- **Reading undoes wording.** Let a chunk hold a name and then the tokens of some items, with
blanks between them. Then it is read as this name with the operands in order, the letters of all
flags, and for each key the value of its last occurrence, which is empty for an option at the end
without a value. And every chunk that is not blank is worded in exactly one way. -/
theorem reading_undoes_wording :
    (∀ (w : Wording) (chunk : String), w.IsProper → w.Spells chunk →
      let inv := Invocation.ofChunk chunk
      inv.name = w.name ∧ inv.input = chunk ∧
        inv.args.operands = w.items.filterMap Item.operand? ∧
        (∀ c, inv.args.hasFlag c = true ↔ c ∈ w.items.flatMap Item.letters) ∧
        ∀ key, inv.args.option? key =
          if w.trailing? = some key then some ""
          else w.items.reverse.findSome? (Item.value? key)) ∧
      ∀ chunk, Text.isBlankText chunk = false → ∃! w : Wording, w.IsProper ∧ w.Spells chunk := by
  refine ⟨fun w chunk hproper hspells => ?_, fun chunk hchunk => ?_⟩
  · rw [hproper.ofChunk_eq hspells]
    refine ⟨rfl, rfl, ?_, fun c => ?_, fun key => ?_⟩
    · rw [Arguments.operands_ofItems, w.operands_itemsRead]
    · rw [Arguments.hasFlag_ofItems, w.letters_itemsRead]
    · rw [Arguments.option?_ofItems, w.value?_itemsRead]
  · have hne : Text.words chunk ≠ [] := by
      rw [ne_eq, Text.words_eq_nil_iff, hchunk]
      exact Bool.false_ne_true
    obtain ⟨name, tokens, hwords⟩ := List.exists_cons_of_ne_nil hne
    have hall (t : String) (ht : t ∈ name :: tokens) : IsWord t :=
      (Text.of_mem_words (hwords ▸ ht)).1
    obtain ⟨hname, htokens⟩ := List.forall_mem_cons.mp hall
    obtain ⟨w, hw, rfl, rfl⟩ := Wording.exists_of_tokens hname htokens
    refine ⟨w, ⟨hw, hw.spells_iff.mpr hwords⟩, fun v ⟨hv, hspells⟩ => ?_⟩
    obtain ⟨hvname, hvtail⟩ := List.cons.inj (hwords.symm.trans (hv.spells_iff.mp hspells))
    refine hv.eq_of_itemsRead_eq hw hvname.symm ?_
    rw [← hv.ofTokens_tail, ← hw.ofTokens_tail, hvtail]

/-- Dashes may stand in a name, in letters, in keys and in values. -/
theorem reading_undoes_wording_dashes :
    let w : Wording := ⟨"-x", [.operand "-", .flags ['a', 'b'], .option "-k" "-c", .operand "--",
      .flags ['b', '-'], .option "k" "--k"], some "k"⟩
    let chunk := " -x  - -ab ---k -c\t-- -b- --k --k --k"
    let inv := Invocation.ofChunk chunk
    (w.IsProper ∧ w.Spells chunk ∧ inv.name = "-x" ∧ inv.args.operands = ["-", "--"] ∧
      (∀ c, inv.args.hasFlag c = true ↔ c ∈ ['a', 'b', 'b', '-']) ∧
      inv.args.option? "-k" = some "-c" ∧ inv.args.option? "k" = some "") ∧
      ∃! w : Wording, w.IsProper ∧ w.Spells chunk := by
  intro w chunk inv
  have hproper : w.IsProper := ⟨by decide, by decide +kernel, by decide⟩
  have hwords : Text.words chunk = w.name :: w.tail := by decide +kernel
  have hspells : w.Spells chunk := hproper.spells_iff.mpr hwords
  obtain ⟨hread, hunique⟩ := reading_undoes_wording
  obtain ⟨hname, -, hoperands, hflags, hoptions⟩ := hread w chunk hproper hspells
  exact ⟨⟨hproper, hspells, hname, hoperands, hflags, hoptions "-k", hoptions "k"⟩,
    hunique chunk (by decide +kernel)⟩

end MemoryShell
