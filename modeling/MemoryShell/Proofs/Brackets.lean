import MemoryShell.Proofs.Snapshots

/-!
# Brackets of a text

The limit of a snapshot is on the brackets of its text. Here they are counted in the text itself,
character by character, what stands between quotes aside. Headlines:

* `mostOpenFrom_chars`: in a printed value this is the depth of the value;
* `Session.restored_within_limit`: a session is restored exactly where its text keeps the limit.
-/

namespace MemoryShell

/-! ## Counting -/

/-- Where a character of a JSON text stands. -/
inductive Zone
  | outside
  | quoted
  /-- Between quotes, behind a backslash. -/
  | escaped
deriving DecidableEq, Repr

namespace Zone

/-- The zone behind a character. -/
def after : Zone → Char → Zone
  | outside, c => if c = '\x22' then quoted else outside
  | quoted, c => if c = '\x22' then outside else if c = '\\' then escaped else quoted
  | escaped, _ => quoted

/-- How many brackets are open behind a character, where `n` are open in front of it. -/
def openAfter (n : Nat) : Zone → Char → Nat
  | outside, c =>
    if c = '[' ∨ c = '\x7b' then n + 1 else if c = ']' ∨ c = '\x7d' then n - 1 else n
  | _, _ => n

end Zone

/-- The most brackets open at once in a text that begins in a zone, `n` of them open before it. -/
def mostOpenFrom (zone : Zone) (n : Nat) : List Char → Nat
  | [] => n
  | c :: cs => max n (mostOpenFrom (zone.after c) (zone.openAfter n c) cs)

/-- The most brackets open at once in a JSON text. -/
def mostOpen (text : String) : Nat := mostOpenFrom .outside 0 text.toList

variable {n : Nat} {rest : List Char}

theorem le_mostOpenFrom (zone : Zone) (n : Nat) (cs : List Char) : n ≤ mostOpenFrom zone n cs := by
  cases cs with
  | nil => exact Nat.le_refl n
  | cons c cs => exact Nat.le_max_left _ _

theorem max_mostOpenFrom (zone : Zone) (n : Nat) (cs : List Char) :
    max n (mostOpenFrom zone n cs) = mostOpenFrom zone n cs :=
  Nat.max_eq_right (le_mostOpenFrom zone n cs)

/-- A character at which no bracket is opened or closed counts for nothing. -/
theorem mostOpenFrom_cons {zone : Zone} {c : Char} (h : zone.openAfter n c = n) :
    mostOpenFrom zone n (c :: rest) = mostOpenFrom (zone.after c) n rest := by
  rw [mostOpenFrom, h, max_mostOpenFrom]

theorem mostOpenFrom_open {c : Char} (h : c = '[' ∨ c = '\x7b') :
    mostOpenFrom .outside n (c :: rest) = mostOpenFrom .outside (n + 1) rest := by
  have hle : n ≤ mostOpenFrom .outside (n + 1) rest :=
    Nat.le_of_succ_le (le_mostOpenFrom .outside (n + 1) rest)
  rcases h with rfl | rfl <;> exact Nat.max_eq_right hle

theorem mostOpenFrom_close {c : Char} (h : c = ']' ∨ c = '\x7d') :
    mostOpenFrom .outside (n + 1) (c :: rest) = max (n + 1) (mostOpenFrom .outside n rest) := by
  rcases h with rfl | rfl <;> rfl

/-! ## Printed texts -/

/-- A character that is neither a bracket nor a quote. -/
def isPlain (c : Char) : Bool := c ∉ ['[', ']', '\x7b', '\x7d', '\x22']

theorem mostOpenFrom_plain {cs : List Char} (h : ∀ c ∈ cs, isPlain c = true) :
    mostOpenFrom .outside n (cs ++ rest) = mostOpenFrom .outside n rest := by
  induction cs with
  | nil => rfl
  | cons c cs ih =>
    have hc := h c List.mem_cons_self
    simp only [isPlain, List.mem_cons, List.not_mem_nil, or_false, not_or, decide_eq_true_eq] at hc
    have hopen : Zone.openAfter n .outside c = n := by simp [Zone.openAfter, hc]
    have hzone : Zone.after .outside c = .outside := by simp [Zone.after, hc]
    rw [List.cons_append, mostOpenFrom_cons hopen, hzone]
    exact ih fun d hd => h d (List.mem_cons_of_mem c hd)

theorem isPlain_of_isDigit {c : Char} (h : c.isDigit = true) : isPlain c = true := by
  refine decide_eq_true fun hmem => ?_
  simp only [List.mem_cons, List.not_mem_nil, or_false] at hmem
  rcases hmem with rfl | rfl | rfl | rfl | rfl <;> revert h <;> decide

theorem mostOpenFrom_newline (depth : Nat) :
    mostOpenFrom .outside n (Json.newline depth ++ rest) = mostOpenFrom .outside n rest := by
  refine mostOpenFrom_plain fun c hc => ?_
  rcases List.mem_cons.mp hc with rfl | hc
  · rfl
  · rw [List.eq_of_mem_replicate hc]
    rfl

theorem mostOpenFrom_integerChars (i : Int) :
    mostOpenFrom .outside n (Number.integerChars i ++ rest) = mostOpenFrom .outside n rest := by
  refine mostOpenFrom_plain fun c hc => ?_
  cases i with
  | ofNat k => exact isPlain_of_isDigit (Doc.isDigit_of_mem_toDigits c hc)
  | negSucc k =>
    rcases List.mem_cons.mp hc with rfl | hc
    · rfl
    · exact isPlain_of_isDigit (Doc.isDigit_of_mem_toDigits c hc)

/-- Between quotes a character other than the quote and the backslash counts for nothing. -/
theorem mostOpenFrom_quoted {c : Char} (hquote : c ≠ '\x22') (hslash : c ≠ '\\') :
    mostOpenFrom .quoted n (c :: rest) = mostOpenFrom .quoted n rest := by
  have hzone : Zone.after .quoted c = .quoted := by simp [Zone.after, hquote, hslash]
  rw [mostOpenFrom_cons rfl, hzone]

/-- Nor does a backslash with the character behind it, whichever that is. -/
theorem mostOpenFrom_backslash (c : Char) :
    mostOpenFrom .quoted n ('\\' :: c :: rest) = mostOpenFrom .quoted n rest := by
  rw [mostOpenFrom_cons rfl]
  exact mostOpenFrom_cons rfl

theorem digitChar_ne : ∀ k < 0x10, Nat.digitChar k ≠ '\x22' ∧ Nat.digitChar k ≠ '\\' := by
  decide

theorem mostOpenFrom_escape (c : Char) :
    mostOpenFrom .quoted n (Quoted.escape c ++ rest) = mostOpenFrom .quoted n rest := by
  unfold Quoted.escape
  split
  case h_8 hquote hslash _ _ _ _ _ =>
    split
    · rename_i hc
      obtain ⟨ha, ha'⟩ := digitChar_ne (c.toNat / 16) (by omega)
      obtain ⟨hb, hb'⟩ := digitChar_ne (c.toNat % 16) (by omega)
      simp only [Quoted.hexPair, List.cons_append, List.nil_append]
      rw [mostOpenFrom_backslash, mostOpenFrom_quoted (by decide) (by decide),
        mostOpenFrom_quoted (by decide) (by decide), mostOpenFrom_quoted ha ha',
        mostOpenFrom_quoted hb hb']
    · exact mostOpenFrom_quoted hquote hslash
  all_goals exact mostOpenFrom_backslash _

theorem mostOpenFrom_quotedChars (text : List Char) :
    mostOpenFrom .outside n (Quoted.chars text ++ rest) = mostOpenFrom .outside n rest := by
  have hinside : mostOpenFrom .quoted n (text.flatMap Quoted.escape ++ '\x22' :: rest) =
      mostOpenFrom .outside n rest := by
    induction text with
    | nil => exact mostOpenFrom_cons rfl
    | cons c text ih => rw [List.flatMap_cons, List.append_assoc, mostOpenFrom_escape, ih]
  rw [Quoted.chars_append, mostOpenFrom_cons rfl]
  exact hinside

theorem mostOpenFrom_comma :
    mostOpenFrom .outside n (',' :: rest) = mostOpenFrom .outside n rest :=
  mostOpenFrom_cons rfl

/-- What stands between a key and its value. -/
theorem mostOpenFrom_colon :
    mostOpenFrom .outside n (':' :: ' ' :: rest) = mostOpenFrom .outside n rest := by
  rw [mostOpenFrom_cons rfl]
  exact mostOpenFrom_cons rfl

section Values

open Json (itemChars memberChars areIntegral haveIntegralValues itemsDepth membersDepth)

mutual

/-- **A printed value opens as many brackets at once as it is deep.** -/
theorem mostOpenFrom_chars : (v : Json) → (depth n : Nat) → (rest : List Char) →
    v.isIntegral = true →
      mostOpenFrom .outside n (v.chars depth ++ rest) =
        max (n + v.depth) (mostOpenFrom .outside n rest)
  | .null, _, n, rest, _ | .bool true, _, n, rest, _ | .bool false, _, n, rest, _ =>
    (mostOpenFrom_plain (by simp [Json.chars, isPlain])).trans
      (max_mostOpenFrom .outside n rest).symm
  | .number (.integer i), _, n, rest, _ =>
    (mostOpenFrom_integerChars i).trans (max_mostOpenFrom .outside n rest).symm
  | .string s, _, n, rest, _ =>
    (mostOpenFrom_quotedChars s.toList).trans (max_mostOpenFrom .outside n rest).symm
  | .array [], _, n, rest, _ => by
    simp only [Json.chars, List.cons_append, List.nil_append, Json.depth, itemsDepth]
    rw [mostOpenFrom_open (.inl rfl), mostOpenFrom_close (.inl rfl), Nat.zero_add]
  | .object [], _, n, rest, _ => by
    simp only [Json.chars, List.cons_append, List.nil_append, Json.depth, membersDepth]
    rw [mostOpenFrom_open (.inr rfl), mostOpenFrom_close (.inr rfl), Nat.zero_add]
  | .array (v :: vs), depth, n, rest, hv => by
    simp only [Json.isIntegral, areIntegral, Bool.and_eq_true] at hv
    have hitem := mostOpenFrom_chars v (depth + 1) (n + 1) (itemChars depth vs ++ rest) hv.1
    have hitems := mostOpenFrom_itemChars vs depth n rest hv.2
    simp only [Json.chars, List.cons_append, List.append_assoc, Json.depth, itemsDepth]
    rw [mostOpenFrom_open (.inl rfl), mostOpenFrom_newline, hitem, hitems]
    omega
  | .object ((k, v) :: ms), depth, n, rest, hv => by
    simp only [Json.isIntegral, haveIntegralValues, Bool.and_eq_true] at hv
    have hitem := mostOpenFrom_chars v (depth + 1) (n + 1) (memberChars depth ms ++ rest) hv.1
    have hmembers := mostOpenFrom_memberChars ms depth n rest hv.2
    simp only [Json.chars, List.cons_append, List.append_assoc, Json.depth, membersDepth]
    rw [mostOpenFrom_open (.inr rfl), mostOpenFrom_newline, mostOpenFrom_quotedChars,
      mostOpenFrom_colon, hitem, hmembers]
    omega

theorem mostOpenFrom_itemChars : (vs : List Json) → (depth n : Nat) → (rest : List Char) →
    areIntegral vs = true →
      mostOpenFrom .outside (n + 1) (itemChars depth vs ++ rest) =
        max (n + 1 + itemsDepth vs) (mostOpenFrom .outside n rest)
  | [], depth, n, rest, _ => by
    rw [itemChars, List.append_assoc, mostOpenFrom_newline]
    exact mostOpenFrom_close (.inl rfl)
  | v :: vs, depth, n, rest, hvs => by
    simp only [areIntegral, Bool.and_eq_true] at hvs
    have hitem := mostOpenFrom_chars v (depth + 1) (n + 1) (itemChars depth vs ++ rest) hvs.1
    have hitems := mostOpenFrom_itemChars vs depth n rest hvs.2
    simp only [itemChars, List.cons_append, List.append_assoc, itemsDepth]
    rw [mostOpenFrom_comma, mostOpenFrom_newline, hitem, hitems]
    omega

theorem mostOpenFrom_memberChars : (ms : List (String × Json)) → (depth n : Nat) →
    (rest : List Char) → haveIntegralValues ms = true →
      mostOpenFrom .outside (n + 1) (memberChars depth ms ++ rest) =
        max (n + 1 + membersDepth ms) (mostOpenFrom .outside n rest)
  | [], depth, n, rest, _ => by
    rw [memberChars, List.append_assoc, mostOpenFrom_newline]
    exact mostOpenFrom_close (.inr rfl)
  | (k, v) :: ms, depth, n, rest, hms => by
    simp only [haveIntegralValues, Bool.and_eq_true] at hms
    have hitem := mostOpenFrom_chars v (depth + 1) (n + 1) (memberChars depth ms ++ rest) hms.1
    have hmembers := mostOpenFrom_memberChars ms depth n rest hms.2
    simp only [memberChars, List.cons_append, List.append_assoc, membersDepth]
    rw [mostOpenFrom_comma, mostOpenFrom_newline, mostOpenFrom_quotedChars, mostOpenFrom_colon,
      hitem, hmembers]
    omega

end

theorem mostOpen_pretty {v : Json} (h : v.isIntegral = true) : mostOpen v.pretty = v.depth := by
  have := mostOpenFrom_chars v 0 0 [] h
  rw [List.append_nil] at this
  rw [mostOpen, Json.pretty, String.toList_ofList, this]
  simp [mostOpenFrom]

/-- Brackets between quotes do not count. -/
example : mostOpen (Json.pretty (.array [.array [], .string "[\"["])) = 2 := by decide +kernel

end Values

/-! ## Snapshots -/

/-- **A session is restored exactly where its text keeps the limit** of a hundred and twenty-seven
brackets open at once, as long as its settings hold no doubles. -/
theorem Session.restored_within_limit {s : Session} (h : s.settings.value.isIntegral = true) :
    parse s.text = if mostOpen s.text ≤ 127 then .ok s else .error .json := by
  have hcount : mostOpen s.text = s.toJson.depth := mostOpen_pretty (isIntegral_toJson h)
  rw [hcount]
  exact parse_text h

/-- A session with brackets, quotes and control characters wherever a text may stand. -/
def oddSession : Session where
  history := [.echo "[[\"" "..", .output "\x00\\"]
  tree := .directory "\x7b" [.file "é/\n" "]]", .directory "" [.directory "." []]]
  cwd := "gone"
  settings := .ofJson (.object [("\x1f[", .number (.integer 0xFFFFFFFFFFFFFFFF)),
    ("", .array [.null, .number (.integer (-0x8000000000000000))])])

theorem restored_within_limit_oddSession :
    oddSession.settings.value.isIntegral = true ∧ mostOpen oddSession.text = 7 ∧
      Session.parse oddSession.text = .ok oddSession := by
  have h : oddSession.settings.value.isIntegral = true := by decide +kernel
  have hopen : mostOpen oddSession.text = 7 :=
    (mostOpen_pretty (Session.isIntegral_toJson h)).trans (by decide +kernel)
  exact ⟨h, hopen, (Session.restored_within_limit h).trans (if_pos (by omega))⟩

end MemoryShell
