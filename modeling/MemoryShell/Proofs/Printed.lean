import Mathlib.Data.Option.Basic
import MemoryShell.Json.Doc
import MemoryShell.Json.Printer

/-!
# What is printed reads back

Doubles are left aside: in the values considered here every number is an integer of 64 bits.
Headlines:

* `Quoted.scan_flatMap_escape`: any text between quotes;
* `Doc.scan?_chars`: any value, whatever is written behind it;
* `Doc.parse?_pretty`: the printed text of any value is read as its document;
* `Doc.value?_toDoc`: this is the value again exactly where its brackets fit the limit.
-/

namespace MemoryShell

/-! ## Quoted texts -/

namespace Quoted

theorem hexNumber?_hexPair : ∀ n < 0x20, hexNumber? ('0' :: '0' :: hexPair n) = some n := by
  decide

theorem decode_unit_cons {n : Nat} (h : n < 0xD800) (ps : List Piece) :
    decode (.unit n :: ps) = (decode ps).map (Char.ofNat n :: ·) := by
  have hl : isLead n = false := by simp [isLead]; omega
  have ht : isTrail n = false := by simp [isTrail]; omega
  cases ps <;> simp [decode, hl, ht]

theorem scan_plain {c : Char} (hquote : c ≠ '\x22') (hslash : c ≠ '\\') (hc : 0x20 ≤ c.toNat)
    (cs : List Char) :
    scan (c :: cs) = (scan cs).map fun (ps, rest) => (.char c :: ps, rest) := by
  have hscan : scan (c :: cs) = (do
      guard (0x20 ≤ c.toNat)
      let (ps, rest) ← scan cs
      return (.char c :: ps, rest)) := by
    rw [scan]
    · exact hquote
    · rintro _ _ _ _ _ rfl
      exact absurd rfl hslash
    · rintro _ _ rfl
      exact absurd rfl hslash
  have hguard : (guard (0x20 ≤ c.toNat) : Option Unit) = some () := if_pos hc
  rw [hscan, hguard]
  cases scan cs <;> rfl

theorem scan_letter {e c : Char} (hu : e ≠ 'u') (h : ofLetter? e = some c) (cs : List Char) :
    scan ('\\' :: e :: cs) = (scan cs).map fun (ps, rest) => (.char c :: ps, rest) := by
  have hscan : scan ('\\' :: e :: cs) = (do
      let c ← ofLetter? e
      let (ps, rest) ← scan cs
      return (.char c :: ps, rest)) := by
    rw [scan]
    rintro a b c d ds rfl
    exact absurd rfl hu
  rw [hscan, h]
  cases scan cs <;> rfl

/-- The writing of a character is one piece, which denotes the character. -/
theorem exists_piece (c : Char) :
    ∃ p, (∀ cs, scan (escape c ++ cs) = (scan cs).map fun (ps, rest) => (p :: ps, rest)) ∧
      ∀ ps, decode (p :: ps) = (decode ps).map (c :: ·) := by
  unfold escape
  split
  case h_8 hquote hslash _ _ _ _ _ =>
    split
    · rename_i hc
      refine ⟨.unit c.toNat, fun cs => ?_, fun ps => ?_⟩
      · have hn := hexNumber?_hexPair c.toNat hc
        simp only [hexPair] at hn
        simp only [hexPair, List.cons_append, List.nil_append, scan, hn]
        cases scan cs <;> rfl
      · rw [decode_unit_cons (by omega), Char.ofNat_toNat]
    · rename_i hc
      exact ⟨.char c, scan_plain hquote hslash (by omega), fun ps => rfl⟩
  all_goals exact ⟨.char _, scan_letter (by decide) rfl, fun ps => rfl⟩

/-- **What is written between quotes reads back.** -/
theorem scan_flatMap_escape (text rest : List Char) :
    ∃ ps, scan (text.flatMap escape ++ '\x22' :: rest) = some (ps, rest) ∧
      decode ps = some text := by
  induction text with
  | nil => exact ⟨[], rfl, rfl⟩
  | cons c text ih =>
    obtain ⟨ps, hs, hd⟩ := ih
    obtain ⟨p, hscan, hdecode⟩ := exists_piece c
    refine ⟨p :: ps, ?_, ?_⟩
    · rw [List.flatMap_cons, List.append_assoc, hscan, hs]
      rfl
    · rw [hdecode, hd]
      rfl

theorem chars_append (text rest : List Char) :
    chars text ++ rest = '\x22' :: (text.flatMap escape ++ '\x22' :: rest) := by
  rw [chars, List.append_assoc, List.cons_append, List.cons_append, List.nil_append]

end Quoted

namespace Doc

theorem scanText?_flatMap_escape (s : String) (rest : List Char) :
    scanText? (s.toList.flatMap Quoted.escape ++ '\x22' :: rest) = some (some s, rest) := by
  obtain ⟨ps, hs, hd⟩ := Quoted.scan_flatMap_escape s.toList rest
  simp only [scanText?, hs, hd, Option.map_some, String.ofList_toList]

/-! ## Integers -/

/-- What may stand behind a printed value: nothing, or a comma or a line break first. -/
def Delimited (rest : List Char) : Prop := ∀ c ∈ rest.head?, c = ',' ∨ c = '\n'

variable {rest : List Char}

/-- Only zero is written with a zero in front. -/
theorem exists_toDigits_eq_cons (n : Nat) :
    ∃ d ds, Nat.toDigits 10 n = d :: ds ∧ d.isDigit = true ∧ (n ≠ 0 → d ≠ '0') := by
  induction n using Nat.strongRecOn with
  | ind n ih =>
    rw [Nat.toDigits_eq_if (by decide)]
    split
    · rename_i hlt
      exact ⟨n.digitChar, [], rfl, by simpa [Nat.isDigit_digitChar] using hlt, by simp⟩
    · obtain ⟨d, ds, he, hdigit, hzero⟩ := ih (n / 10) (by omega)
      refine ⟨d, ds ++ [(n % 10).digitChar], ?_, hdigit, fun _ => hzero (by omega)⟩
      rw [he, List.cons_append]

/-- An integer begins with its sign or a digit. -/
theorem exists_integerChars_eq_cons (n : Int) :
    ∃ c cs, Number.integerChars n = c :: cs ∧ (c = '-' ∨ c.isDigit = true) := by
  cases n with
  | negSucc n => exact ⟨'-', _, rfl, Or.inl rfl⟩
  | ofNat n =>
    obtain ⟨d, ds, he, hd, -⟩ := exists_toDigits_eq_cons n
    exact ⟨d, ds, he, Or.inr hd⟩

theorem isDigit_of_mem_toDigits {n : Nat} : ∀ c ∈ Nat.toDigits 10 n, c.isDigit = true :=
  fun _ => Nat.isDigit_of_mem_toDigits (by decide) (by decide)

theorem scanDigits?_append {ds : List Char} (hne : ds ≠ []) (hd : ∀ c ∈ ds, c.isDigit = true)
    (hr : Delimited rest) : scanDigits? (ds ++ rest) = some (ds, rest) := by
  have hstop : rest.takeWhile Char.isDigit = [] ∧ rest.dropWhile Char.isDigit = rest := by
    cases rest with
    | nil => exact ⟨rfl, rfl⟩
    | cons c cs => rcases hr c rfl with rfl | rfl <;> exact ⟨rfl, rfl⟩
  rw [scanDigits?, List.takeWhile_append_of_pos hd, List.dropWhile_append_of_pos hd, hstop.1,
    hstop.2, List.append_nil]
  cases ds with
  | nil => exact absurd rfl hne
  | cons d ds => rfl

theorem scanWhole?_toDigits (n : Nat) (hr : Delimited rest) :
    scanWhole? (Nat.toDigits 10 n ++ rest) = some (Nat.toDigits 10 n, rest) := by
  by_cases hn : n = 0
  · subst hn
    rw [Nat.toDigits_zero]
    rfl
  · have hscan := scanDigits?_append Nat.toDigits_ne_nil (isDigit_of_mem_toDigits (n := n)) hr
    obtain ⟨d, ds, he, -, hd⟩ := exists_toDigits_eq_cons n
    rw [he, List.cons_append] at hscan ⊢
    rw [scanWhole?, hscan]
    intro cs h
    exact absurd (List.cons.inj h).1 (hd hn)

theorem scanMagnitude?_toDigits (negative : Bool) (n : Nat) (hr : Delimited rest) :
    scanMagnitude? negative (Nat.toDigits 10 n ++ rest) =
      some (⟨negative, Nat.toDigits 10 n, [], none⟩, rest) := by
  simp only [scanMagnitude?, scanWhole?_toDigits n hr]
  cases rest with
  | nil => rfl
  | cons c cs => rcases hr c rfl with rfl | rfl <;> rfl

theorem ofLiteral?_toDigits {negative : Bool} {n : Nat} (hz : negative = true → n ≠ 0)
    (hn : Number.inRange (if negative then -n else n) = true) :
    Number.ofLiteral? ⟨negative, Nat.toDigits 10 n, [], none⟩ =
      some (.integer (if negative then -n else n)) := by
  have hzero : (negative && (if negative then (-n : Int) else n) == 0) = false := by
    cases negative with
    | false => rfl
    | true => simpa using hz rfl
  simp only [Number.ofLiteral?, Nat.ofDigitChars_ten_toDigits, hn, hzero, List.isEmpty_nil,
    Option.isNone_none, Bool.and_self, Bool.not_false, if_true]

theorem scanNumber?_integerChars {n : Int} (hn : Number.inRange n = true) (hr : Delimited rest) :
    ∃ l, scanNumber? (Number.integerChars n ++ rest) = some (l, rest) ∧
      Number.ofLiteral? l = some (.integer n) := by
  cases n with
  | ofNat n =>
    refine ⟨⟨false, Nat.toDigits 10 n, [], none⟩, ?_, ofLiteral?_toDigits (by simp) hn⟩
    rw [Number.integerChars, ← scanMagnitude?_toDigits false n hr]
    obtain ⟨d, ds, he, hd, -⟩ := exists_toDigits_eq_cons n
    rw [he, List.cons_append, scanNumber?]
    rintro cs h
    obtain rfl := (List.cons.inj h).1
    exact absurd hd (by decide)
  | negSucc n =>
    exact ⟨⟨true, Nat.toDigits 10 (n + 1), [], none⟩, scanMagnitude?_toDigits true (n + 1) hr,
      ofLiteral?_toDigits (fun _ => Nat.succ_ne_zero n) hn⟩

end Doc

/-! ## Values and their documents -/

namespace Json

mutual

/-- Whether every number in a value is an integer of 64 bits. -/
def isIntegral : Json → Bool
  | number (.integer n) => Number.inRange n
  | number (.double _) => false
  | array items => areIntegral items
  | object members => haveIntegralValues members
  | _ => true

/-- Whether all values of a list are integral. -/
def areIntegral : List Json → Bool
  | [] => true
  | v :: vs => v.isIntegral && areIntegral vs

/-- Whether all members of a list have integral values. -/
def haveIntegralValues : List (String × Json) → Bool
  | [] => true
  | (_, v) :: ms => v.isIntegral && haveIntegralValues ms

end

mutual

/-- The document that a value is read from. -/
def toDoc : Json → Doc
  | null => .null
  | bool b => .bool b
  | number n => .number (some n)
  | string s => .string (some s)
  | array items => .array (itemsToDoc items)
  | object members => .object (membersToDoc members)

/-- The documents of a list of values. -/
def itemsToDoc : List Json → List Doc
  | [] => []
  | v :: vs => v.toDoc :: itemsToDoc vs

/-- The members of a document, for those of a value. -/
def membersToDoc : List (String × Json) → List (Option String × Doc)
  | [] => []
  | (k, v) :: ms => (some k, v.toDoc) :: membersToDoc ms

end

mutual

/-- How many brackets of a value are open at once. -/
def depth : Json → Nat
  | array items => itemsDepth items + 1
  | object members => membersDepth members + 1
  | _ => 0

/-- How many brackets are open at once in some value of a list. -/
def itemsDepth : List Json → Nat
  | [] => 0
  | v :: vs => max v.depth (itemsDepth vs)

/-- How many brackets are open at once in the value of some member. -/
def membersDepth : List (String × Json) → Nat
  | [] => 0
  | (_, v) :: ms => max v.depth (membersDepth ms)

end

end Json

/-! ## Where values begin and end -/

namespace Doc

open Json (newline itemChars memberChars areIntegral haveIntegralValues itemsToDoc membersToDoc
  itemsDepth membersDepth)

variable {rest : List Char}

theorem skipSpace_cons {c : Char} (h : isSpace c = false) (cs : List Char) :
    skipSpace (c :: cs) = c :: cs := by
  rw [skipSpace, List.dropWhile_cons_of_neg (by simp [h])]

theorem skipSpace_newline (depth : Nat) (cs : List Char) :
    skipSpace (newline depth ++ cs) = skipSpace cs := by
  have hsp : ∀ c ∈ newline depth, isSpace c = true := by
    intro c hc
    rcases List.mem_cons.mp hc with rfl | hc
    · decide
    · rw [List.eq_of_mem_replicate hc]
      decide
  exact List.dropWhile_append_of_pos hsp

theorem exists_chars_eq_cons {v : Json} (h : v.isIntegral = true) (depth : Nat) :
    ∃ c cs, v.chars depth = c :: cs ∧ isSpace c = false ∧ c ≠ ']' := by
  cases v with
  | null => exact ⟨_, _, rfl, by decide⟩
  | bool b => cases b <;> exact ⟨_, _, rfl, by decide⟩
  | string s => exact ⟨_, _, rfl, by decide⟩
  | array items => cases items <;> exact ⟨_, _, rfl, by decide⟩
  | object members => cases members <;> exact ⟨_, _, rfl, by decide⟩
  | number n =>
    cases n with
    | double x => simp [Json.isIntegral] at h
    | integer n =>
      obtain ⟨c, cs, he, hc⟩ := exists_integerChars_eq_cons n
      refine ⟨c, cs, he, ?_, ?_⟩
      · refine Bool.eq_false_iff.mpr fun hsp => ?_
        simp only [isSpace, Bool.or_eq_true, beq_iff_eq] at hsp
        rcases hsp with ((rfl | rfl) | rfl) | rfl <;> revert hc <;> decide
      · rintro rfl
        revert hc
        decide

theorem skipSpace_chars {v : Json} (h : v.isIntegral = true) (depth : Nat) (cs : List Char) :
    skipSpace (v.chars depth ++ cs) = v.chars depth ++ cs := by
  obtain ⟨c, tail, he, hc, -⟩ := exists_chars_eq_cons h depth
  rw [he, List.cons_append, skipSpace_cons hc]

theorem skipSpace_blank (cs : List Char) : skipSpace (' ' :: cs) = skipSpace cs := rfl

theorem skipSpace_comma (cs : List Char) : skipSpace (',' :: cs) = ',' :: cs := rfl

theorem skipSpace_colon (cs : List Char) : skipSpace (':' :: cs) = ':' :: cs := rfl

theorem skipSpace_key (k cs : List Char) :
    skipSpace (Quoted.chars k ++ cs) = Quoted.chars k ++ cs := rfl

theorem delimited_itemChars (depth : Nat) (vs : List Json) (rest : List Char) :
    Delimited (itemChars depth vs ++ rest) := by
  cases vs <;> simp [itemChars, newline, Delimited]

theorem delimited_memberChars (depth : Nat) (ms : List (String × Json)) (rest : List Char) :
    Delimited (memberChars depth ms ++ rest) := by
  rcases ms with - | ⟨⟨k, v⟩, ms⟩ <;> simp [memberChars, newline, Delimited]

/-! ## Values -/

theorem scan?_integerChars {n : Int} (fuel : Nat) (hn : Number.inRange n = true)
    (hr : Delimited rest) :
    scan? (fuel + 1) (Number.integerChars n ++ rest) =
      some (number (some (.integer n)), rest) := by
  obtain ⟨l, hl, hval⟩ := scanNumber?_integerChars hn hr
  obtain ⟨c, cs, he, hc⟩ := exists_integerChars_eq_cons n
  rw [he, List.cons_append] at hl ⊢
  rw [scan?, hl]
  · simp only [Option.map_some, hval]
  all_goals
    rintro cs h
    obtain rfl := (List.cons.inj h).1
    revert hc
    decide

theorem scan?_items (fuel : Nat) {cs : List Char} (h : ∀ tail, skipSpace cs ≠ ']' :: tail) :
    scan? (fuel + 1) ('[' :: cs) =
      (scanItems? fuel (skipSpace cs)).map fun (items, rest) => (array items, rest) := by
  rw [scan?]
  split
  · rename_i h'
    exact absurd h' (h _)
  · rfl

theorem scan?_members (fuel : Nat) {cs : List Char} (h : ∀ tail, skipSpace cs ≠ '\x7d' :: tail) :
    scan? (fuel + 1) ('\x7b' :: cs) =
      (scanMembers? fuel (skipSpace cs)).map fun (members, rest) => (object members, rest) := by
  rw [scan?]
  split
  · rename_i h'
    exact absurd h' (h _)
  · rfl

mutual

/-- **A printed value is scanned as its document**, and what is written behind it is left. One
step for each character is enough. -/
theorem scan?_chars : (v : Json) → (depth fuel : Nat) → (rest : List Char) →
    v.isIntegral = true → Delimited rest → (v.chars depth).length ≤ fuel →
      scan? fuel (v.chars depth ++ rest) = some (v.toDoc, rest)
  | v, depth, 0, rest, hv, _, hf => by
    obtain ⟨c, cs, he, -⟩ := exists_chars_eq_cons hv depth
    rw [he] at hf
    cases hf
  | .null, _, fuel + 1, rest, _, _, _ => rfl
  | .bool true, _, fuel + 1, rest, _, _, _ => rfl
  | .bool false, _, fuel + 1, rest, _, _, _ => rfl
  | .number (.integer n), _, fuel + 1, rest, hv, hr, _ => scan?_integerChars fuel hv hr
  | .string s, _, fuel + 1, rest, _, _, _ => by
    rw [Json.chars, Quoted.chars_append, scan?, scanText?_flatMap_escape]
    rfl
  | .array [], _, fuel + 1, rest, _, _, _ => rfl
  | .array (_ :: _), _, 1, _, _, _, hf => by simp [Json.chars, newline] at hf
  | .array (v :: vs), depth, fuel + 2, rest, hv, _, hf => by
    simp only [Json.isIntegral, areIntegral, Bool.and_eq_true] at hv
    simp only [Json.chars, newline, List.length_cons, List.length_append] at hf
    have hitems := scanItems?_chars v vs depth fuel rest hv.1 hv.2 (by omega)
    simp only [Json.chars, List.cons_append, List.append_assoc]
    rw [scan?_items, skipSpace_newline, skipSpace_chars hv.1, hitems]
    · rfl
    · intro tail h
      obtain ⟨c, cs, he, -, hc⟩ := exists_chars_eq_cons hv.1 (depth + 1)
      rw [skipSpace_newline, skipSpace_chars hv.1, he] at h
      exact hc (List.cons.inj h).1
  | .object [], _, fuel + 1, rest, _, _, _ => rfl
  | .object ((_, _) :: _), _, 1, _, _, _, hf => by simp [Json.chars, newline] at hf
  | .object ((k, v) :: ms), depth, fuel + 2, rest, hv, _, hf => by
    simp only [Json.isIntegral, haveIntegralValues, Bool.and_eq_true] at hv
    simp only [Json.chars, newline, Quoted.chars, List.length_cons, List.length_append] at hf
    have hmembers := scanMembers?_chars k v ms depth fuel rest hv.1 hv.2 (by omega)
    simp only [Json.chars, List.cons_append, List.append_assoc]
    rw [scan?_members, skipSpace_newline, skipSpace_key, hmembers]
    · rfl
    · intro tail h
      rw [skipSpace_newline, skipSpace_key] at h
      cases h
termination_by v => sizeOf v

theorem scanItems?_chars : (v : Json) → (vs : List Json) → (depth fuel : Nat) →
    (rest : List Char) → v.isIntegral = true → areIntegral vs = true →
      (v.chars (depth + 1)).length + (itemChars depth vs).length ≤ fuel →
        scanItems? (fuel + 1) (v.chars (depth + 1) ++ (itemChars depth vs ++ rest)) =
          some (v.toDoc :: itemsToDoc vs, rest)
  | v, [], depth, fuel, rest, hv, _, hf => by
    have hscan := scan?_chars v (depth + 1) fuel (itemChars depth [] ++ rest) hv
      (delimited_itemChars depth [] rest) (by omega)
    simp only [scanItems?, hscan, Option.bind_eq_bind, Option.bind_some]
    rw [itemChars, List.append_assoc, skipSpace_newline]
    rfl
  | _, _ :: _, _, 0, _, _, _, hf => by simp [itemChars] at hf
  | v, w :: ws, depth, fuel + 1, rest, hv, hvs, hf => by
    have hscan := scan?_chars v (depth + 1) (fuel + 1) (itemChars depth (w :: ws) ++ rest) hv
      (delimited_itemChars depth (w :: ws) rest) (by omega)
    simp only [areIntegral, Bool.and_eq_true] at hvs
    simp only [itemChars, newline, List.length_cons, List.length_append] at hf
    have hitems := scanItems?_chars w ws depth fuel rest hvs.1 hvs.2 (by omega)
    rw [scanItems?, hscan]
    simp only [Option.bind_eq_bind, Option.bind_some, itemChars, List.cons_append,
      List.append_assoc, skipSpace_comma, skipSpace_newline, skipSpace_chars hvs.1, hitems]
    rfl
termination_by v vs => 1 + sizeOf v + sizeOf vs

theorem scanMembers?_chars : (k : String) → (v : Json) → (ms : List (String × Json)) →
    (depth fuel : Nat) → (rest : List Char) → v.isIntegral = true →
      haveIntegralValues ms = true →
        (v.chars (depth + 1)).length + (memberChars depth ms).length ≤ fuel →
          scanMembers? (fuel + 1) (Quoted.chars k.toList ++ ':' :: ' ' ::
            (v.chars (depth + 1) ++ (memberChars depth ms ++ rest))) =
              some ((some k, v.toDoc) :: membersToDoc ms, rest)
  | k, v, [], depth, fuel, rest, hv, _, hf => by
    have hscan := scan?_chars v (depth + 1) fuel (memberChars depth [] ++ rest) hv
      (delimited_memberChars depth [] rest) (by omega)
    rw [Quoted.chars_append]
    simp only [scanMembers?, scanText?_flatMap_escape, Option.bind_eq_bind, Option.bind_some,
      skipSpace_colon, skipSpace_blank, skipSpace_chars hv, hscan]
    rw [memberChars, List.append_assoc, skipSpace_newline]
    rfl
  | _, _, _ :: _, _, 0, _, _, _, hf => by simp [memberChars] at hf
  | k, v, (l, w) :: ms, depth, fuel + 1, rest, hv, hms, hf => by
    have hscan := scan?_chars v (depth + 1) (fuel + 1) (memberChars depth ((l, w) :: ms) ++ rest)
      hv (delimited_memberChars depth ((l, w) :: ms) rest) (by omega)
    simp only [haveIntegralValues, Bool.and_eq_true] at hms
    simp only [memberChars, newline, List.length_cons, List.length_append] at hf
    have hmembers := scanMembers?_chars l w ms depth fuel rest hms.1 hms.2 (by omega)
    rw [Quoted.chars_append, scanMembers?, scanText?_flatMap_escape]
    simp only [Option.bind_eq_bind, Option.bind_some, skipSpace_colon, skipSpace_blank,
      skipSpace_chars hv, hscan]
    simp only [memberChars, List.cons_append, List.append_assoc, skipSpace_comma,
      skipSpace_newline, skipSpace_key, hmembers]
    rfl
termination_by _ v ms => 1 + sizeOf v + sizeOf ms

end

/-- **The text of a value is read as its document.** -/
theorem parse?_pretty {v : Json} (h : v.isIntegral = true) : parse? v.pretty = some v.toDoc := by
  have hskip := skipSpace_chars h 0 []
  have hscan := scan?_chars v 0 (2 * (v.chars 0).length + 2) [] h (by simp [Delimited]) (by omega)
  rw [List.append_nil] at hskip hscan
  simp only [parse?, Json.pretty, String.toList_ofList, String.length_ofList, hskip, hscan]
  rfl

mutual

/-- **The value of a document is had exactly where its brackets fit the limit.** -/
theorem value?_toDoc : (v : Json) → (limit : Nat) →
    v.toDoc.value? limit = if v.depth ≤ limit then some v else none
  | .null, _ | .bool _, _ | .number _, _ | .string _, _ => by
    simp [Json.toDoc, value?, Json.depth]
  | .array items, 0 => by simp [Json.toDoc, value?, Json.depth]
  | .object members, 0 => by simp [Json.toDoc, value?, Json.depth]
  | .array items, limit + 1 => by
    simp only [Json.toDoc, value?, Json.depth, itemValues?_itemsToDoc, Nat.add_le_add_iff_right]
    split <;> rfl
  | .object members, limit + 1 => by
    simp only [Json.toDoc, value?, Json.depth, memberValues?_membersToDoc,
      Nat.add_le_add_iff_right]
    split <;> rfl

theorem itemValues?_itemsToDoc : (vs : List Json) → (limit : Nat) →
    itemValues? limit (itemsToDoc vs) = if itemsDepth vs ≤ limit then some vs else none
  | [], _ => by simp [itemsToDoc, itemValues?, itemsDepth]
  | v :: vs, limit => by
    simp only [itemsToDoc, itemValues?, itemsDepth, value?_toDoc v, itemValues?_itemsToDoc vs,
      Nat.max_le]
    by_cases hv : v.depth ≤ limit <;> by_cases hvs : itemsDepth vs ≤ limit <;> simp [hv, hvs]

theorem memberValues?_membersToDoc : (ms : List (String × Json)) → (limit : Nat) →
    memberValues? limit (membersToDoc ms) = if membersDepth ms ≤ limit then some ms else none
  | [], _ => by simp [membersToDoc, memberValues?, membersDepth]
  | (k, v) :: ms, limit => by
    simp only [membersToDoc, memberValues?, membersDepth, value?_toDoc v,
      memberValues?_membersToDoc ms, Nat.max_le]
    by_cases hv : v.depth ≤ limit <;> by_cases hms : membersDepth ms ≤ limit <;> simp [hv, hms]

end

end Doc

end MemoryShell
