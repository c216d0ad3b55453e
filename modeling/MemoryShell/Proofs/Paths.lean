import Mathlib.Data.List.TakeWhile
import MemoryShell.Proofs.Words
import MemoryShell.Tree.Path

/-!
# Paths as lists of names

A path text and the names between its slashes determine each other, as long as the names are
pieces: not empty, and without a slash. Headlines:

* `segments_ofNames`: the names of the path that spells some pieces are these pieces;
* `normalize_eq_ofNames`: the canonical spelling of any path spells its names;
* `isNormal_iff`: the test for normal form holds of exactly the paths so spelled;
* `isWithin_ofNames_iff`: comparing texts by their beginnings compares lists of names;
* `splitParent_ofNames`: cutting at the last slash takes off the last name.
-/

namespace MemoryShell.Path

/-! ## Pieces -/

/-- A text that may stand between two slashes. -/
def IsPiece (name : String) : Prop := name ≠ "" ∧ '/' ∉ name.toList

theorem isValidName_iff {name : String} :
    isValidName name = true ↔ IsPiece name ∧ name ≠ "." ∧ name ≠ ".." := by
  simp only [isValidName, IsPiece, Bool.and_eq_true, bne_iff_ne, Bool.not_eq_true',
    List.contains_eq_mem, decide_eq_false_iff_not]
  exact ⟨fun ⟨⟨⟨hne, hdot⟩, hup⟩, hs⟩ => ⟨⟨hne, hs⟩, hdot, hup⟩,
    fun ⟨⟨hne, hs⟩, hdot, hup⟩ => ⟨⟨⟨hne, hdot⟩, hup⟩, hs⟩⟩

/-- A valid name is a piece. -/
theorem IsPiece.of_isValidName {name : String} (h : isValidName name = true) : IsPiece name :=
  (isValidName_iff.mp h).1

theorem pieces_of_valid {names : List String} (h : ∀ n ∈ names, isValidName n = true) :
    ∀ n ∈ names, IsPiece n := fun n hn => .of_isValidName (h n hn)

theorem valid_append {names : List String} {leaf : String}
    (h : ∀ n ∈ names, isValidName n = true) (hleaf : isValidName leaf = true) :
    ∀ n ∈ names ++ [leaf], isValidName n = true := fun n hn => by
  rcases List.mem_append.mp hn with hn | hn
  · exact h n hn
  · exact List.mem_singleton.mp hn ▸ hleaf

theorem valid_of_append {names : List String} {leaf : String}
    (h : ∀ n ∈ names ++ [leaf], isValidName n = true) :
    (∀ n ∈ names, isValidName n = true) ∧ isValidName leaf = true :=
  ⟨fun n hn => h n (List.mem_append_left _ hn),
    h leaf (List.mem_append_right _ (List.mem_singleton_self leaf))⟩

theorem not_mem_of_mem_splitOn {a : Char} {w cs : List Char} (h : w ∈ cs.splitOn a) : a ∉ w := by
  rw [List.splitOn_eq_splitOnP] at h
  intro ha
  simpa using Text.not_of_mem_splitOnP h a ha

theorem isPiece_of_mem_segments {name path : String} (h : name ∈ segments path) :
    IsPiece name := by
  obtain ⟨w, hw, rfl⟩ := List.mem_map.mp h
  obtain ⟨hmem, hne⟩ := List.mem_filter.mp hw
  refine ⟨fun he => ?_, by simpa using not_mem_of_mem_splitOn hmem⟩
  have : w = [] := by simpa using congrArg String.toList he
  simp [this] at hne

/-! ## Names of a text -/

theorem segments_empty : segments "" = [] := by simp [segments]

/-- A slash between two texts separates their names. -/
theorem segments_append (a b : String) : segments (a ++ "/" ++ b) = segments a ++ segments b := by
  have h : (a ++ "/" ++ b).toList = a.toList ++ '/' :: b.toList := by simp
  unfold segments
  rw [h, List.splitOn_append_cons_self, List.filter_append, List.map_append]

theorem segments_slash (path : String) : segments ("/" ++ path) = segments path := by
  have h := segments_append "" path
  rwa [segments_empty, List.nil_append, String.empty_append] at h

theorem segments_of_isPiece {name : String} (h : IsPiece name) : segments name = [name] := by
  unfold segments
  rw [List.splitOn_eq_singleton h.2]
  simp [h.1]

theorem segments_intercalate {names : List String} (h : ∀ n ∈ names, IsPiece n) :
    segments ("/".intercalate names) = names := by
  induction names with
  | nil => exact segments_empty
  | cons n ns ih =>
    have hn := segments_of_isPiece (h n List.mem_cons_self)
    cases ns with
    | nil => simpa using hn
    | cons m ms =>
      rw [String.intercalate_cons_of_ne_nil (by simp), segments_append, hn,
        ih fun k hk => h k (List.mem_cons_of_mem n hk)]
      rfl

/-- **The names of a spelled path are the names it spells.** -/
theorem segments_ofNames {names : List String} (h : ∀ n ∈ names, IsPiece n) :
    segments (ofNames names) = names := by
  rw [ofNames, segments_slash, segments_intercalate h]

theorem ofNames_inj {xs ys : List String} (hx : ∀ n ∈ xs, IsPiece n) (hy : ∀ n ∈ ys, IsPiece n)
    (h : ofNames xs = ofNames ys) : xs = ys := by
  rw [← segments_ofNames hx, h, segments_ofNames hy]

theorem ofNames_nil : ofNames [] = "/" := by simp [ofNames]

/-- The slash in front of a further name is the one that spelling the first names begins with. -/
theorem ofNames_append {xs ys : List String} (hy : ys ≠ []) :
    ofNames (xs ++ ys) = (if xs = [] then "" else ofNames xs) ++ "/" ++ "/".intercalate ys := by
  split
  · rename_i hx
    simp [hx, ofNames]
  · rename_i hx
    simp [ofNames, String.intercalate_append_of_ne_nil hx hy, String.append_assoc]

theorem isAbsolute_ofNames (names : List String) : isAbsolute (ofNames names) = true := by
  simp [isAbsolute, ofNames]

/-! ## Canonical spelling -/

/-- What squeezing leaves of pieces of text that each have a slash in front: the empty ones
vanish, though the last one keeps its slash. -/
def slashed : List (List Char) → List Char
  | [] => []
  | [[]] => ['/']
  | [] :: w :: ws => slashed (w :: ws)
  | (c :: w) :: ws => '/' :: c :: w ++ slashed ws

/-- Squeezing a text keeps what stands before its first slash. -/
theorem squeeze_eq_append_slashed (cs : List Char) :
    squeeze cs = (cs.splitOn '/').headD [] ++ slashed (cs.splitOn '/').tail := by
  fun_induction squeeze cs with
  | case1 => rfl
  | case2 cs ih =>
    rw [ih]
    have h : ('/' :: cs).splitOn '/' = [] :: cs.splitOn '/' := by
      simp [List.splitOn_cons_eq_if_modifyHead]
    rw [List.splitOn_cons_eq_if_modifyHead ('/' : Char) ('/' :: cs), h]
    cases hs : cs.splitOn '/' with
    | nil => exact absurd hs (List.splitOn_ne_nil _ cs)
    | cons w ws => simp [slashed]
  | case3 c cs hne ih =>
    rw [ih, List.splitOn_cons_eq_if_modifyHead]
    cases hs : cs.splitOn '/' with
    | nil => exact absurd hs (List.splitOn_ne_nil _ cs)
    | cons w ws =>
      by_cases hc : c = '/'
      · subst hc
        cases w with
        | nil =>
          -- the text behind this slash is empty, for it begins with no second slash
          cases cs with
          | nil =>
            obtain ⟨-, rfl⟩ := by simpa using hs
            rfl
          | cons d ds =>
            have hd : d ≠ '/' := by rintro rfl; exact hne ds rfl rfl
            rw [List.splitOn_cons_eq_if_modifyHead] at hs
            cases h : ds.splitOn '/' with
            | nil => exact absurd h (List.splitOn_ne_nil _ ds)
            | cons v vs => simp [h, hd] at hs
        | cons d ds => simp [slashed]
      · simp [hc]

/-- The names among some pieces of text, each behind a slash. -/
theorem slashed_eq (ws : List (List Char)) :
    slashed ws = (ws.filter fun w => !w.isEmpty).flatMap ('/' :: ·) ++
      if ws.getLast? = some [] then ['/'] else [] := by
  fun_induction slashed ws with
  | case1 => rfl
  | case2 => rfl
  | case3 w ws ih => rw [ih]; simp
  | case4 c w ws ih =>
    rw [ih]
    cases ws <;> simp

theorem toList_ofNames (ws : List (List Char)) :
    (ofNames (ws.map String.ofList)).toList =
      if ws = [] then ['/'] else ws.flatMap ('/' :: ·) := by
  induction ws with
  | nil => simp [ofNames]
  | cons w ws ih =>
    cases ws with
    | nil => simp [ofNames]
    | cons v vs =>
      rw [List.map_cons, ← List.singleton_append, ofNames_append (by simp)]
      simp [ofNames] at ih ⊢
      exact ih

theorem dropFinalSlash_append {cs : List Char} (h : cs ≠ []) :
    dropFinalSlash (cs ++ ['/']) = cs := by
  have := List.length_pos_iff.mpr h
  rw [dropFinalSlash, if_pos ⟨by simp; omega, by simp⟩, List.dropLast_concat]

theorem dropFinalSlash_of_getLast? {cs : List Char} (h : cs.getLast? ≠ some '/') :
    dropFinalSlash cs = cs := by
  rw [dropFinalSlash, if_neg fun hc => h hc.2]

theorem dropFinalSlash_slashed {ws : List (List Char)} (hne : ws ≠ []) (hs : ∀ w ∈ ws, '/' ∉ w) :
    dropFinalSlash (slashed ws) =
      (ofNames ((ws.filter fun w => !w.isEmpty).map String.ofList)).toList := by
  rw [toList_ofNames, slashed_eq]
  obtain rfl | ⟨init, w, rfl⟩ := List.eq_nil_or_concat ws
  · exact absurd rfl hne
  rw [List.concat_eq_append] at hs ⊢
  cases w with
  | nil =>
    -- only the slash behind the last name is dropped, and a lone slash stays
    simp only [List.filter_append, List.filter_cons, List.filter_nil, List.isEmpty_nil,
      Bool.not_true, Bool.false_eq_true, if_false, List.append_nil, List.getLast?_append,
      List.getLast?_singleton, Option.some_or, if_true]
    split
    · rename_i h
      simp [h, dropFinalSlash]
    · rename_i h
      refine dropFinalSlash_append ?_
      obtain ⟨v, vs, hv⟩ := List.exists_cons_of_ne_nil h
      simp [hv]
  | cons c cs =>
    have hlast : (c :: cs).getLast? ≠ some '/' := fun h =>
      hs (c :: cs) (by simp) (List.mem_of_getLast? h)
    simp only [List.filter_append, List.getLast?_append]
    rw [dropFinalSlash_of_getLast?]
    · simp
    · simpa [List.getLast?_append, List.getLast?_cons_cons] using hlast

/-- A text without empty names has nothing to squeeze, nor a slash to drop. -/
theorem squeeze_of_noEmptyName {cs : List Char} (h : noEmptyName cs = true) : squeeze cs = cs := by
  fun_induction noEmptyName cs with
  | case1 => rfl
  | case2 => simp at h
  | case3 => simp at h
  | case4 c cs h1 h2 ih =>
    rw [squeeze.eq_def]
    split
    · rename_i he; cases he
    · rename_i ds he; cases he; exact absurd rfl (h2 ds rfl)
    · rename_i he; cases he; rw [ih h]

theorem getLast?_of_noEmptyName {cs : List Char} (h : noEmptyName cs = true) :
    cs.getLast? ≠ some '/' := by
  fun_induction noEmptyName cs with
  | case1 => simp
  | case2 => simp at h
  | case3 => simp at h
  | case4 c cs h1 h2 ih =>
    cases cs with
    | nil => intro he; exact h1 (by simpa using he) rfl
    | cons d ds => rw [List.getLast?_cons_cons]; exact ih h

/-- A text in normal form comes out of squeezing as it went in. -/
theorem toList_normalize (path : String) :
    (normalize path).toList = dropFinalSlash (squeeze
      (if path.toList.head? = some '/' then path.toList else '/' :: path.toList)) := by
  by_cases h : isNormal path.toList = true
  · simp only [normalize, if_pos h]
    rcases (Bool.or_eq_true _ _).mp h with h | h
    · rw [show path.toList = ['/'] by simpa using h]
      rfl
    · obtain ⟨hhead, hne⟩ := (Bool.and_eq_true _ _).mp h
      rw [if_pos (by simpa using hhead), squeeze_of_noEmptyName hne,
        dropFinalSlash_of_getLast? (getLast?_of_noEmptyName hne)]
  · simp only [normalize, if_neg h, String.toList_ofList]

/-- **The canonical spelling of a path spells its names.** -/
theorem normalize_eq_ofNames (path : String) : normalize path = ofNames (segments path) := by
  have hrooted (cs : List Char) : dropFinalSlash (squeeze ('/' :: cs)) =
      (ofNames (((cs.splitOn '/').filter fun w => !w.isEmpty).map String.ofList)).toList := by
    rw [squeeze_eq_append_slashed, List.splitOn_cons_eq_if_modifyHead]
    exact dropFinalSlash_slashed (List.splitOn_ne_nil _ cs) fun w hw => not_mem_of_mem_splitOn hw
  apply String.toList_inj.mp
  rw [toList_normalize]
  split
  · rename_i h
    obtain ⟨cs, hcs⟩ : ∃ cs, path.toList = '/' :: cs := List.head?_eq_some_iff.mp h
    have hsegs : segments path = segments (String.ofList cs) := by
      rw [← segments_slash (String.ofList cs)]
      congr 1
      exact String.toList_inj.mp (by simpa using hcs)
    rw [hcs, hrooted, hsegs, segments, String.toList_ofList]
  · exact hrooted path.toList

/-- Canonical spelling keeps the names of a path. -/
theorem segments_normalize (path : String) : segments (normalize path) = segments path := by
  rw [normalize_eq_ofNames, segments_ofNames fun n hn => isPiece_of_mem_segments hn]

theorem noEmptyName_cons {c : Char} (h : c ≠ '/') (cs : List Char) :
    noEmptyName (c :: cs) = noEmptyName cs := by
  rw [noEmptyName.eq_def]
  split <;> simp_all

theorem noEmptyName_append {w : List Char} (h : '/' ∉ w) (cs : List Char) :
    noEmptyName (w ++ cs) = noEmptyName cs := by
  induction w with
  | nil => rfl
  | cons c w ih =>
    rw [List.mem_cons, not_or] at h
    rw [List.cons_append, noEmptyName_cons (Ne.symm h.1), ih h.2]

/-- Names that each have a slash in front leave no name empty. -/
theorem noEmptyName_flatMap {ws : List (List Char)} (h : ∀ w ∈ ws, w ≠ [] ∧ '/' ∉ w) :
    noEmptyName (ws.flatMap ('/' :: ·)) = true := by
  induction ws with
  | nil => rfl
  | cons w ws ih =>
    obtain ⟨⟨hne, hslash⟩, hws⟩ := List.forall_mem_cons.mp h
    obtain ⟨c, cs, rfl⟩ := List.exists_cons_of_ne_nil hne
    have hfirst : noEmptyName ('/' :: c :: (cs ++ ws.flatMap ('/' :: ·))) =
        noEmptyName (c :: cs ++ ws.flatMap ('/' :: ·)) := by
      rw [noEmptyName.eq_def]
      split <;> simp_all
    rw [List.flatMap_cons]
    exact hfirst.trans ((noEmptyName_append hslash _).trans (ih hws))

/-- The paths in normal form are the ones that canonical spelling keeps. -/
theorem isNormal_iff {path : String} : isNormal path.toList = true ↔ normalize path = path := by
  constructor
  · intro h
    rw [normalize, if_pos h]
  · intro h
    let ws := (path.toList.splitOn '/').filter fun w => !w.isEmpty
    have hws : ∀ w ∈ ws, w ≠ [] ∧ '/' ∉ w := by
      intro w hw
      obtain ⟨hmem, hne⟩ := List.mem_filter.mp hw
      exact ⟨by simpa using hne, not_mem_of_mem_splitOn hmem⟩
    have hpath : path.toList = if ws = [] then ['/'] else ws.flatMap ('/' :: ·) := by
      have hnames := congrArg String.toList (normalize_eq_ofNames path)
      rw [h] at hnames
      exact hnames.trans (toList_ofNames ws)
    rw [hpath]
    split
    · rfl
    · rename_i hne
      obtain ⟨v, vs, hv⟩ := List.exists_cons_of_ne_nil hne
      have hhead : (ws.flatMap ('/' :: ·)).head? = some '/' := by rw [hv]; rfl
      rw [isNormal, hhead, noEmptyName_flatMap hws]
      simp

/-! ## One path within another -/

/-- **One canonical path lies within another exactly when its names go on from those of the
other.** -/
theorem isWithin_ofNames_iff {xs ys : List String} (hx : ∀ n ∈ xs, IsPiece n)
    (hy : ∀ n ∈ ys, IsPiece n) : isWithin (ofNames xs) (ofNames ys) = true ↔ ys <+: xs := by
  simp only [isWithin, Bool.or_eq_true, beq_iff_eq, String.startsWith_string_iff]
  constructor
  · rintro ((h | h) | ⟨t, ht⟩)
    · rw [ofNames_inj hy (by simp) (h.trans ofNames_nil.symm)]
      exact List.nil_prefix
    · exact ofNames_inj hx hy h ▸ List.prefix_rfl
    · have hxs : ofNames xs = ofNames ys ++ "/" ++ String.ofList t :=
        String.toList_inj.mp (by simpa using ht.symm)
      refine ⟨segments (String.ofList t), ?_⟩
      rw [← segments_ofNames hx, hxs, segments_append, segments_ofNames hy]
  · rintro ⟨zs, rfl⟩
    by_cases hy0 : ys = []
    · exact Or.inl (Or.inl (by rw [hy0, ofNames_nil]))
    by_cases hz0 : zs = []
    · exact Or.inl (Or.inr (by rw [hz0, List.append_nil]))
    · refine Or.inr ⟨("/".intercalate zs).toList, ?_⟩
      rw [ofNames_append hz0, if_neg hy0, String.toList_append (t := "/".intercalate zs)]

/-! ## Parent and leaf -/

/-- A text without slash, or one with a last slash. -/
theorem exists_cut (path : String) :
    '/' ∉ path.toList ∨ ∃ dir leaf, '/' ∉ leaf.toList ∧ path = dir ++ "/" ++ leaf := by
  by_cases h : '/' ∈ path.toList
  · right
    obtain ⟨as, bs, hsplit, hbs⟩ := List.eq_append_cons_of_mem (List.mem_reverse.mpr h)
    refine ⟨String.ofList bs.reverse, String.ofList as.reverse, by simpa using hbs, ?_⟩
    apply String.toList_inj.mp
    rw [← List.reverse_inj, hsplit]
    simp
  · exact .inl h

theorem splitParent_of_not_mem {path : String} (h : '/' ∉ path.toList) :
    splitParent path = (none, path) := by
  have hdrop : path.toList.reverse.dropWhile (· ≠ '/') = [] := by
    rw [List.dropWhile_eq_nil_iff]
    intro c hc
    exact decide_eq_true fun he => h (he ▸ List.mem_reverse.mp hc)
  simp only [splitParent, hdrop]

/-- The last slash of a text is the one with no slash behind it. -/
theorem splitParent_append {leaf : String} (h : '/' ∉ leaf.toList) (dir : String) :
    splitParent (dir ++ "/" ++ leaf) = (some (if dir = "" then "/" else dir), leaf) := by
  have hne : ∀ c ∈ leaf.toList.reverse, decide (c ≠ '/') = true := fun c hc =>
    decide_eq_true fun he => h (by rw [← he]; exact List.mem_reverse.mp hc)
  have hrev : (dir ++ "/" ++ leaf).toList.reverse =
      leaf.toList.reverse ++ '/' :: dir.toList.reverse := by simp
  simp only [splitParent, hrev, List.takeWhile_append_of_pos hne, List.dropWhile_append_of_pos hne,
    List.takeWhile_cons, List.dropWhile_cons, ne_eq, not_true_eq_false, decide_false,
    Bool.false_eq_true, if_false, List.append_nil, List.reverse_reverse, String.ofList_toList]
  cases hd : dir.toList.reverse with
  | nil =>
    have : dir = "" := String.toList_inj.mp (by simpa using hd)
    simp [this]
  | cons c cs =>
    have : dir ≠ "" := by rintro rfl; simp at hd
    simp [this, ← hd]

theorem infix_splitParent (path : String) : (splitParent path).2.toList <:+: path.toList := by
  rcases exists_cut path with hslash | ⟨dir, leaf, hleaf, rfl⟩
  · rw [splitParent_of_not_mem hslash]
  · rw [splitParent_append hleaf, String.toList_append]
    exact (List.suffix_append _ _).isInfix

/-- **Cutting a spelled path at its last slash takes off the last name.** -/
theorem splitParent_ofNames {names : List String} {leaf : String} (h : IsPiece leaf) :
    splitParent (ofNames (names ++ [leaf])) = (some (ofNames names), leaf) := by
  rw [ofNames_append (by simp), String.intercalate_singleton, splitParent_append h.2]
  by_cases hn : names = []
  · simp [hn, ofNames_nil]
  · have hne : ofNames names ≠ "" := fun he => by simpa [ofNames] using congrArg String.toList he
    simp [hn, hne]

theorem under_ofNames {names : List String} {leaf : String} (hn : ∀ n ∈ names, IsPiece n) :
    under (ofNames names) leaf = ofNames (names ++ [leaf]) := by
  rw [ofNames_append (by simp), String.intercalate_singleton, under]
  by_cases h : names = []
  · simp [h, ofNames_nil]
  · have hne : ofNames names ≠ "/" := fun he =>
      h (ofNames_inj hn (by simp) (he.trans ofNames_nil.symm))
    simp [h, hne]

theorem segments_under (dir : String) {name : String} (h : IsPiece name) :
    segments (under dir name) = segments dir ++ [name] := by
  unfold under
  split
  · rename_i hdir
    have hroot : segments "/" = [] := by decide
    rw [segments_slash, segments_of_isPiece h, hdir, hroot, List.nil_append]
  · rw [segments_append, segments_of_isPiece h]

theorem isAbsolute_iff {path : String} : isAbsolute path = true ↔ path.toList.head? = some '/' :=
  Text.startsWith_iff_head? rfl

theorem isAbsolute_append {path : String} (h : path ≠ "") (rest : String) :
    isAbsolute (path ++ rest) = isAbsolute path := by
  rw [Bool.eq_iff_iff, isAbsolute_iff, isAbsolute_iff, Text.head?_append h]

/-- What leads to the parent of a name behind a last slash: the lone slash, if nothing is in front
of it. -/
theorem segments_parent (dir : String) :
    segments (if dir = "" then "/" else dir) = segments dir := by
  split
  · rename_i hdir
    rw [hdir]
    decide
  · rfl

theorem parent_ne_empty (dir : String) : (if dir = "" then "/" else dir) ≠ "" := by
  split
  · decide
  · assumption

theorem isAbsolute_parent (dir leaf : String) :
    isAbsolute (if dir = "" then "/" else dir) = isAbsolute (dir ++ "/" ++ leaf) := by
  rw [String.append_assoc]
  split
  · rename_i hdir
    rw [hdir, String.empty_append, isAbsolute_append (by decide)]
  · rename_i hdir
    rw [isAbsolute_append hdir]

theorem head?_under {dir : String} (h : dir ≠ "") (name : String) :
    (under dir name).toList.head? = dir.toList.head? := by
  unfold under
  split
  · rename_i hdir
    rw [hdir]
    exact Text.head?_append (by decide) name
  · rw [String.append_assoc, Text.head?_append h]

theorem mem_of_mem_under {dir name : String} {c : Char} (h : c ∈ (under dir name).toList) :
    c ∈ dir.toList ∨ c = '/' ∨ c ∈ name.toList := by
  unfold under at h
  split at h
  · have hc : c = '/' ∨ c ∈ name.toList := by simpa using h
    exact .inr hc
  · simpa [or_assoc] using h

/-- Cutting off the name again gives the directory back. -/
theorem splitParent_under {dir name : String} (hdir : dir ≠ "") (h : '/' ∉ name.toList) :
    splitParent (under dir name) = (some dir, name) := by
  unfold under
  split
  · rename_i hroot
    have hcut := splitParent_append h ""
    rw [if_pos rfl, String.empty_append] at hcut
    rw [hroot, hcut]
  · rw [splitParent_append h, if_neg hdir]

theorem isAbsolute_under {dir : String} (h : dir ≠ "") (name : String) :
    isAbsolute (under dir name) = isAbsolute dir := by
  rw [Bool.eq_iff_iff, isAbsolute_iff, isAbsolute_iff, head?_under h]

theorem isAbsolute_of_isPiece {name : String} (h : IsPiece name) : isAbsolute name = false := by
  rw [Bool.eq_false_iff, isAbsolute, ne_eq, String.startsWith_string_iff]
  intro hstart
  exact h.2 (hstart.subset List.mem_cons_self)

/-! ## Slashes at the end -/

theorem segments_append_slashes (path : String) (k : Nat) :
    segments (path ++ String.ofList (List.replicate k '/')) = segments path := by
  induction k with
  | zero => simp
  | succ k ih =>
    have h : path ++ String.ofList (List.replicate (k + 1) '/') =
        path ++ String.ofList (List.replicate k '/') ++ "/" ++ "" := by
      apply String.toList_inj.mp
      simp [List.replicate_succ']
    rw [h, segments_append, ih, segments_empty, List.append_nil]

theorem exists_dropFinalSlashes (path : String) :
    ∃ k, path = dropFinalSlashes path ++ String.ofList (List.replicate k '/') := by
  unfold dropFinalSlashes
  split
  · obtain ⟨k, hk⟩ : ∃ k, path.toList.reverse.takeWhile (· = '/') = List.replicate k '/' :=
      ⟨_, List.eq_replicate_of_mem fun c hc => by simpa using List.mem_takeWhile_imp hc⟩
    refine ⟨k, String.toList_inj.mp ?_⟩
    calc path.toList
        = (List.replicate k '/' ++ path.toList.reverse.dropWhile (· = '/')).reverse := by
          rw [← hk, List.takeWhile_append_dropWhile, List.reverse_reverse]
      _ = _ := by simp
  · exact ⟨0, by simp⟩

theorem infix_dropFinalSlashes (path : String) :
    (dropFinalSlashes path).toList <:+: path.toList := by
  obtain ⟨k, hk⟩ := exists_dropFinalSlashes path
  conv => rhs; rw [hk, String.toList_append]
  exact (List.prefix_append _ _).isInfix

/-- The slashes dropped have no names between them. -/
theorem segments_dropFinalSlashes (path : String) :
    segments (dropFinalSlashes path) = segments path := by
  obtain ⟨k, hk⟩ := exists_dropFinalSlashes path
  conv => rhs; rw [hk]
  exact (segments_append_slashes _ k).symm

theorem isAbsolute_dropFinalSlashes {path : String} (h : dropFinalSlashes path ≠ "") :
    isAbsolute (dropFinalSlashes path) = isAbsolute path := by
  obtain ⟨k, hk⟩ := exists_dropFinalSlashes path
  conv => rhs; rw [hk]
  exact (isAbsolute_append h _).symm

/-- Only the lone slash is left with a slash at its end. -/
theorem segments_of_dropFinalSlashes_eq {path dir : String}
    (h : dropFinalSlashes path = dir ++ "/") : segments path = [] := by
  unfold dropFinalSlashes at h
  split at h
  · have hlast := List.head?_dropWhile_not (· = '/') path.toList.reverse
    have hslash : path.toList.reverse.dropWhile (· = '/') = '/' :: dir.toList.reverse := by
      simpa using congrArg (fun s => s.toList.reverse) h
    rw [hslash] at hlast
    simp at hlast
  · rename_i hsize
    have hdir : dir.utf8ByteSize = 0 := by
      have hone : "/".utf8ByteSize = 1 := by decide
      rw [h, String.utf8ByteSize_append] at hsize
      omega
    rw [h, String.utf8ByteSize_eq_zero_iff.mp hdir]
    decide

/-! ## Canonical paths -/

/-- A path is canonical if it is the lone slash, or has a slash in front and behind it only names
that are neither empty nor dots. -/
def IsCanonical (path : String) : Prop :=
  path = "/" ∨ ∃ rest, path = "/" ++ rest ∧
    ∀ name ∈ rest.toList.splitOn '/', String.ofList name ∉ ["", ".", ".."]

/-- **The canonical paths are the ones that spell valid names.** -/
theorem isCanonical_iff {path : String} :
    IsCanonical path ↔ ∃ names, (∀ n ∈ names, isValidName n = true) ∧ path = ofNames names := by
  constructor
  · rintro (rfl | ⟨rest, rfl, h⟩)
    · exact ⟨[], by simp, ofNames_nil.symm⟩
    · refine ⟨(rest.toList.splitOn '/').map String.ofList, fun n hn => ?_, ?_⟩
      · obtain ⟨w, hw, rfl⟩ := List.mem_map.mp hn
        have hw' := h w hw
        simp only [List.mem_cons, List.not_mem_nil, or_false, not_or] at hw'
        exact isValidName_iff.mpr
          ⟨⟨hw'.1, by simpa using not_mem_of_mem_splitOn hw⟩, hw'.2.1, hw'.2.2⟩
      · apply String.toList_inj.mp
        simp [ofNames, Function.comp_def]
  · rintro ⟨names, h, rfl⟩
    by_cases hn : names = []
    · exact Or.inl (by rw [hn, ofNames_nil])
    · refine Or.inr ⟨"/".intercalate names, rfl, fun w hw => ?_⟩
      have hs : ∀ w ∈ names.map String.toList, '/' ∉ w := fun w hw => by
        obtain ⟨n, hn, rfl⟩ := List.mem_map.mp hw
        exact (pieces_of_valid h n hn).2
      rw [String.toList_intercalate, show "/".toList = ['/'] from rfl,
        List.splitOn_intercalate _ hs (by simpa using hn)] at hw
      obtain ⟨n, hmem, rfl⟩ := List.mem_map.mp hw
      obtain ⟨⟨hne, -⟩, hdot, hup⟩ := isValidName_iff.mp (h n hmem)
      simp [hne, hdot, hup]

end MemoryShell.Path
