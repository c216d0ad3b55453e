import MemoryShell.Proofs.Snapshots

/-!
# Snapshots written again

A snapshot may leave fields out that writing puts in, and an empty list of children opens one
bracket more than no list. It still fits, since a list of children is always the third, fifth,
seventh bracket and so on, and the limit is odd. Headlines:

* `Node.height_of_ofJson?`: a tree is at most half as high as the value it is read from is deep;
* `Session.depth_toJson_of_ofDoc?`: what is read within the limit is written within it;
* `Session.parse_text_of_parse`: a session that was read once is restored from its own text.
-/

namespace MemoryShell

open Json (itemsDepth membersDepth sortItems sortMembers)

/-! ## Depths of values -/

namespace Doc

mutual

/-- A value taken within a limit is no deeper than the limit. -/
theorem depth_of_value? : (d : Doc) → (limit : Nat) → {v : Json} → d.value? limit = some v →
    v.depth ≤ limit
  | .null, limit, v, h | .bool _, limit, v, h => by
    cases h
    exact Nat.zero_le limit
  | .number n?, limit, v, h => by
    obtain ⟨n, -, rfl⟩ := Option.map_eq_some_iff.mp h
    exact Nat.zero_le limit
  | .string s?, limit, v, h => by
    obtain ⟨s, -, rfl⟩ := Option.map_eq_some_iff.mp h
    exact Nat.zero_le limit
  | .array _, 0, _, h | .object _, 0, _, h => by cases h
  | .array items, limit + 1, v, h => by
    obtain ⟨vs, hvs, rfl⟩ := Option.map_eq_some_iff.mp h
    exact Nat.succ_le_succ (itemsDepth_of_itemValues? items limit hvs)
  | .object members, limit + 1, v, h => by
    obtain ⟨ms, hms, rfl⟩ := Option.map_eq_some_iff.mp h
    exact Nat.succ_le_succ (membersDepth_of_memberValues? members limit hms)

theorem itemsDepth_of_itemValues? : (ds : List Doc) → (limit : Nat) → {vs : List Json} →
    itemValues? limit ds = some vs → itemsDepth vs ≤ limit
  | [], limit, vs, h => by
    cases h
    exact Nat.zero_le limit
  | d :: ds, limit, vs, h => by
    simp only [itemValues?, Option.bind_eq_bind, Option.bind_eq_some_iff, Option.pure_def,
      Option.some.injEq] at h
    obtain ⟨w, hw, ws, hws, rfl⟩ := h
    exact Nat.max_le.mpr ⟨depth_of_value? d limit hw, itemsDepth_of_itemValues? ds limit hws⟩

theorem membersDepth_of_memberValues? : (ms : List (Option String × Doc)) → (limit : Nat) →
    {vs : List (String × Json)} → memberValues? limit ms = some vs → membersDepth vs ≤ limit
  | [], limit, vs, h => by
    cases h
    exact Nat.zero_le limit
  | (k?, d) :: ms, limit, vs, h => by
    simp only [memberValues?, Option.bind_eq_bind, Option.bind_eq_some_iff, Option.pure_def,
      Option.some.injEq] at h
    obtain ⟨k, -, w, hw, ws, hws, rfl⟩ := h
    exact Nat.max_le.mpr
      ⟨depth_of_value? d limit hw, membersDepth_of_memberValues? ms limit hws⟩

end

end Doc

namespace Json

theorem membersDepth_insertEntry (k : String) (v : Json) (ms : List (String × Json)) :
    membersDepth (insertEntry k v ms) ≤ max v.depth (membersDepth ms) := by
  induction ms with
  | nil => exact Nat.le_refl _
  | cons m ms ih =>
    simp only [insertEntry]
    split <;> simp only [membersDepth] <;> omega

mutual

/-- Sorting keys makes no value deeper. -/
theorem depth_sortKeys : (v : Json) → v.sortKeys.depth ≤ v.depth
  | null | bool _ | number _ | string _ => Nat.le_refl 0
  | array items => Nat.succ_le_succ (itemsDepth_sortItems items)
  | object members => by
    have := membersDepth_sortMembers members []
    simp only [membersDepth] at this
    simp only [sortKeys, depth]
    omega

theorem itemsDepth_sortItems : (vs : List Json) → itemsDepth (sortItems vs) ≤ itemsDepth vs
  | [] => Nat.le_refl 0
  | v :: vs => by
    have := depth_sortKeys v
    have := itemsDepth_sortItems vs
    simp only [sortItems, itemsDepth]
    omega

theorem membersDepth_sortMembers : (ms sorted : List (String × Json)) →
    membersDepth (sortMembers sorted ms) ≤ max (membersDepth sorted) (membersDepth ms)
  | [], sorted => Nat.le_max_left _ _
  | (k, v) :: ms, sorted => by
    have := membersDepth_sortMembers ms (insertEntry k v.sortKeys sorted)
    have := membersDepth_insertEntry k v.sortKeys sorted
    have := depth_sortKeys v
    simp only [sortMembers, membersDepth]
    omega

end

end Json

/-! ## Heights of trees -/

namespace FieldValue

variable {α β : Type} {read : α → Option β} {b default : β} {f : FieldValue α}

/-- A field with a default has the default, or else it was given. -/
theorem eq_default_or_given (h : f.getD? read default = some b) :
    b = default ∨ ∃ v, f = given v ∧ read v = some b := by
  cases f with
  | missing => exact .inl (Option.some.inj h).symm
  | given v => exact .inr ⟨v, rfl, h⟩
  | repeated => cases h

theorem eq_given_of_again {v w : α} (h : f.again v = given w) : w = v := by
  cases f <;> cases h
  rfl

end FieldValue

namespace Node

/-- Only a directory whose children were given is higher than nothing. -/
theorem height_of_ofFields? {inside : Bool} {f : Fields} {t : Node}
    (h : ofFields? inside f = some t) :
    t.height = 0 ∨ ∃ ts, f.children = .given (some ts) ∧ t.height = childrenHeight ts := by
  simp only [ofFields?, Option.bind_eq_bind, Option.bind_eq_some_iff] at h
  obtain ⟨kind, -, h⟩ := h
  cases kind with
  | file =>
    simp only [Option.bind_eq_some_iff, Option.pure_def, Option.some.injEq] at h
    obtain ⟨name, -, content, -, rfl⟩ := h
    exact .inl rfl
  | directory =>
    simp only [Option.bind_eq_some_iff, Option.pure_def, Option.some.injEq] at h
    obtain ⟨name, -, ts, hts, rfl⟩ := h
    rcases FieldValue.eq_default_or_given hts with rfl | ⟨v, hv, rfl⟩
    · exact .inl rfl
    · exact .inr ⟨ts, hv, rfl⟩

mutual

/-- **A tree takes two brackets for each name of its longest way**, one for the node and one for
the list of its children, and one more for the node at the end. -/
theorem height_of_ofJson? : (v : Json) → (inside : Bool) → {t : Node} →
    ofJson? inside v = some t → 2 * t.height + 1 ≤ v.depth
  | .null, _, _, h | .bool _, _, _, h | .number _, _, _, h | .string _, _, _, h => by cases h
  | .object members, inside, t, h => by
    simp only [Json.depth]
    rcases height_of_ofFields? h with h0 | ⟨ts, hts, heq⟩
    · omega
    · have := childrenHeight_of_fields members hts
      omega
  | .array [kind, name], inside, t, h => by
    simp only [Json.depth]
    rcases height_of_ofFields? h with h0 | ⟨ts, hts, -⟩
    · omega
    · cases hts
  | .array [kind, name, last], inside, t, h => by
    simp only [Json.depth, itemsDepth]
    rcases height_of_ofFields? h with h0 | ⟨ts, hts, heq⟩
    · omega
    · have := childrenHeight_of_childrenOf? last (FieldValue.given.inj hts)
      omega
  | .array [], _, _, h | .array [_], _, _, h | .array (_ :: _ :: _ :: _ :: _), _, _, h => by
    cases h

theorem childrenHeight_of_childrenOf? : (v : Json) → {ts : List Node} →
    childrenOf? v = some ts → 2 * childrenHeight ts ≤ v.depth
  | .null, _, h | .bool _, _, h | .number _, _, h | .string _, _, h | .object _, _, h => by
    cases h
  | .array items, ts, h => childrenHeight_of_ofItems? items h

theorem childrenHeight_of_ofItems? : (vs : List Json) → {ts : List Node} →
    ofItems? vs = some ts → 2 * childrenHeight ts ≤ itemsDepth vs + 1
  | [], ts, h => by
    cases h
    exact Nat.zero_le _
  | v :: vs, ts, h => by
    simp only [ofItems?, Option.bind_eq_bind, Option.bind_eq_some_iff, Option.pure_def,
      Option.some.injEq] at h
    obtain ⟨u, hu, us, hus, rfl⟩ := h
    have := height_of_ofJson? v true hu
    have := childrenHeight_of_ofItems? vs hus
    simp only [childrenHeight, itemsDepth]
    omega

theorem childrenHeight_of_fields : (ms : List (String × Json)) → {ts : List Node} →
    (fields ms).children = .given (some ts) → 2 * childrenHeight ts ≤ membersDepth ms
  | [], _, h => by cases h
  | (key, v) :: ms, ts, h => by
    simp only [fields] at h
    simp only [membersDepth]
    split at h
    case h_3 =>
      have := childrenHeight_of_childrenOf? v (FieldValue.eq_given_of_again h).symm
      omega
    all_goals
      have := childrenHeight_of_fields ms h
      omega

end

end Node

/-! ## Sessions -/

namespace Session

/-- **What is read within the limit is written within it.** -/
theorem depth_toJson_of_ofDoc? {doc : Doc} {s : Session} (h : ofDoc? doc = some s) :
    s.toJson.depth ≤ Doc.depthLimit := by
  simp only [ofDoc?, Option.bind_eq_bind, Option.bind_eq_some_iff, Option.pure_def,
    Option.some.injEq] at h
  obtain ⟨field, -, history, -, tree, htree, cwd, -, settings, hsettings, rfl⟩ := h
  refine (depth_toJson_le_iff _).mpr ⟨?_, ?_⟩
  · rcases FieldValue.eq_default_or_given htree with rfl | ⟨d, -, hd⟩
    · exact Nat.le_add_left _ 124
    · obtain ⟨v, hv, ht⟩ := Option.bind_eq_some_iff.mp hd
      have hdepth := Doc.depth_of_value? d _ hv
      have hheight := Node.height_of_ofJson? v false ht
      have hwritten := (Node.depth_toJson tree).2
      -- inside the session's own bracket the limit is even, and the depth read exceeds an even
      -- number, so one bracket is left over
      simp only [Doc.depthLimit] at hdepth ⊢
      omega
  · refine Nat.le_trans (Json.depth_sortKeys settings) ?_
    rcases FieldValue.eq_default_or_given hsettings with rfl | ⟨d, -, hd⟩
    · exact Nat.zero_le _
    · exact Doc.depth_of_value? d _ hd

/-- A session that is read from a text is the session of some document. -/
theorem exists_ofDoc?_of_parse {text : String} {s : Session} (h : parse text = .ok s) :
    ∃ doc, ofDoc? doc = some s := by
  unfold parse at h
  split at h
  · rename_i hread
    obtain ⟨doc, -, hdoc⟩ := Option.bind_eq_some_iff.mp hread
    cases h
    exact ⟨doc, hdoc⟩
  · cases h

/-- **A session that was read once is restored from its own text**, as long as its settings hold
no doubles. -/
theorem parse_text_of_parse {text : String} {s : Session} (h : parse text = .ok s)
    (hs : s.settings.value.isIntegral = true) : parse s.text = .ok s := by
  obtain ⟨doc, hdoc⟩ := exists_ofDoc?_of_parse h
  rw [parse_text hs, if_pos (depth_toJson_of_ofDoc? hdoc)]

/-- Fields may be missing, unknown, told by place or told in any order, and kinds by number. -/
theorem parse_text_of_parse_careless :
    let text := "\x7b\"x\": [2.5], \"settings\": \x7b\"z\": 1, \"a\": [-7], \"z\": []\x7d, " ++
      "\"structure\": [\"directory\", \"/\", " ++
        "[\x7b\"name\": \"d\", \"content\": 1, \"type\": 0\x7d, [1, \"f\"]]]\x7d"
    ∃ s, parse text = .ok s ∧ s.settings.value.isIntegral = true ∧
      s.tree = .directory "/" [.directory "d" [], .file "f" ""] ∧ parse s.text = .ok s := by
  intro text
  have hread : (parse text).toOption.map (fun s => (s.settings.value.isIntegral, s.tree)) =
      some (true, .directory "/" [.directory "d" [], .file "f" ""]) := by decide +kernel
  cases h : parse text with
  | error e =>
    rw [h] at hread
    cases hread
  | ok s =>
    rw [h] at hread
    obtain ⟨hs, htree⟩ := Prod.mk.inj (Option.some.inj hread)
    exact ⟨s, rfl, hs, htree, parse_text_of_parse h hs⟩

end Session

end MemoryShell
