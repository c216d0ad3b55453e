import MemoryShell.Proofs.Printed
import MemoryShell.Snapshot

/-!
# Snapshots read back

A session on an empty tree opens three brackets at once, and directories within directories open
two more each. Writing has no limit and reading has one, so a snapshot is read back exactly where
the limit is kept. Headlines:

* `Node.ofJson?_toJson`: a tree is read back from its value;
* `Node.depth_toJson`: the brackets of a tree by its height;
* `Session.parse_text`: a session is read back exactly where its brackets fit the limit.
-/

namespace MemoryShell

open Json (areIntegral haveIntegralValues itemsToDoc itemsDepth membersDepth)

/-! ## Trees -/

namespace Node

mutual

/-- **A tree is read back from its value**, as a child of another or by itself. -/
theorem ofJson?_toJson : (t : Node) → (inside : Bool) → ofJson? inside t.toJson = some t
  | .directory name children, inside => by
    have hchildren : childrenOf? (.array (itemsToJson children)) = some children := by
      rw [childrenOf?, ofItems?_itemsToJson children]
    simp [toJson, ofJson?, fields, FieldValue.again, ofFields?, FieldValue.required?,
      FieldValue.getD?, kind?, Json.string?, hchildren]
  | .file name content, inside => by
    simp [toJson, ofJson?, fields, FieldValue.again, ofFields?, FieldValue.required?,
      FieldValue.getD?, kind?, Json.string?]

theorem ofItems?_itemsToJson : (ts : List Node) → ofItems? (itemsToJson ts) = some ts
  | [] => rfl
  | t :: ts => by
    rw [itemsToJson, ofItems?, ofJson?_toJson t true, ofItems?_itemsToJson ts]
    rfl

end

theorem ofDoc?_toDoc (t : Node) (limit : Nat) :
    ofDoc? limit t.toJson.toDoc = if t.toJson.depth ≤ limit then some t else none := by
  rw [ofDoc?, Doc.value?_toDoc]
  split
  · exact ofJson?_toJson t false
  · rfl

mutual

theorem isIntegral_toJson : (t : Node) → t.toJson.isIntegral = true
  | .directory name children => by
    simp [toJson, Json.isIntegral, haveIntegralValues, areIntegral_itemsToJson children]
  | .file name content => rfl

theorem areIntegral_itemsToJson : (ts : List Node) → areIntegral (itemsToJson ts) = true
  | [] => rfl
  | t :: ts => by
    rw [itemsToJson, areIntegral, isIntegral_toJson t, areIntegral_itemsToJson ts]
    rfl

end

mutual

/-- The greatest number of names that lead from a node to a place below it. -/
def height : Node → Nat
  | directory _ children => childrenHeight children
  | file _ _ => 0

/-- The height of a directory with the given children. -/
def childrenHeight : List Node → Nat
  | [] => 0
  | t :: ts => max (t.height + 1) (childrenHeight ts)

end

mutual

/-- **The brackets of a tree**: two for each name of the longest way down, and two more, or one if
only files lie at its end. -/
theorem depth_toJson : (t : Node) →
    2 * t.height + 1 ≤ t.toJson.depth ∧ t.toJson.depth ≤ 2 * t.height + 2
  | .directory name children => by
    have := itemsDepth_itemsToJson children
    simp only [toJson, Json.depth, membersDepth, height]
    omega
  | .file name content => by simp [toJson, Json.depth, membersDepth, height]

theorem itemsDepth_itemsToJson : (ts : List Node) →
    2 * childrenHeight ts ≤ itemsDepth (itemsToJson ts) + 1 ∧
      itemsDepth (itemsToJson ts) ≤ 2 * childrenHeight ts
  | [] => by simp [itemsToJson, itemsDepth, childrenHeight]
  | t :: ts => by
    have := depth_toJson t
    have := itemsDepth_itemsToJson ts
    simp only [itemsToJson, itemsDepth, childrenHeight]
    omega

end

theorem height_le_childrenHeight {t : Node} {ts : List Node} (h : t ∈ ts) :
    t.height + 1 ≤ childrenHeight ts := by
  induction ts with
  | nil => cases h
  | cons u us ih =>
    rw [childrenHeight]
    rcases List.mem_cons.mp h with rfl | h
    · exact Nat.le_max_left _ _
    · exact Nat.le_trans (ih h) (Nat.le_max_right _ _)

end Node

/-! ## Transcripts -/

namespace Entry

theorem ofDoc?_toDoc (e : Entry) : ofDoc? e.toJson.toDoc = some e := by
  cases e <;> rfl

theorem mapM_ofDoc?_itemsToDoc (es : List Entry) :
    (itemsToDoc (es.map toJson)).mapM ofDoc? = some es := by
  induction es with
  | nil => rfl
  | cons e es ih =>
    rw [List.map_cons, itemsToDoc, List.mapM_cons, ofDoc?_toDoc, ih]
    rfl

theorem areIntegral_map_toJson (es : List Entry) : areIntegral (es.map toJson) = true := by
  induction es with
  | nil => rfl
  | cons e es ih =>
    rw [List.map_cons, areIntegral, ih]
    cases e <;> rfl

theorem itemsDepth_map_toJson (es : List Entry) : itemsDepth (es.map toJson) ≤ 1 := by
  induction es with
  | nil => exact Nat.zero_le 1
  | cons e es ih =>
    rw [List.map_cons, itemsDepth]
    refine Nat.max_le.mpr ⟨?_, ih⟩
    cases e <;> exact Nat.le_refl 1

end Entry

/-! ## Sessions -/

namespace Session

theorem isIntegral_toJson {s : Session} (h : s.settings.value.isIntegral = true) :
    s.toJson.isIntegral = true := by
  simp [toJson, Json.isIntegral, haveIntegralValues, Entry.areIntegral_map_toJson,
    Node.isIntegral_toJson, h]

/-- The transcript of a session never comes near the limit. -/
theorem depth_toJson_le_iff (s : Session) :
    s.toJson.depth ≤ Doc.depthLimit ↔
      s.tree.toJson.depth ≤ Doc.depthLimit - 1 ∧ s.settings.value.depth ≤ Doc.depthLimit - 1 := by
  have := Entry.itemsDepth_map_toJson s.history
  simp only [toJson, Json.depth, membersDepth, Doc.depthLimit]
  omega

theorem ofDoc?_toDoc (s : Session) :
    ofDoc? s.toJson.toDoc = if s.toJson.depth ≤ Doc.depthLimit then some s else none := by
  have hrecord : s.toJson.toDoc.record? 4 = some (.ofMembers
      [("history", .array (itemsToDoc (s.history.map Entry.toJson))),
        ("structure", s.tree.toJson.toDoc), ("cwd", .string (some s.cwd)),
        ("settings", s.settings.value.toDoc)]) := rfl
  simp only [depth_toJson_le_iff]
  simp [ofDoc?, hrecord, Record.ofMembers, FieldValue.getD?, Doc.items?, Doc.text?,
    Entry.mapM_ofDoc?_itemsToDoc, Node.ofDoc?_toDoc, Doc.value?_toDoc]
  by_cases htree : s.tree.toJson.depth ≤ Doc.depthLimit - 1
  · by_cases hsettings : s.settings.value.depth ≤ Doc.depthLimit - 1
    · simp [htree, hsettings, Settings.ofJson_value]
    · simp [htree, hsettings]
  · simp [htree]

/-- **A session is read back exactly where its brackets fit the limit.** -/
theorem parse_text {s : Session} (h : s.settings.value.isIntegral = true) :
    parse s.text = if s.toJson.depth ≤ Doc.depthLimit then .ok s else .error .json := by
  rw [parse, text, Doc.parse?_pretty (isIntegral_toJson h), Option.bind_some, ofDoc?_toDoc]
  by_cases hd : s.toJson.depth ≤ Doc.depthLimit
  · simp only [if_pos hd]
  · simp only [if_neg hd]

/-- Without settings it is the height of the tree alone that counts. -/
theorem parse_text_of_settings_eq_none {s : Session} (h : s.settings = .none) :
    parse s.text = if s.tree.height ≤ 62 then .ok s else .error .json := by
  have hvalue : s.settings.value = .null := by rw [h]; rfl
  have hdepth : s.toJson.depth ≤ Doc.depthLimit ↔ s.tree.height ≤ 62 := by
    have := s.tree.depth_toJson
    rw [depth_toJson_le_iff, hvalue]
    simp only [Json.depth, Doc.depthLimit]
    omega
  rw [parse_text (by rw [hvalue]; rfl)]
  simp only [hdepth]

end Session

end MemoryShell
