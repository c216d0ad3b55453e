import MemoryShell.Proofs.Walks
import MemoryShell.Tree.WellFormed

/-!
# Exchanging the node at a place

`t.updateAt (fun _ => u) names` is the tree `t` with `u` for the node at the place `names`. Where
`u` bears the name of the node it stands for, nothing changes beside it. Headlines:

* `find?_updateAt_append`: at and below the place, the tree is as `u` is;
* `updateAt_updateAt`: two changes at one place are one change;
* `front_updateAt_of_not_prefix`: elsewhere, nodes show what they showed before;
* `HasDir.updateAt`: elsewhere, a directory stays a directory;
* `WellNamed.updateAt`: names stay valid and unique if those of `u` are.
-/

namespace MemoryShell.Node

open MemoryShell.Path (isValidName)

variable {t u old new : Node} {n m : String} {names : List String}

/-! ## One child -/

/-- Children are looked up by names, so the others are found as before. -/
theorem find?_updateFirst {f : Node → Node} {cs : List Node}
    (hf : ∀ c, (cs.find? fun d => d.name == n) = some c → (f c).name = n) (m : String) :
    ((updateFirst n f cs).find? fun d => d.name == m) =
      if n = m then (cs.find? fun d => d.name == m).map f else cs.find? fun d => d.name == m := by
  induction cs with
  | nil => simp [updateFirst]
  | cons c cs ih =>
    unfold updateFirst
    by_cases hc : c.name = n
    · have hfc : (f c).name = n := hf c (by simp [hc])
      by_cases hm : n = m
      · subst hm
        simp [hc, hfc]
      · simp [hc, hfc, hm]
    · have ih := ih fun d hd => hf d (by simpa [hc] using hd)
      by_cases hm : c.name = m
      · have hnm : n ≠ m := fun he => hc (hm.trans he.symm)
        simp [hm, hnm, Ne.symm hnm]
      · simpa [hc, hm] using ih

theorem map_name_updateFirst {f : Node → Node} {cs : List Node}
    (hf : ∀ c, (cs.find? fun d => d.name == n) = some c → (f c).name = n) :
    (updateFirst n f cs).map name = cs.map name := by
  induction cs with
  | nil => rfl
  | cons c cs ih =>
    unfold updateFirst
    by_cases hc : c.name = n
    · have hfc : (f c).name = n := hf c (by simp [hc])
      simp [hc, hfc]
    · have ih := ih fun d hd => hf d (by simpa [hc] using hd)
      simp [hc, ih]

theorem mem_updateFirst {f : Node → Node} {cs : List Node} {d : Node}
    (h : d ∈ updateFirst n f cs) :
    d ∈ cs ∨ ∃ c, (cs.find? fun d => d.name == n) = some c ∧ d = f c := by
  induction cs with
  | nil => exact absurd h List.not_mem_nil
  | cons c cs ih =>
    unfold updateFirst at h
    by_cases hc : c.name = n
    · rw [if_pos (by simpa using hc)] at h
      rcases List.mem_cons.mp h with rfl | h
      · exact Or.inr ⟨c, by simp [hc], rfl⟩
      · exact Or.inl (List.mem_cons_of_mem c h)
    · rw [if_neg (by simpa using hc)] at h
      rcases List.mem_cons.mp h with rfl | h
      · exact Or.inl List.mem_cons_self
      · rcases ih h with h | ⟨e, he, rfl⟩
        · exact Or.inl (List.mem_cons_of_mem c h)
        · exact Or.inr ⟨e, by simpa [hc] using he, rfl⟩

theorem child?_updateChild {f : Node → Node} (hf : ∀ c, t.child? n = some c → (f c).name = n)
    (m : String) :
    (t.updateChild n f).child? m = if n = m then (t.child? m).map f else t.child? m := by
  cases t with
  | directory k cs => exact find?_updateFirst hf m
  | file k s => simp [updateChild, child?]

/-! ## One place -/

theorem updateAt_nil (f : Node → Node) (t : Node) : t.updateAt f [] = f t := rfl

theorem updateAt_cons (f : Node → Node) (n : String) (ns : List String) (t : Node) :
    t.updateAt f (n :: ns) = t.updateChild n (updateAt f ns) := rfl

@[simp] theorem name_updateChild (n : String) (f : Node → Node) (t : Node) :
    (t.updateChild n f).name = t.name := by
  cases t <;> rfl

@[simp] theorem isDir_updateChild (n : String) (f : Node → Node) (t : Node) :
    (t.updateChild n f).isDir = t.isDir := by
  cases t <;> rfl

theorem find?_cons_eq_some_iff {ns : List String} :
    t.find? (n :: ns) = some u ↔ ∃ c, t.child? n = some c ∧ c.find? ns = some u :=
  Option.bind_eq_some_iff

/-- A tree keeps its name when the node at a place is exchanged for one of the same name. -/
theorem name_updateAt (h : t.find? names = some old) (hn : new.name = old.name) :
    (t.updateAt (fun _ => new) names).name = t.name := by
  cases names with
  | nil => rw [updateAt_nil, hn, Option.some.inj h]
  | cons n ns => rw [updateAt_cons, name_updateChild]

/-- The child on the way to the place, and the tree with the place exchanged under it. -/
theorem child?_updateAt_cons {c : Node} {ns : List String} (hc : t.child? n = some c)
    (h : c.find? ns = some old) (hn : new.name = old.name) (m : String) :
    (t.updateAt (fun _ => new) (n :: ns)).child? m =
      if n = m then some (c.updateAt (fun _ => new) ns) else t.child? m := by
  rw [updateAt_cons, child?_updateChild]
  · split
    · rename_i hm
      rw [← hm, hc, Option.map_some]
    · rfl
  · intro d hd
    cases hc.symm.trans hd
    rw [name_updateAt h hn, name_of_child? hc]

/-- **At and below the place, the tree is as the new node is.** -/
theorem find?_updateAt_append (h : t.find? names = some old) (hn : new.name = old.name)
    (ks : List String) :
    (t.updateAt (fun _ => new) names).find? (names ++ ks) = new.find? ks := by
  induction names generalizing t with
  | nil => rfl
  | cons n ns ih =>
    obtain ⟨c, hc, h⟩ := find?_cons_eq_some_iff.mp h
    rw [List.cons_append, find?, child?_updateAt_cons hc h hn, if_pos rfl]
    exact ih h

theorem find?_updateAt_self (h : t.find? names = some old) (hn : new.name = old.name) :
    (t.updateAt (fun _ => new) names).find? names = some new := by
  have := find?_updateAt_append h hn []
  rwa [List.append_nil] at this

/-! ## Changes one after another -/

section Changes

variable {f g : Node → Node} {cs : List Node}

theorem updateFirst_congr (h : ∀ c, (cs.find? fun d => d.name == n) = some c → f c = g c) :
    updateFirst n f cs = updateFirst n g cs := by
  induction cs with
  | nil => rfl
  | cons c cs ih =>
    unfold updateFirst
    by_cases hc : c.name = n
    · have hfg : f c = g c := h c (by simp [hc])
      simp [hc, hfg]
    · have ih := ih fun d hd => h d (by simpa [hc] using hd)
      simp [hc, ih]

theorem updateFirst_id (n : String) (cs : List Node) : updateFirst n id cs = cs := by
  induction cs with
  | nil => rfl
  | cons c cs ih => simp [updateFirst, ih]

theorem updateFirst_updateFirst (hg : ∀ c, (g c).name = c.name) :
    updateFirst n f (updateFirst n g cs) = updateFirst n (f ∘ g) cs := by
  induction cs with
  | nil => rfl
  | cons c cs ih =>
    by_cases hc : c.name = n
    · simp [updateFirst, hc, hg]
    · simp [updateFirst, hc, ih]

theorem updateChild_congr (h : ∀ c, t.child? n = some c → f c = g c) :
    t.updateChild n f = t.updateChild n g := by
  cases t with
  | directory k cs => exact congrArg (directory k) (updateFirst_congr h)
  | file k s => rfl

theorem updateChild_updateChild (hg : ∀ c, (g c).name = c.name) :
    (t.updateChild n g).updateChild n f = t.updateChild n (f ∘ g) := by
  cases t with
  | directory k cs => exact congrArg (directory k) (updateFirst_updateFirst hg)
  | file k s => rfl

/-- A change that keeps the name of every node keeps it also when it is made further below. -/
theorem name_updateAt_of_keepsName (hf : ∀ t, (f t).name = t.name) (names : List String)
    (t : Node) : (t.updateAt f names).name = t.name := by
  cases names with
  | nil => exact hf t
  | cons n ns => rw [updateAt_cons, name_updateChild]

/-- Only what a change makes of the node at the place matters. -/
theorem updateAt_congr (h : ∀ d, t.find? names = some d → f d = g d) :
    t.updateAt f names = t.updateAt g names := by
  induction names generalizing t with
  | nil => exact h t rfl
  | cons n ns ih =>
    rw [updateAt_cons, updateAt_cons]
    exact updateChild_congr fun c hc => ih fun d hd => h d (find?_cons_eq_some_iff.mpr ⟨c, hc, hd⟩)

theorem updateAt_id (names : List String) (t : Node) : t.updateAt id names = t := by
  induction names generalizing t with
  | nil => rfl
  | cons n ns ih =>
    have hid : updateAt id ns = id := funext ih
    cases t with
    | directory k cs => rw [updateAt_cons, hid, updateChild, updateFirst_id]
    | file k s => rfl

/-- To put a node where it is changes nothing. -/
theorem updateAt_of_find? (h : t.find? names = some u) : t.updateAt (fun _ => u) names = t := by
  have hid (d : Node) (hd : t.find? names = some d) : u = id d := Option.some.inj (h.symm.trans hd)
  rw [updateAt_congr hid, updateAt_id]

/-- **Two changes at one place are one change.** -/
theorem updateAt_updateAt (hg : ∀ t, (g t).name = t.name) :
    (t.updateAt g names).updateAt f names = t.updateAt (f ∘ g) names := by
  induction names generalizing t with
  | nil => rfl
  | cons n ns ih =>
    rw [updateAt_cons, updateAt_cons, updateAt_cons,
      updateChild_updateChild (name_updateAt_of_keepsName hg ns)]
    exact updateChild_congr fun c _ => ih

end Changes

/-! ## Nodes elsewhere -/

/-- The names in a directory, in their order. -/
def childNames (t : Node) : List String := t.children.map name

/-- What a node shows of itself: its text, if it is a file, and the names in it. -/
def front (t : Node) : Option String × List String := (t.content?, t.childNames)

theorem content?_of_isDir (h : t.isDir = true) : t.content? = none := by
  cases t with
  | directory n cs => rfl
  | file n s => cases h

theorem isDir_eq_isNone_content? (t : Node) : t.isDir = t.content?.isNone := by
  cases t <;> rfl

theorem front_updateChild {f : Node → Node} (hf : ∀ c, t.child? n = some c → (f c).name = n) :
    (t.updateChild n f).front = t.front := by
  cases t with
  | directory k cs => exact congrArg (Prod.mk none) (map_name_updateFirst hf)
  | file k s => rfl

/-- **Exchanging a node leaves what is shown elsewhere**, by the directories on the way to it as
well. -/
theorem front_updateAt_of_not_prefix {ms : List String} (h : t.find? names = some old)
    (hn : new.name = old.name) (hms : ¬ names <+: ms) :
    ((t.updateAt (fun _ => new) names).find? ms).map front = (t.find? ms).map front := by
  induction names generalizing t ms with
  | nil => exact absurd List.nil_prefix hms
  | cons n ns ih =>
    obtain ⟨c, hc, h⟩ := find?_cons_eq_some_iff.mp h
    cases ms with
    | nil =>
      refine congrArg some (front_updateChild fun d hd => ?_)
      cases hc.symm.trans hd
      rw [name_updateAt h hn, name_of_child? hc]
    | cons m ms =>
      rw [find?, find?, child?_updateAt_cons hc h hn]
      by_cases hm : n = m
      · subst hm
        rw [if_pos rfl, hc]
        exact ih h fun hp => hms (List.cons_prefix_cons.mpr ⟨rfl, hp⟩)
      · rw [if_neg hm]

/-- Exchanging a directory for one that differs from it in the children of one name leaves what is
shown elsewhere, and by its other children. -/
theorem front_updateAt_of_child? {ms : List String} (h : t.find? names = some old)
    (hn : new.name = old.name) (hchild : ∀ m, m ≠ n → new.child? m = old.child? m)
    (hms : ¬ names ++ [n] <+: ms) :
    ((t.updateAt (fun _ => new) names).find? ms).map front =
      if ms = names then some new.front else (t.find? ms).map front := by
  by_cases hp : names <+: ms
  · obtain ⟨ks, rfl⟩ := hp
    cases ks with
    | nil => simp [find?_updateAt_self h hn]
    | cons k ks =>
      have hk : k ≠ n := by
        rintro rfl
        exact hms ⟨ks, by rw [List.append_assoc, List.singleton_append]⟩
      rw [if_neg (by simp), find?_updateAt_append h hn, find?_append, h, Option.bind_some, find?,
        find?, hchild k hk]
  · have hne : ms ≠ names := fun he => hp (he ▸ List.prefix_rfl)
    rw [if_neg hne, front_updateAt_of_not_prefix h hn hp]

/-! ## Directories elsewhere -/

/-- There is a directory at the place. -/
def HasDir (t : Node) (names : List String) : Prop := ∃ d, t.find? names = some d ∧ d.isDir = true

theorem hasDir_nil_iff : t.HasDir [] ↔ t.isDir = true := by
  simp [HasDir, find?]

theorem hasDir_cons_iff {ns : List String} :
    t.HasDir (n :: ns) ↔ ∃ c, t.child? n = some c ∧ c.HasDir ns := by
  simp only [HasDir, find?_cons_eq_some_iff]
  constructor
  · rintro ⟨d, ⟨c, hc, hd⟩, hdir⟩
    exact ⟨c, hc, d, hd, hdir⟩
  · rintro ⟨c, hc, d, hd, hdir⟩
    exact ⟨d, ⟨c, hc, hd⟩, hdir⟩

/-- **A directory stays one when the node at a place is exchanged**, if the new node keeps the
directories at and below the place. -/
theorem HasDir.updateAt {ms : List String} (h : t.HasDir ms) (hold : t.find? names = some old)
    (hn : new.name = old.name)
    (hnew : ∀ ks, ms = names ++ ks → old.HasDir ks → new.HasDir ks) :
    (t.updateAt (fun _ => new) names).HasDir ms := by
  induction names generalizing t ms with
  | nil =>
    cases hold
    exact hnew ms rfl h
  | cons n ns ih =>
    cases ms with
    | nil =>
      rw [hasDir_nil_iff] at h ⊢
      rw [updateAt_cons, isDir_updateChild, h]
    | cons m ms =>
      obtain ⟨c, hc, hold⟩ := find?_cons_eq_some_iff.mp hold
      obtain ⟨d, hd, hms⟩ := hasDir_cons_iff.mp h
      rw [hasDir_cons_iff]
      by_cases hnm : n = m
      · subst hnm
        cases hc.symm.trans hd
        refine ⟨_, by rw [child?_updateAt_cons hc hold hn, if_pos rfl], ih hms hold ?_⟩
        exact fun ks hks => hnew ks (by rw [hks, List.cons_append])
      · exact ⟨d, by rw [child?_updateAt_cons hc hold hn, if_neg hnm, hd], hms⟩

/-! ## Names -/

/-- The names below a node are valid, and unique in each directory. -/
def WellNamed (t : Node) : Prop := t.HasValidNames ∧ t.HasUniqueNames

theorem wellFormed_iff_wellNamed : t.WellFormed ↔ t.isDir = true ∧ t.WellNamed := wellFormed_iff

theorem wellNamed_iff :
    t.WellNamed ↔ (t.children.map name).Nodup ∧
      ∀ c ∈ t.children, isValidName c.name = true ∧ c.WellNamed := by
  rw [WellNamed, hasValidNames_iff, hasUniqueNames_iff]
  constructor
  · rintro ⟨hv, hnodup, hu⟩
    exact ⟨hnodup, fun c hc => ⟨(hv c hc).1, (hv c hc).2, hu c hc⟩⟩
  · rintro ⟨hnodup, h⟩
    exact ⟨fun c hc => ⟨(h c hc).1, (h c hc).2.1⟩, hnodup, fun c hc => (h c hc).2.2⟩

theorem WellNamed.of_children_eq_nil (h : t.children = []) : t.WellNamed :=
  wellNamed_iff.mpr (by simp [h])

theorem WellNamed.child (h : t.WellNamed) {c : Node} (hc : c ∈ t.children) :
    isValidName c.name = true ∧ c.WellNamed := (wellNamed_iff.mp h).2 c hc

theorem mem_children_of_child? {c : Node} (h : t.child? n = some c) : c ∈ t.children :=
  List.mem_of_find?_eq_some h

/-- What lies below a node of a tree lies below its root. -/
theorem mem_descendants_of_find? {d : Node} (hu : t.find? names = some u)
    (hd : d ∈ u.descendants) : d ∈ t.descendants := by
  induction names generalizing t with
  | nil => exact Option.some.inj hu ▸ hd
  | cons n ns ih =>
    obtain ⟨c, hc, hu⟩ := find?_cons_eq_some_iff.mp hu
    exact mem_descendants_iff.mpr ⟨c, mem_children_of_child? hc, .inr (ih hu)⟩

/-- Below every node of a tree with valid names, names are valid. -/
theorem HasValidNames.find? (h : t.HasValidNames)
    (hu : t.find? names = some u) : u.HasValidNames :=
  fun d hd => h d (mem_descendants_of_find? hu hd)

/-- In every directory of a tree with unique names, names are unique. -/
theorem HasUniqueNames.find? (h : t.HasUniqueNames)
    (hu : t.find? names = some u) : u.HasUniqueNames := by
  induction names generalizing t with
  | nil => exact Option.some.inj hu ▸ h
  | cons n ns ih =>
    obtain ⟨c, hc, hu⟩ := find?_cons_eq_some_iff.mp hu
    exact ih ((hasUniqueNames_iff.mp h).2 c (mem_children_of_child? hc)) hu

/-- Every node of a well-named tree is well-named. -/
theorem WellNamed.find? (h : t.WellNamed) (hu : t.find? names = some u) : u.WellNamed :=
  ⟨h.1.find? hu, h.2.find? hu⟩

/-- **Names stay valid and unique when the node at a place is exchanged for a well-named one.** -/
theorem WellNamed.updateAt (h : t.WellNamed) (hold : t.find? names = some old)
    (hn : new.name = old.name) (hnew : new.WellNamed) :
    (t.updateAt (fun _ => new) names).WellNamed := by
  induction names generalizing t with
  | nil => exact hnew
  | cons n ns ih =>
    obtain ⟨c, hc, hcold⟩ := find?_cons_eq_some_iff.mp hold
    have hname : (c.updateAt (fun _ => new) ns).name = c.name := name_updateAt hcold hn
    cases t with
    | file k s => simp [child?] at hc
    | directory k cs =>
      have hf : ∀ d, (cs.find? fun e => e.name == n) = some d →
          (d.updateAt (fun _ => new) ns).name = n := fun d hd => by
        cases hc.symm.trans hd
        rw [hname, name_of_child? hc]
      refine wellNamed_iff.mpr ⟨?_, fun d hd => ?_⟩
      · change ((updateFirst n (Node.updateAt (fun _ => new) ns) cs).map name).Nodup
        rw [map_name_updateFirst hf]
        exact (wellNamed_iff.mp h).1
      · rcases mem_updateFirst hd with hd | ⟨e, he, rfl⟩
        · exact h.child hd
        · cases hc.symm.trans he
          obtain ⟨hv, hw⟩ := h.child (mem_children_of_child? hc)
          exact ⟨by rwa [hname], ih hw hcold⟩

end MemoryShell.Node
