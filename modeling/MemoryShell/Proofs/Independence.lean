import MemoryShell.Proofs.Creation
import MemoryShell.Proofs.Removal

/-!
# Edits that do not meet

A creation at one path and a removal at another, where neither path goes on from the other, do not
see each other: each answers as if the other had not been, and in either order the same tree is
left, though both may change one directory. Headlines:

* `TouchesChild`: a change of a directory that concerns the children of one name only;
* `slot_updateAt`: what such a change leaves at another place;
* `updateAt_comm`: two such changes, one after the other;
* `SlotEdit.Apart.run_comm`: edits that read and change one slot each, of slots apart;
* `inserting_eq_run`, `removing_eq_run`: creations and removals at canonical paths are such edits;
* `independent_edits_commute`: a creation and a removal.
-/

namespace MemoryShell

open MemoryShell.Path (isValidName IsPiece segments ofNames isAbsolute)

namespace Node

variable {t c : Node} {n m : String} {f g : Node → Node}

/-! ## Changes of one child -/

/-- A change of a node that concerns its children named `n` only: it makes no difference whether
another child is changed before or after it. -/
structure TouchesChild (n : String) (f : Node → Node) : Prop where
  name : ∀ t, (f t).name = t.name
  isDir : ∀ t, t.isDir = true → (f t).isDir = true
  child? : ∀ t m, m ≠ n → (f t).child? m = t.child? m
  updateChild : ∀ t m g, m ≠ n → (∀ d, (g d).name = d.name) →
    f (t.updateChild m g) = (f t).updateChild m g

theorem updateFirst_append (h : c.name ≠ m) (g : Node → Node) (cs : List Node) :
    updateFirst m g (cs ++ [c]) = updateFirst m g cs ++ [c] := by
  induction cs with
  | nil => simp [updateFirst, h]
  | cons d ds ih =>
    by_cases hd : d.name = m
    · simp [updateFirst, hd]
    · simp [updateFirst, hd, ih]

theorem eraseP_updateFirst (h : m ≠ n) (hg : ∀ d, (g d).name = d.name) (cs : List Node) :
    (updateFirst m g cs).eraseP (fun d => d.name == n) =
      updateFirst m g (cs.eraseP fun d => d.name == n) := by
  induction cs with
  | nil => rfl
  | cons d ds ih =>
    by_cases hm : d.name = m
    · have hn : ¬ d.name = n := fun hn => h (hm.symm.trans hn)
      simp [updateFirst, hm, hg, h]
    · by_cases hn : d.name = n
      · simp [updateFirst, hn, Ne.symm h]
      · simp [updateFirst, hm, hn, ih]

theorem updateFirst_comm (h : n ≠ m) (hf : ∀ d, (f d).name = d.name)
    (hg : ∀ d, (g d).name = d.name) (cs : List Node) :
    updateFirst n f (updateFirst m g cs) = updateFirst m g (updateFirst n f cs) := by
  induction cs with
  | nil => rfl
  | cons d ds ih =>
    by_cases hn : d.name = n
    · simp [updateFirst, hn, hf, h]
    · by_cases hm : d.name = m
      · simp [updateFirst, hm, hg, Ne.symm h]
      · simp [updateFirst, hn, hm, ih]

theorem touchesChild_withChild (c : Node) : TouchesChild c.name fun t => t.withChild c where
  name t := rfl
  isDir t _ := rfl
  child? t m hm := child?_withChild_of_ne hm
  updateChild t m g hm _ := by
    cases t with
    | directory k cs => exact congrArg (directory k) (updateFirst_append (Ne.symm hm) g cs).symm
    | file k s => exact congrArg (directory k) (updateFirst_append (Ne.symm hm) g []).symm

theorem touchesChild_withoutChild (n : String) : TouchesChild n fun t => t.withoutChild n where
  name t := rfl
  isDir t _ := rfl
  child? t m hm := child?_withoutChild hm
  updateChild t m g hm hg := by
    cases t with
    | directory k cs => exact congrArg (directory k) (eraseP_updateFirst hm hg cs)
    | file k s => rfl

theorem touchesChild_updateChild (n : String) (hf : ∀ d, (f d).name = d.name) :
    TouchesChild n (updateChild n f) where
  name t := name_updateChild n f t
  isDir t ht := (isDir_updateChild n f t).trans ht
  child? t m hm := by
    rw [child?_updateChild fun c hc => (hf c).trans (name_of_child? hc), if_neg (Ne.symm hm)]
  updateChild t m g hm hg := by
    cases t with
    | directory k cs => exact congrArg (directory k) (updateFirst_comm (Ne.symm hm) hf hg cs)
    | file k s => rfl

/-- To add a child and to take out one of another name, in either order. -/
theorem withChild_withoutChild (h : c.name ≠ n) (t : Node) :
    (t.withoutChild n).withChild c = (t.withChild c).withoutChild n := by
  have herase : (t.children ++ [c]).eraseP (fun d => d.name == n) =
      t.children.eraseP (fun d => d.name == n) ++ [c] := by
    generalize t.children = cs
    induction cs with
    | nil => simp [h]
    | cons d ds ih =>
      by_cases hd : d.name = n
      · simp [hd]
      · simp [hd, ih]
  exact congrArg (directory t.name) herase.symm

/-! ## Places apart -/

/-- What there is at a place for the child `m`: nothing, or a node, with whether it is a directory
and which child of this name it has. -/
def slot (t : Node) (ms : List String) (m : String) : Option (Bool × Option Node) :=
  (t.find? ms).map fun d => (d.isDir, d.child? m)

theorem slot_of_find? {ms : List String} {d : Node} (h : t.find? ms = some d) (m : String) :
    t.slot ms m = some (d.isDir, d.child? m) := by
  rw [slot, h, Option.map_some]

theorem slot_eq_none {ms : List String} (h : t.find? ms = none) (m : String) :
    t.slot ms m = none := by
  rw [slot, h, Option.map_none]

theorem slot_eq_some_iff {ms : List String} {m : String} {c : Node} :
    t.slot ms m = some (true, some c) ↔ t.find? (ms ++ [m]) = some c := by
  rw [find?_concat]
  cases hd : t.find? ms with
  | none => simp [slot_eq_none hd]
  | some d => simpa [slot_of_find? hd] using isDir_of_child?

theorem slot_cons (t : Node) (k : String) (ms : List String) (m : String) :
    t.slot (k :: ms) m = (t.child? k).bind fun c => c.slot ms m := by
  rw [slot, find?, Option.map_bind]
  rfl

variable {ns ms : List String}

/-- **A change of one child leaves the slots elsewhere**, of the same directory as well. -/
theorem slot_updateAt (hf : TouchesChild n f) (hdir : t.HasDir ns)
    (hns : ¬ ns ++ [n] <+: ms ++ [m]) (hms : ¬ ms ++ [m] <+: ns ++ [n]) :
    (t.updateAt f ns).slot ms m = t.slot ms m := by
  induction ns generalizing t ms with
  | nil =>
    rw [hasDir_nil_iff] at hdir
    rw [updateAt_nil]
    cases ms with
    | nil =>
      have hne : m ≠ n := fun he => hns (he ▸ List.prefix_rfl)
      simp [slot, find?, hf.isDir t hdir, hdir, hf.child? t m hne]
    | cons k ms =>
      have hne : k ≠ n := by
        rintro rfl
        exact hns ⟨ms ++ [m], rfl⟩
      rw [slot_cons, slot_cons, hf.child? t k hne]
  | cons j ns ih =>
    obtain ⟨c, hc, hdir⟩ := hasDir_cons_iff.mp hdir
    have hchild (k : String) : (t.updateAt f (j :: ns)).child? k =
        if j = k then some (c.updateAt f ns) else t.child? k := by
      rw [updateAt_cons, child?_updateChild]
      · split
        · rename_i hk
          rw [← hk, hc, Option.map_some]
        · rfl
      · intro d hd
        rw [name_updateAt_of_keepsName hf.name, name_of_child? hd]
    -- seen from here, only the child `j` is another one
    cases ms with
    | nil =>
      have hne : j ≠ m := by
        rintro rfl
        exact hms ⟨ns ++ [n], rfl⟩
      simp only [slot, find?, Option.map_some, hchild, if_neg hne]
      rw [updateAt_cons, isDir_updateChild]
    | cons k ms =>
      rw [slot_cons, slot_cons, hchild]
      by_cases hk : j = k
      · subst hk
        rw [if_pos rfl, hc]
        exact ih hdir (fun hp => hns (List.cons_prefix_cons.mpr ⟨rfl, hp⟩))
          (fun hp => hms (List.cons_prefix_cons.mpr ⟨rfl, hp⟩))
      · rw [if_neg hk]

/-- **Changes of one child each commute where they do not meet.** At the place where their ways
part, or where one of them ends, they concern different children. -/
theorem updateAt_comm (hf : TouchesChild n f) (hg : TouchesChild m g)
    (hfg : n ≠ m → ∀ t, f (g t) = g (f t))
    (hns : ¬ ns ++ [n] <+: ms ++ [m]) (hms : ¬ ms ++ [m] <+: ns ++ [n]) :
    (t.updateAt g ms).updateAt f ns = (t.updateAt f ns).updateAt g ms := by
  induction ns generalizing t ms with
  | nil =>
    cases ms with
    | nil => exact hfg (fun he => hns (he ▸ List.prefix_rfl)) t
    | cons k ms =>
      have hne : k ≠ n := by
        rintro rfl
        exact hns ⟨ms ++ [m], rfl⟩
      exact hf.updateChild t k _ hne (name_updateAt_of_keepsName hg.name ms)
  | cons j ns ih =>
    cases ms with
    | nil =>
      have hne : j ≠ m := by
        rintro rfl
        exact hms ⟨ns ++ [n], rfl⟩
      exact (hg.updateChild t j _ hne (name_updateAt_of_keepsName hf.name ns)).symm
    | cons k ms =>
      have hfs : ∀ d, (updateAt f ns d).name = d.name := name_updateAt_of_keepsName hf.name ns
      have hgs : ∀ d, (updateAt g ms d).name = d.name := name_updateAt_of_keepsName hg.name ms
      simp only [updateAt_cons]
      by_cases hk : j = k
      -- both go on below one child
      · subst hk
        rw [updateChild_updateChild hgs, updateChild_updateChild hfs]
        exact updateChild_congr fun c _ => ih
          (fun hp => hns (List.cons_prefix_cons.mpr ⟨rfl, hp⟩))
          (fun hp => hms (List.cons_prefix_cons.mpr ⟨rfl, hp⟩))
      · exact (touchesChild_updateChild j hfs).updateChild t k _ (Ne.symm hk) hgs

end Node

/-! ## Edits of a slot -/

/-- An edit that reads one slot of a tree and changes one child of the directory there: the child
`name` of the node at `place`. It succeeds in directories only. -/
structure SlotEdit (α : Type) where
  place : List String
  name : String
  answer : Option (Bool × Option Node) → Except ShellError α
  change : Node → Node
  touches : Node.TouchesChild name change
  needsDir : ∀ {slot a}, answer slot = .ok a → ∃ child, slot = some (true, child)

namespace SlotEdit

variable {α β : Type} {root : Node}

/-- The change is made where the edit does not fail. -/
def run (e : SlotEdit α) (root : Node) : Except ShellError α × Node :=
  outcome root ((e.answer (root.slot e.place e.name)).map
    fun a => (a, root.updateAt e.change e.place))

section Run

variable {e : SlotEdit α}

theorem run_of_ok {a : α} (h : e.answer (root.slot e.place e.name) = .ok a) :
    e.run root = (.ok a, root.updateAt e.change e.place) := by
  rw [run, h]
  rfl

theorem run_of_error {err : ShellError}
    (h : e.answer (root.slot e.place e.name) = .error err) : e.run root = (.error err, root) := by
  rw [run, h]
  rfl

theorem fst_run (e : SlotEdit α) (root : Node) :
    (e.run root).1 = e.answer (root.slot e.place e.name) := by
  cases h : e.answer (root.slot e.place e.name) with
  | ok a => rw [run_of_ok h]
  | error err => rw [run_of_error h]

theorem hasDir_of_answer {a : α} (h : e.answer (root.slot e.place e.name) = .ok a) :
    root.HasDir e.place := by
  obtain ⟨child, hslot⟩ := e.needsDir h
  obtain ⟨d, hd, hpair⟩ := Option.map_eq_some_iff.mp hslot
  exact ⟨d, hd, congrArg Prod.fst hpair⟩

end Run

/-- Neither slot lies at or below the other. -/
structure Apart (d : SlotEdit α) (e : SlotEdit β) : Prop where
  left : ¬ d.place ++ [d.name] <+: e.place ++ [e.name]
  right : ¬ e.place ++ [e.name] <+: d.place ++ [d.name]

namespace Apart

variable {d : SlotEdit α} {e : SlotEdit β}

theorem symm (h : Apart d e) : Apart e d := ⟨h.right, h.left⟩

/-- An edit leaves what the other one reads. -/
theorem slot_run (h : Apart d e) (root : Node) :
    (d.run root).2.slot e.place e.name = root.slot e.place e.name := by
  cases hd : d.answer (root.slot d.place d.name) with
  | error err => rw [run_of_error hd]
  | ok a =>
    rw [run_of_ok hd]
    exact Node.slot_updateAt d.touches (hasDir_of_answer hd) h.left h.right

/-- Edits of slots apart leave one tree in either order. -/
theorem snd_run_comm (h : Apart d e)
    (hcomm : d.name ≠ e.name → ∀ t, d.change (e.change t) = e.change (d.change t)) (root : Node) :
    (e.run (d.run root).2).2 = (d.run (e.run root).2).2 := by
  have hdslot := congrArg d.answer (h.symm.slot_run root)
  have heslot := congrArg e.answer (h.slot_run root)
  cases hd : d.answer (root.slot d.place d.name) with
  | error err => rw [run_of_error hd, run_of_error (hdslot.trans hd)]
  | ok a =>
    cases he : e.answer (root.slot e.place e.name) with
    | error err => rw [run_of_error he, run_of_error (heslot.trans he)]
    | ok b =>
      rw [run_of_ok (heslot.trans he), run_of_ok hd, run_of_ok (hdslot.trans hd), run_of_ok he]
      exact (Node.updateAt_comm d.touches e.touches hcomm h.left h.right).symm

/-- **Edits of slots apart do not see each other.** Each answers as if the other had not been, and
in either order they leave the same tree. -/
theorem run_comm (h : Apart d e)
    (hcomm : d.name ≠ e.name → ∀ t, d.change (e.change t) = e.change (d.change t)) (root : Node) :
    ∃ t, e.run (d.run root).2 = ((e.run root).1, t) ∧
      d.run (e.run root).2 = ((d.run root).1, t) := by
  refine ⟨(e.run (d.run root).2).2, Prod.ext ?_ rfl, Prod.ext ?_ (h.snd_run_comm hcomm root).symm⟩
  · rw [fst_run, fst_run, h.slot_run]
  · rw [fst_run, fst_run, h.symm.slot_run]

end Apart

/-! ## Insertions and removals at canonical paths -/

/-- What becomes of an insertion, by what there is in the slot. -/
def insertionAnswer (path : String) : Option (Bool × Option Node) → Except ShellError String
  | none => .error (.refused .noSuchFile path)
  | some (false, _) => .error (.refused .notADirectory path)
  | some (true, some _) => .error (.refused .fileExists path)
  | some (true, none) => .ok path

/-- What becomes of a removal, by what there is in the slot; `busy` tells whether the working
directory lies there or below. -/
def removalAnswer (path : String) (busy recursive : Bool) :
    Option (Bool × Option Node) → Except ShellError Node
  | some (true, some node) =>
    if busy then .error (.refused .busy path)
    else if node.isDir && !recursive then .error (.refused .isADirectory path)
    else .ok node
  | _ => .error (.refused .noSuchFile path)

theorem removalAnswer_of_ne {slot : Option (Bool × Option Node)}
    (h : ∀ c, slot ≠ some (true, some c)) (path : String) (busy recursive : Bool) :
    removalAnswer path busy recursive slot = .error (.refused .noSuchFile path) := by
  rcases slot with _ | ⟨_ | _, _ | c⟩
  · rfl
  · rfl
  · rfl
  · rfl
  · exact absurd rfl (h c)

/-- To put `new`, a node of the name `leaf`, in the directory at `place`. -/
def insertion (place : List String) (leaf : String) (new : Node) (hname : new.name = leaf) :
    SlotEdit String where
  place := place
  name := leaf
  answer := insertionAnswer (ofNames (place ++ [leaf]))
  change := fun t => t.withChild new
  touches := hname ▸ Node.touchesChild_withChild new
  needsDir := by
    rintro (_ | ⟨_ | _, child⟩) a h
    · cases h
    · cases h
    · exact ⟨child, rfl⟩

/-- To take the child `leaf` out of the directory at `place`. -/
def removal (place : List String) (leaf : String) (busy recursive : Bool) : SlotEdit Node where
  place := place
  name := leaf
  answer := removalAnswer (ofNames (place ++ [leaf])) busy recursive
  change := fun t => t.withoutChild leaf
  touches := Node.touchesChild_withoutChild leaf
  needsDir := by
    rintro (_ | ⟨_ | _, child⟩) a h
    · cases h
    · cases h
    · exact ⟨child, rfl⟩

end SlotEdit

section Canonical

variable {root : Node} {cwd expr : String} {names : List String} {leaf : String}
variable (h : ∀ n ∈ names ++ [leaf], isValidName n = true)
include h

theorem leafName_ofNames : leafName (ofNames (names ++ [leaf])) = leaf := by
  have hlast : (segments (ofNames (names ++ [leaf]))).getLast? = some leaf := by
    rw [Path.segments_ofNames (Path.pieces_of_valid h), List.getLast?_concat]
  exact (getLast?_segments_eq_some_iff.mp hlast).1

/-- All but the last name of a canonical path lead to the directory of these names. -/
theorem route_parentExpr_ofNames (cwd : String) :
    route cwd (parentExpr (ofNames (names ++ [leaf]))) = names := by
  have hpath : segments (ofNames (names ++ [leaf])) = names ++ [leaf] :=
    Path.segments_ofNames (Path.pieces_of_valid h)
  cases leafCut (ofNames (names ++ [leaf])) with
  | nothing nothing _ => simp [hpath] at nothing
  | bare _ relative _ _ => simp [Path.isAbsolute_ofNames] at relative
  | under cut base _ =>
    rw [Path.isAbsolute_ofNames] at base
    rw [hpath, leafName_ofNames h] at cut
    rw [route, if_pos base.symm]
    exact (List.append_cancel_right cut).symm

theorem resolve_parentExpr_ofNames_eq_ok_iff {parent : Location} :
    resolve root cwd (parentExpr (ofNames (names ++ [leaf]))) = .ok parent ↔
      parent.path = ofNames names ∧ root.find? names = some parent.node := by
  have hroute := route_parentExpr_ofNames h cwd
  obtain ⟨path, node⟩ := parent
  rw [resolve_of_isValidName (hroute.symm ▸ (Path.valid_of_append h).1), hroute]
  cases root.find? names with
  | none => simp
  | some t => simp [eq_comm]

/-- An insertion at a canonical path edits the slot of this path. -/
theorem inserting_eq_run {make : String → Node} (hname : (make leaf).name = leaf) (cwd : String) :
    inserting cwd (ofNames (names ++ [leaf])) make =
      (SlotEdit.insertion names leaf (make leaf) hname).run := by
  funext root
  have hleaf := leafName_ofNames h
  have hanswer {slot} (hslot : root.slot names leaf = slot) :
      SlotEdit.insertionAnswer (ofNames (names ++ [leaf])) (root.slot names leaf) =
        SlotEdit.insertionAnswer (ofNames (names ++ [leaf])) slot := by rw [hslot]
  cases insertionEnd root cwd (ofNames (names ++ [leaf])) make with
  | invalidName invalid _ =>
    rw [hleaf, (Path.valid_of_append h).2] at invalid
    cases invalid
  | noParent _ parent ends =>
    have hnone : root.find? names = none := by
      cases hfound : root.find? names with
      | none => rfl
      | some t =>
        have hparent : resolve root cwd _ = .ok ⟨ofNames names, t⟩ :=
          (resolve_parentExpr_ofNames_eq_ok_iff h).mpr ⟨rfl, hfound⟩
        cases parent.symm.trans hparent
    have hslot := Node.slot_eq_none hnone leaf
    exact (inserting_of_error ends).trans (SlotEdit.run_of_error (hanswer hslot)).symm
  | notADirectory _ found file ends =>
    have hslot := Node.slot_of_find? ((resolve_parentExpr_ofNames_eq_ok_iff h).mp found).2 leaf
    rw [file] at hslot
    exact (inserting_of_error ends).trans (SlotEdit.run_of_error (hanswer hslot)).symm
  | fileExists _ found child ends =>
    have hslot := Node.slot_of_find? ((resolve_parentExpr_ofNames_eq_ok_iff h).mp found).2 leaf
    rw [hleaf] at child
    rw [Node.isDir_of_child? child, child] at hslot
    exact (inserting_of_error ends).trans (SlotEdit.run_of_error (hanswer hslot)).symm
  | clash _ _ _ free child _ =>
    rw [hleaf] at free child
    rw [hname, free] at child
    cases child
  | inserted ends inserted =>
    obtain ⟨hpath, hfound⟩ := (resolve_parentExpr_ofNames_eq_ok_iff h).mp inserted.parent
    obtain rfl := Path.ofNames_inj (Path.pieces_of_valid inserted.validNames)
      (Path.pieces_of_valid (Path.valid_of_append h).1) hpath
    have hslot := Node.slot_of_find? hfound leaf
    have hfree := inserted.freeLeaf
    rw [hleaf] at hfree
    rw [inserted.isDir, hfree] at hslot
    rw [inserting_of_ok ends, inserted.path, inserted.tree_eq_updateAt, hleaf]
    symm
    exact SlotEdit.run_of_ok (hanswer hslot)

/-- A removal at a canonical path edits the slot of this path. -/
theorem removing_eq_run (hcwd : Path.HasNoDots cwd) (recursive : Bool) :
    removing cwd (ofNames (names ++ [leaf])) recursive =
      (SlotEdit.removal names leaf (decide (names ++ [leaf] <+: segments cwd)) recursive).run := by
  funext root
  cases htarget : resolve root cwd (ofNames (names ++ [leaf])) with
  | error e =>
    have hends : removeAt root cwd (ofNames (names ++ [leaf])) recursive =
        .error (.refused .noSuchFile (ofNames (names ++ [leaf]))) :=
      removeAt_eq_noSuchFile_iff.mpr (by simp [htarget])
    have hslot : ∀ c, root.slot names leaf ≠ some (true, some c) := by
      intro c hc
      have hfound : resolve root cwd (ofNames (names ++ [leaf])) = .ok ⟨_, c⟩ :=
        (resolve_ofNames_eq_ok_iff h).mpr ⟨rfl, Node.slot_eq_some_iff.mp hc⟩
      cases htarget.symm.trans hfound
    have hanswer := SlotEdit.removalAnswer_of_ne hslot (ofNames (names ++ [leaf]))
      (decide (names ++ [leaf] <+: segments cwd)) recursive
    exact (removing_of_error hends).trans (SlotEdit.run_of_error hanswer).symm
  | ok target =>
    obtain ⟨path, node⟩ := target
    obtain ⟨rfl, hfound⟩ := (resolve_ofNames_eq_ok_iff h).mp htarget
    have hpath : segments (ofNames (names ++ [leaf])) = names ++ [leaf] :=
      Path.segments_ofNames (Path.pieces_of_valid h)
    have hanswer (busy : Bool) :
        SlotEdit.removalAnswer (ofNames (names ++ [leaf])) busy recursive (root.slot names leaf) =
          if busy then .error (.refused .busy (ofNames (names ++ [leaf])))
          else if node.isDir && !recursive then
            .error (.refused .isADirectory (ofNames (names ++ [leaf])))
          else .ok node := by
      rw [Node.slot_eq_some_iff.mpr hfound]
      rfl
    cases removalEnd recursive htarget with
    | busy within ends =>
      rw [hpath, segments_cwdPath root hcwd] at within
      refine (removing_of_error ends).trans (SlotEdit.run_of_error ?_).symm
      exact (hanswer _).trans (by simp [within])
    | isADirectory outside refused ends =>
      rw [hpath, segments_cwdPath root hcwd] at outside
      refine (removing_of_error ends).trans (SlotEdit.run_of_error ?_).symm
      exact (hanswer _).trans (by simp [outside, refused])
    | removed outside allowed ends removed =>
      rw [hpath, segments_cwdPath root hcwd] at outside
      obtain ⟨hplace, hnode⟩ := Location.mk.inj (Except.ok.inj (htarget.symm.trans removed.target))
      obtain ⟨rfl, hleaf⟩ := List.append_inj' (Path.ofNames_inj (Path.pieces_of_valid h)
        (Path.pieces_of_valid removed.validPath) hplace) rfl
      obtain rfl := List.singleton_inj.mp hleaf
      rw [removing_of_ok ends, removed.tree_eq_updateAt, ← hnode]
      symm
      exact SlotEdit.run_of_ok ((hanswer _).trans (by simp [outside, allowed]))

end Canonical

/-- Where another path does not go on from a canonical one, this one has a last name. -/
theorem exists_names_of_not_prefix {p q : String} (hp : Path.IsCanonical p)
    (h : ¬ segments p <+: segments q) :
    ∃ names leaf, (∀ n ∈ names ++ [leaf], isValidName n = true) ∧ p = ofNames (names ++ [leaf]) ∧
      segments p = names ++ [leaf] := by
  obtain ⟨all, hall, rfl⟩ := Path.isCanonical_iff.mp hp
  have hsegments : segments (ofNames all) = all := Path.segments_ofNames (Path.pieces_of_valid hall)
  rw [hsegments] at h
  obtain rfl | ⟨names, leaf, rfl⟩ := List.eq_nil_or_concat all
  · exact absurd List.nil_prefix h
  · rw [List.concat_eq_append] at *
    exact ⟨names, leaf, hall, rfl, hsegments⟩

/-- **A creation and a removal at paths apart commute.** Let `make` give the name it is asked for,
and let the working directory be spelled without dots. Of two canonical paths, neither going on from
the other, let a node be created at one and the node at the other be removed. In either order both
answer what they would answer alone, failures included, and leave the same tree, also where they
change one directory. -/
theorem independent_edits_commute {cwd p q : String} {make : String → Node}
    (hmake : ∀ name, (make name).name = name) (hcwd : Path.HasNoDots cwd)
    (hp : Path.IsCanonical p) (hq : Path.IsCanonical q) (hpq : ¬ segments p <+: segments q)
    (hqp : ¬ segments q <+: segments p) (recursive : Bool) (root : Node) :
    ∃ tree,
      removing cwd q recursive (inserting cwd p make root).2 =
        ((removing cwd q recursive root).1, tree) ∧
      inserting cwd p make (removing cwd q recursive root).2 =
        ((inserting cwd p make root).1, tree) := by
  obtain ⟨ns, n, hns, rfl, hp⟩ := exists_names_of_not_prefix hp hpq
  obtain ⟨ms, m, hms, rfl, hq⟩ := exists_names_of_not_prefix hq hqp
  rw [hp, hq] at hpq hqp
  rw [inserting_eq_run hns (hmake n) cwd, removing_eq_run hms hcwd recursive]
  refine SlotEdit.Apart.run_comm ⟨hpq, hqp⟩ (fun hne t => ?_) root
  exact Node.withChild_withoutChild ((hmake n).trans_ne hne) t

/-- Of two children of one name the first is removed, and the new node stands behind the other. -/
theorem independent_edits_commute_one_directory :
    let root : Node := .directory "" [.directory "d" [.file "a" "1", .file "a" "2"]]
    let tree : Node := .directory "" [.directory "d" [.file "a" "2", .directory "b" []]]
    let make (name : String) : Node := .directory name []
    Path.HasNoDots "/d" ∧ Path.IsCanonical "/d/b" ∧ Path.IsCanonical "/d/a" ∧
      removing "/d" "/d/a" false (inserting "/d" "/d/b" make root).2 =
        (.ok (.file "a" "1"), tree) ∧
      inserting "/d" "/d/b" make (removing "/d" "/d/a" false root).2 = (.ok "/d/b", tree) := by
  intro root tree make
  have hcwd : Path.HasNoDots "/d" := by decide +kernel
  have hp : Path.IsCanonical "/d/b" := Path.isCanonical_iff.mpr ⟨["d", "b"], by decide, by decide⟩
  have hq : Path.IsCanonical "/d/a" := Path.isCanonical_iff.mpr ⟨["d", "a"], by decide, by decide⟩
  have hmake (name : String) : (make name).name = name := rfl
  obtain ⟨after, hr, hi⟩ := independent_edits_commute hmake hcwd hp hq
    (by decide +kernel) (by decide +kernel) false root
  have hremoved : (removing "/d" "/d/a" false root).1 = .ok (.file "a" "1") := by decide +kernel
  have hcreated : inserting "/d" "/d/b" make (removing "/d" "/d/a" false root).2 =
      (.ok "/d/b", tree) := by decide +kernel
  obtain rfl : after = tree := congrArg Prod.snd (hi.symm.trans hcreated)
  exact ⟨hcwd, hp, hq, hr.trans (by rw [hremoved]), hcreated⟩

end MemoryShell
