import Mathlib.Data.List.Nodup
import MemoryShell.Proofs.Lookups

/-!
# Positions and paths

A position counts: it gives the number of a node among its siblings, behind the numbers of the nodes
above it. Two nodes may be equal, but they have two positions. Paths go by names, and in a
well-formed tree they tell nodes apart as positions do. Headlines:

* `find?_namesAt`, `exists_position_of_find?`: the names on the way to a position lead to the node
  there, and names that lead somewhere are the ones on the way to a position;
* `namesAt_inj`: where names are unique, they determine the position;
* `updateAt_namesAt`: what is written by names is written at the position;
* `paths_address_nodes`: paths and nodes of a well-formed tree, one to one.
-/

namespace MemoryShell

open MemoryShell.Path (isValidName ofNames)

namespace Node

/-! ## Positions -/

/-- The node at a position, reached by the numbers of children, counted from zero. -/
def nodeAt (t : Node) : List Nat → Option Node
  | [] => some t
  | i :: is => t.children[i]?.bind fun c => c.nodeAt is

/-- The names on the way to a position, the one of the root left out. -/
def namesAt (t : Node) : List Nat → List String
  | [] => []
  | i :: is => t.children[i]?.elim [] fun c => c.name :: c.namesAt is

/-- The canonical path of a position. -/
def pathAt (t : Node) (position : List Nat) : String := ofNames (t.namesAt position)

/-- The tree with `f` applied to the node at a position, if there is one. -/
def changeAt (f : Node → Node) : List Nat → Node → Node
  | [], t => f t
  | i :: is, directory n cs => directory n (cs.modify i (changeAt f is))
  | _ :: _, file n s => file n s

variable {t u c : Node} {i : Nat} {is p q : List Nat} {names : List String}

theorem nodeAt_cons_eq_some_iff :
    t.nodeAt (i :: is) = some u ↔ ∃ c, t.children[i]? = some c ∧ c.nodeAt is = some u :=
  Option.bind_eq_some_iff

theorem namesAt_cons (h : t.children[i]? = some c) (is : List Nat) :
    t.namesAt (i :: is) = c.name :: c.namesAt is := by
  rw [namesAt, h, Option.elim_some]

/-! ## Names on the way -/

/-- Where names are unique, every child is the first one of its name. -/
theorem child?_of_getElem? (hnodup : (t.children.map name).Nodup)
    (h : t.children[i]? = some c) : t.child? c.name = some c := by
  have hc : c ∈ t.children := List.mem_of_getElem? h
  obtain ⟨d, hd⟩ : ∃ d, t.child? c.name = some d := by
    rw [← Option.isSome_iff_exists, child?, List.find?_isSome]
    exact ⟨c, hc, beq_self_eq_true _⟩
  rw [hd, List.inj_on_of_nodup_map hnodup (mem_children_of_child? hd) hc (name_of_child? hd)]

/-- **The names on the way to a position lead to the node there.** -/
theorem find?_namesAt (h : t.HasUniqueNames) (hu : t.nodeAt p = some u) :
    t.find? (t.namesAt p) = some u := by
  induction p generalizing t with
  | nil => exact hu
  | cons i is ih =>
    obtain ⟨c, hc, hu⟩ := nodeAt_cons_eq_some_iff.mp hu
    obtain ⟨hnodup, hbelow⟩ := hasUniqueNames_iff.mp h
    rw [namesAt_cons hc]
    exact find?_cons_eq_some_iff.mpr
      ⟨c, child?_of_getElem? hnodup hc, ih (hbelow c (List.mem_of_getElem? hc)) hu⟩

/-- **Names that lead somewhere are those on the way to a position.** -/
theorem exists_position_of_find? (h : t.find? names = some u) :
    ∃ p, t.nodeAt p = some u ∧ t.namesAt p = names := by
  induction names generalizing t with
  | nil => exact ⟨[], h, rfl⟩
  | cons n ns ih =>
    obtain ⟨c, hc, h⟩ := find?_cons_eq_some_iff.mp h
    obtain ⟨is, hnode, hnames⟩ := ih h
    obtain ⟨i, hi⟩ := List.getElem?_of_mem (mem_children_of_child? hc)
    refine ⟨i :: is, nodeAt_cons_eq_some_iff.mpr ⟨c, hi, hnode⟩, ?_⟩
    rw [namesAt_cons hi, hnames, name_of_child? hc]

theorem isValidName_of_mem_namesAt (h : t.HasValidNames) (p : List Nat) :
    ∀ n ∈ t.namesAt p, isValidName n = true := by
  induction p generalizing t with
  | nil => exact fun n hn => absurd hn List.not_mem_nil
  | cons i is ih =>
    cases hc : t.children[i]? with
    | none => simp [namesAt, hc]
    | some c =>
      obtain ⟨hname, hbelow⟩ := hasValidNames_iff.mp h c (List.mem_of_getElem? hc)
      rw [namesAt_cons hc]
      exact List.forall_mem_cons.mpr ⟨hname, ih hbelow⟩

/-- One name is borne by one child only. -/
theorem index_eq_of_name_eq {d : Node} {j : Nat} (hnodup : (t.children.map name).Nodup)
    (hc : t.children[i]? = some c) (hd : t.children[j]? = some d) (hname : c.name = d.name) :
    i = j := by
  have hi : i < (t.children.map name).length := by
    rw [List.length_map]
    exact (List.getElem?_eq_some_iff.mp hc).1
  refine (List.getElem?_inj hi hnodup).mp ?_
  rw [List.getElem?_map, List.getElem?_map, hc, hd, Option.map_some, Option.map_some, hname]

/-- **Where names are unique, they determine the position.** -/
theorem namesAt_inj {v : Node} (h : t.HasUniqueNames) (hp : t.nodeAt p = some u)
    (hq : t.nodeAt q = some v) (hnames : t.namesAt p = t.namesAt q) : p = q := by
  induction p generalizing t q with
  | nil =>
    cases q with
    | nil => rfl
    | cons j js =>
      obtain ⟨d, hd, -⟩ := nodeAt_cons_eq_some_iff.mp hq
      rw [namesAt_cons hd] at hnames
      cases hnames
  | cons i is ih =>
    obtain ⟨c, hc, hp⟩ := nodeAt_cons_eq_some_iff.mp hp
    rw [namesAt_cons hc] at hnames
    cases q with
    | nil => cases hnames
    | cons j js =>
      obtain ⟨d, hd, hq⟩ := nodeAt_cons_eq_some_iff.mp hq
      rw [namesAt_cons hd] at hnames
      obtain ⟨hname, hbelow⟩ := List.cons.inj hnames
      obtain ⟨hnodup, hunique⟩ := hasUniqueNames_iff.mp h
      obtain rfl := index_eq_of_name_eq hnodup hc hd hname
      cases hc.symm.trans hd
      rw [ih (hunique c (List.mem_of_getElem? hc)) hp hq hbelow]

/-! ## Writing -/

theorem updateFirst_eq_modify {cs : List Node} (f : Node → Node) (hnodup : (cs.map name).Nodup)
    (h : cs[i]? = some c) : updateFirst c.name f cs = cs.modify i f := by
  induction cs generalizing i with
  | nil => cases h
  | cons d ds ih =>
    obtain ⟨hd, hds⟩ := List.nodup_cons.mp hnodup
    cases i with
    | zero =>
      obtain rfl : d = c := Option.some.inj h
      simp [updateFirst]
    | succ i =>
      have hc : ds[i]? = some c := by simpa using h
      have hne : d.name ≠ c.name := fun he =>
        hd (List.mem_map.mpr ⟨c, List.mem_of_getElem? hc, he.symm⟩)
      simp [updateFirst, hne, ih hds hc]

/-- **What is written by names is written at the position.** -/
theorem updateAt_namesAt (f : Node → Node) (h : t.HasUniqueNames) (hp : t.nodeAt p = some u) :
    t.updateAt f (t.namesAt p) = t.changeAt f p := by
  induction p generalizing t with
  | nil => rfl
  | cons i is ih =>
    obtain ⟨c, hc, hp⟩ := nodeAt_cons_eq_some_iff.mp hp
    obtain ⟨hnodup, hunique⟩ := hasUniqueNames_iff.mp h
    have hbelow : ∀ d, t.child? c.name = some d →
        d.updateAt f (c.namesAt is) = d.changeAt f is := by
      intro d hd
      cases hd.symm.trans (child?_of_getElem? hnodup hc)
      exact ih (hunique c (List.mem_of_getElem? hc)) hp
    rw [namesAt_cons hc, updateAt_cons, updateChild_congr hbelow]
    cases t with
    | directory n cs => exact congrArg (directory n) (updateFirst_eq_modify _ hnodup hc)
    | file n s => cases hc

end Node

/-! ## Paths and nodes -/

open Node in
/-- **Paths address the nodes of a well-formed tree one to one.** Two positions have two paths. The
path of a position is canonical, and leads to the node there by either way and from every working
directory: what is put at the path is put at this position, and found at the path from then on.
And every canonical path that leads somewhere, by either way, is the path of a position. -/
theorem paths_address_nodes {root : Node} (h : root.WellFormed) :
    (∀ p q u v, root.nodeAt p = some u → root.nodeAt q = some v → root.pathAt p = root.pathAt q →
      p = q) ∧
    (∀ p u, root.nodeAt p = some u →
      let path := root.pathAt p
      Path.IsCanonical path ∧ (∀ cwd, resolve root cwd path = .ok ⟨path, u⟩) ∧
      lookup root path = some u ∧
      ∀ new, replaceAt root path new = root.changeAt (fun _ => new) p ∧
        (new.name = u.name → ∀ cwd,
          resolve (root.changeAt (fun _ => new) p) cwd path = .ok ⟨path, new⟩)) ∧
    ∀ path, Path.IsCanonical path →
      (∀ cwd found, resolve root cwd path = .ok found →
        ∃ p, root.nodeAt p = some found.node ∧ path = root.pathAt p) ∧
      ∀ u, lookup root path = some u → ∃ p, root.nodeAt p = some u ∧ path = root.pathAt p := by
  have hvalid (p : List Nat) : ∀ n ∈ root.namesAt p, isValidName n = true :=
    isValidName_of_mem_namesAt h.validNames p
  have hpieces (p : List Nat) := Path.pieces_of_valid (hvalid p)
  refine ⟨fun p q u v hp hq hpath => ?_, fun p u hp => ?_, fun path hpath => ?_⟩
  · exact namesAt_inj h.uniqueNames hp hq (Path.ofNames_inj (hpieces p) (hpieces q) hpath)
  · intro path
    have hpath : path = ofNames (root.namesAt p) := rfl
    have hfind : root.find? (root.namesAt p) = some u := find?_namesAt h.uniqueNames hp
    have hwrite (new : Node) : replaceAt root path new = root.changeAt (fun _ => new) p := by
      rw [replaceAt, hpath, Path.segments_ofNames (hpieces p), updateAt_namesAt _ h.uniqueNames hp]
    refine ⟨Path.isCanonical_iff.mpr ⟨_, hvalid p, rfl⟩, fun cwd => ?_, ?_, fun new => ?_⟩
    · exact (resolve_ofNames_eq_ok_iff (hvalid p)).mpr ⟨rfl, hfind⟩
    · rw [hpath, lookup_ofNames (hvalid p), hfind]
    · refine ⟨hwrite new, fun hname cwd => ?_⟩
      rw [← hwrite new]
      exact resolve_replaceAt (hvalid p) hfind hname cwd
  · obtain ⟨names, hn, rfl⟩ := Path.isCanonical_iff.mp hpath
    have hposition {u : Node} (hu : root.find? names = some u) :
        ∃ p, root.nodeAt p = some u ∧ ofNames names = root.pathAt p := by
      obtain ⟨p, hp, hnames⟩ := exists_position_of_find? hu
      exact ⟨p, hp, by rw [pathAt, hnames]⟩
    refine ⟨fun cwd found hfound => ?_, fun u hu => ?_⟩
    · exact hposition ((resolve_ofNames_eq_ok_iff hn).mp hfound).2
    · exact hposition (by rwa [lookup_ofNames hn] at hu)

/-- Equal nodes have a position and a path each. -/
theorem paths_address_nodes_equal_nodes :
    let root : Node := .directory "home"
      [.directory "a" [.file "f" "x", .directory "c" []], .directory "b" [.directory "c" []]]
    let new : Node := .directory "c" [.file "g" ""]
    root.WellFormed ∧ root.nodeAt [0, 1] = root.nodeAt [1, 0] ∧
      root.pathAt [0, 1] = "/a/c" ∧ root.pathAt [1, 0] = "/b/c" ∧
      (∀ cwd, resolve root cwd "/b/c" = .ok ⟨"/b/c", .directory "c" []⟩) ∧
      replaceAt root "/b/c" new = .directory "home"
        [.directory "a" [.file "f" "x", .directory "c" []], .directory "b" [new]] ∧
      ∃ p, root.nodeAt p = some (.directory "c" []) ∧ root.pathAt p = "/b/c" := by
  intro root new
  have h : root.WellFormed := by decide
  have hp : root.nodeAt [1, 0] = some (.directory "c" []) := by decide
  obtain ⟨-, hnodes, hpaths⟩ := paths_address_nodes h
  obtain ⟨hcanonical, hresolve, -, hwrite⟩ := hnodes [1, 0] _ hp
  obtain ⟨p, hnode, hpath⟩ := (hpaths _ hcanonical).1 "" _ (hresolve "")
  exact ⟨h, by decide, by decide, by decide, hresolve, (hwrite new).1, p, hnode, hpath.symm⟩

end MemoryShell
