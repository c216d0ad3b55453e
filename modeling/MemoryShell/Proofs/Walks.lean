import MemoryShell.Proofs.Paths
import MemoryShell.Tree.Resolve

/-!
# Walks and places

A walk goes up and down and remembers where it came from; a place is a list of names, entered one
after another. However a walk went, it stands where its names lead. Headlines:

* `Walk.Descent.steps`: the nodes a walk remembers are a line of descent from the root;
* `Walk.Descent.find?_names`: the names of that line lead from the root to where the walk stands;
* `resolve_eq_ok`, `resolve_ofNames`: what resolving finds lies at a canonical path, and a
  canonical path leads there from everywhere;
* `resolve_dot_eq_ok_iff`: where a working directory without dots lies;
* `resolve_child_eq_ok_iff`: an expression with one name more leads to a child.
-/

namespace MemoryShell

open MemoryShell.Path (isValidName IsPiece segments ofNames normalize isAbsolute)

/-! ## Places -/

namespace Node

theorem find?_append (t : Node) (ns ms : List String) :
    t.find? (ns ++ ms) = (t.find? ns).bind (·.find? ms) := by
  induction ns generalizing t with
  | nil => rfl
  | cons n ns ih =>
    simp only [List.cons_append, find?]
    cases t.child? n with
    | none => rfl
    | some c => exact ih c

theorem find?_concat (t : Node) (ns : List String) (n : String) :
    t.find? (ns ++ [n]) = (t.find? ns).bind (·.child? n) := by
  rw [find?_append]
  refine Option.bind_congr fun d _ => ?_
  rw [find?]
  cases d.child? n <;> rfl

/-- What is above another node is a directory. -/
theorem isDir_of_child? {t c : Node} {n : String} (h : t.child? n = some c) : t.isDir = true := by
  cases t with
  | directory m cs => rfl
  | file m s => simp [child?] at h

end Node

/-! ## Lines of descent -/

namespace Walk

/-- The walk stands on a line of descent from the root: each node was found in the one above it,
under a valid name. -/
inductive Descent (root : Node) : Walk → Prop
  | start : Descent root (start root)
  | enter {w : Walk} {c : Node} (above : Descent root w) (valid : isValidName c.name = true)
      (found : w.here.child? c.name = some c) : Descent root ⟨c, w.here :: w.above⟩

variable {root : Node} {w v : Walk}

theorem names_start : (start root).names = [] := rfl

theorem names_enter (w : Walk) (c : Node) :
    names ⟨c, w.here :: w.above⟩ = w.names ++ [c.name] := by
  simp [names]

namespace Descent

/-- One step keeps to a line of descent, `..` going back along it. -/
theorem step {name : String} (h : Descent root w) (hn : IsPiece name)
    (hs : w.step name = some v) : Descent root v := by
  unfold Walk.step at hs
  split at hs
  · exact absurd hs (by simp)
  split at hs
  · exact Option.some.inj hs ▸ h
  split at hs
  · cases h with
    | start => exact Option.some.inj hs ▸ .start
    | enter above _ _ => exact Option.some.inj hs ▸ above
  · rename_i hdot hup
    obtain ⟨c, hc, rfl⟩ := Option.map_eq_some_iff.mp hs
    have hname : c.name = name := Node.name_of_child? hc
    subst hname
    exact .enter h (Path.isValidName_iff.mpr ⟨hn, hdot, hup⟩) hc

theorem steps {names : List String} (h : Descent root w) (hn : ∀ n ∈ names, IsPiece n)
    (hs : w.steps names = some v) : Descent root v := by
  induction names generalizing w with
  | nil => exact Option.some.inj hs ▸ h
  | cons n ns ih =>
    obtain ⟨u, hu, hs⟩ := Option.bind_eq_some_iff.mp hs
    exact ih (h.step (hn n List.mem_cons_self) hu) (fun m hm => hn m (List.mem_cons_of_mem n hm)) hs

theorem isValidName_of_mem_names (h : Descent root w) :
    ∀ n ∈ w.names, isValidName n = true := by
  induction h with
  | start => simp [names_start]
  | enter above valid found ih =>
    rw [names_enter]
    exact Path.valid_append ih valid

/-- **The names of a line of descent lead from the root to its end.** -/
theorem find?_names (h : Descent root w) : root.find? w.names = some w.here := by
  induction h with
  | start => rfl
  | @enter w c above valid found ih =>
    rw [names_enter, Node.find?_append, ih]
    simp [Node.find?, found]

/-- One step is nowhere, up, or to a name of the tree. -/
theorem step_name {name : String} (h : Descent root w) (hs : w.step name = some v) :
    name = "." ∨ name = ".." ∨ ∃ c, root.find? (w.names ++ [name]) = some c := by
  unfold Walk.step at hs
  split at hs
  · cases hs
  split at hs
  · exact .inl ‹_›
  split at hs
  · exact .inr (.inl ‹_›)
  · obtain ⟨c, hc, -⟩ := Option.map_eq_some_iff.mp hs
    refine .inr (.inr ⟨c, ?_⟩)
    rw [Node.find?_append, h.find?_names, Option.bind_some, Node.find?, hc]
    rfl

end Descent

theorem steps_append (w : Walk) (ns ms : List String) :
    w.steps (ns ++ ms) = (w.steps ns).bind (·.steps ms) := List.foldlM_append ..

theorem steps_concat (w : Walk) (ns : List String) (n : String) :
    w.steps (ns ++ [n]) = (w.steps ns).bind (·.step n) := by
  rw [steps_append]
  exact congrArg (Option.bind _) (funext fun v => by simp [steps])

theorem step_of_isValidName {name : String} (h : isValidName name = true) :
    w.step name = (w.here.child? name).map fun c => ⟨c, w.here :: w.above⟩ := by
  obtain ⟨-, hdot, hup⟩ := Path.isValidName_iff.mp h
  unfold step
  cases hc : w.here.child? name with
  | none => simp [hdot, hup]
  | some c => simp [hdot, hup, Node.isDir_of_child? hc]

/-- Along valid names a walk goes straight down. -/
theorem steps_of_isValidName {names : List String} (h : ∀ n ∈ names, isValidName n = true) :
    (w.steps names).map (fun v => (v.names, v.here)) =
      (w.here.find? names).map fun t => (w.names ++ names, t) := by
  induction names generalizing w with
  | nil => simp [steps, Node.find?]
  | cons n ns ih =>
    have hns : ∀ m ∈ ns, isValidName m = true := fun m hm => h m (List.mem_cons_of_mem n hm)
    rw [steps, List.foldlM_cons, step_of_isValidName (h n List.mem_cons_self), Node.find?]
    cases hc : w.here.child? n with
    | none => rfl
    | some c =>
      have hname : c.name = n := Node.name_of_child? hc
      have := ih (w := ⟨c, w.here :: w.above⟩) hns
      rw [names_enter, hname, List.append_assoc] at this
      exact this

/-- A walk straight down from the root arrives where its names lead, or nowhere. -/
theorem start_steps (root : Node) {names : List String} (h : ∀ n ∈ names, isValidName n = true) :
    (root.find? names = none ∧ (start root).steps names = none) ∨
      ∃ v, (start root).steps names = some v ∧ v.names = names ∧
        root.find? names = some v.here := by
  have hs := steps_of_isValidName (w := start root) h
  rw [show (start root).here = root from rfl, names_start] at hs
  simp only [List.nil_append] at hs
  cases hf : root.find? names with
  | none =>
    rw [hf, Option.map_none, Option.map_eq_none_iff] at hs
    exact Or.inl ⟨rfl, hs⟩
  | some t =>
    rw [hf, Option.map_some] at hs
    obtain ⟨v, hv, he⟩ := Option.map_eq_some_iff.mp hs
    obtain ⟨hnames, rfl⟩ := Prod.mk.inj he
    exact Or.inr ⟨v, hv, hnames, rfl⟩

end Walk

/-! ## What resolving finds -/

section Resolve

variable {root : Node} {cwd expr : String}

theorem isPiece_of_mem_route {name : String} (h : name ∈ route cwd expr) : IsPiece name := by
  unfold route at h
  split at h
  · exact Path.isPiece_of_mem_segments h
  · rcases List.mem_append.mp h with h | h <;> exact Path.isPiece_of_mem_segments h

/-- A walk along a route keeps to a line of descent. -/
theorem descent_of_steps_route {w : Walk}
    (h : (Walk.start root).steps (route cwd expr) = some w) : Walk.Descent root w :=
  Walk.Descent.start.steps (fun _ hn => isPiece_of_mem_route hn) h

/-- To resolve is to walk. -/
theorem resolve_eq_ok_iff_steps {found : Location} :
    resolve root cwd expr = .ok found ↔
      ∃ w, (Walk.start root).steps (route cwd expr) = some w ∧
        found = ⟨ofNames w.names, w.here⟩ := by
  unfold resolve
  cases (Walk.start root).steps (route cwd expr) with
  | none => simp
  | some w => simp [eq_comm]

/-- **What resolving finds lies where a canonical path leads.** -/
theorem resolve_eq_ok {found : Location} (h : resolve root cwd expr = .ok found) :
    ∃ names, (∀ n ∈ names, isValidName n = true) ∧ found.path = ofNames names ∧
      root.find? names = some found.node := by
  obtain ⟨w, hw, rfl⟩ := resolve_eq_ok_iff_steps.mp h
  have hd := descent_of_steps_route hw
  exact ⟨w.names, hd.isValidName_of_mem_names, rfl, hd.find?_names⟩

/-- The place is the one that the path found spells. -/
theorem find?_of_resolve {names : List String} {t : Node}
    (hn : ∀ n ∈ names, isValidName n = true) (h : resolve root cwd expr = .ok ⟨ofNames names, t⟩) :
    root.find? names = some t := by
  obtain ⟨ns, hns, hp, hf⟩ := resolve_eq_ok h
  rwa [Path.ofNames_inj (Path.pieces_of_valid hn) (Path.pieces_of_valid hns) hp]

theorem resolve_eq_error {e : ShellError} (h : resolve root cwd expr = .error e) :
    e = .refused .noSuchFile expr := by
  unfold resolve at h
  split at h <;> cases h
  rfl

/-- Without dots on its route, resolving goes straight down. -/
theorem resolve_of_isValidName (h : ∀ n ∈ route cwd expr, isValidName n = true) :
    resolve root cwd expr =
      match root.find? (route cwd expr) with
      | some t => .ok ⟨ofNames (route cwd expr), t⟩
      | none => .error (.refused .noSuchFile expr) := by
  unfold resolve
  rcases Walk.start_steps root h with ⟨hf, hs⟩ | ⟨v, hs, hnames, hf⟩
  · rw [hf, hs]
  · rw [hf, hs]
    simp only [hnames]

theorem route_ofNames {names : List String} (h : ∀ n ∈ names, IsPiece n) :
    route cwd (ofNames names) = names := by
  rw [route, if_pos (Path.isAbsolute_ofNames names), Path.segments_ofNames h]

/-- **A canonical path leads to the same place from every working directory.** -/
theorem resolve_ofNames {names : List String} (h : ∀ n ∈ names, isValidName n = true) :
    resolve root cwd (ofNames names) =
      match root.find? names with
      | some t => .ok ⟨ofNames names, t⟩
      | none => .error (.refused .noSuchFile (ofNames names)) := by
  have hr : route cwd (ofNames names) = names := route_ofNames (Path.pieces_of_valid h)
  have hn : ∀ n ∈ route cwd (ofNames names), isValidName n = true := by rwa [hr]
  rw [resolve_of_isValidName hn, hr]

/-- A canonical path resolves where something lies. -/
theorem resolve_ofNames_eq_ok_iff {names : List String} (h : ∀ n ∈ names, isValidName n = true)
    {found : Location} :
    resolve root cwd (ofNames names) = .ok found ↔
      found.path = ofNames names ∧ root.find? names = some found.node := by
  rw [resolve_ofNames h]
  obtain ⟨path, node⟩ := found
  cases root.find? names with
  | none => simp
  | some t => simp [eq_comm]

/-- Where nothing lies, a canonical path leads nowhere. -/
theorem resolve_ofNames_ne_ok {names : List String} (h : ∀ n ∈ names, isValidName n = true)
    (hnone : root.find? names = none) (cwd : String) (found : Location) :
    resolve root cwd (ofNames names) ≠ .ok found := by
  rw [resolve_ofNames h, hnone]
  simp

theorem lookup_ofNames {names : List String} (h : ∀ n ∈ names, isValidName n = true) :
    lookup root (ofNames names) = root.find? names := by
  rw [lookup, Path.segments_ofNames (Path.pieces_of_valid h)]

end Resolve

/-! ## Working directories -/

/-- No name of the path is a dot name. -/
def Path.HasNoDots (path : String) : Prop := ∀ n ∈ segments path, n ≠ "." ∧ n ≠ ".."

instance (path : String) : Decidable (Path.HasNoDots path) :=
  inferInstanceAs (Decidable (∀ n ∈ segments path, n ≠ "." ∧ n ≠ ".."))

theorem Path.HasNoDots.isValidName {path : String} (h : HasNoDots path) :
    ∀ n ∈ segments path, isValidName n = true := fun n hn =>
  isValidName_iff.mpr ⟨isPiece_of_mem_segments hn, h n hn⟩

theorem Path.hasNoDots_ofNames {names : List String} (h : ∀ n ∈ names, Path.isValidName n = true) :
    HasNoDots (ofNames names) := by
  rw [HasNoDots, segments_ofNames (pieces_of_valid h)]
  exact fun n hn => (isValidName_iff.mp (h n hn)).2

theorem route_empty (cwd : String) : route cwd "" = segments cwd := by
  rw [route, if_neg (by simp [Path.isAbsolute]), Path.segments_empty, List.append_nil]

theorem route_name (cwd : String) {name : String} (h : IsPiece name) :
    route cwd name = route cwd "" ++ [name] := by
  rw [route_empty, route, Path.isAbsolute_of_isPiece h, Path.segments_of_isPiece h]
  rfl

/-- The lone dot leads where the empty expression leads, but to no file. -/
theorem resolve_dot_iff {root : Node} {cwd : String} {found : Location} :
    resolve root cwd "." = .ok found ↔
      resolve root cwd "" = .ok found ∧ found.node.isDir = true := by
  have hstep (w : Walk) : w.step "." = if w.here.isDir = true then some w else none := by
    by_cases hd : w.here.isDir = true <;> simp [Walk.step, hd]
  have hroute : route cwd "." = route cwd "" ++ ["."] := route_name cwd ⟨by decide, by decide⟩
  simp only [resolve_eq_ok_iff_steps, hroute, Walk.steps_concat, hstep, Option.bind_eq_some_iff,
    Option.ite_none_right_eq_some, Option.some.injEq]
  constructor
  · rintro ⟨w, ⟨_, hw, hd, rfl⟩, rfl⟩
    exact ⟨⟨_, hw, rfl⟩, hd⟩
  · rintro ⟨⟨w, hw, rfl⟩, hd⟩
    exact ⟨w, ⟨w, hw, hd, rfl⟩, rfl⟩

/-- **A working directory without dots lies where its names lead**, at the canonical spelling of
its path. -/
theorem resolve_dot_eq_ok_iff {root : Node} {cwd : String} (h : Path.HasNoDots cwd)
    {found : Location} :
    resolve root cwd "." = .ok found ↔
      found.path = normalize cwd ∧ root.find? (segments cwd) = some found.node ∧
        found.node.isDir = true := by
  obtain ⟨path, node⟩ := found
  rw [resolve_dot_iff, Path.normalize_eq_ofNames, ← route_empty cwd,
    resolve_of_isValidName (by rw [route_empty]; exact h.isValidName), ← and_assoc]
  refine and_congr_left fun _ => ?_
  cases root.find? (route cwd "") with
  | none => simp
  | some t => simp [eq_comm]

/-! ## One name further -/

section Route

variable {root : Node} {cwd expr expr' : String} {found : Location} {name : String} {c : Node}

/-- Names behind an expression stand at the end of its route. -/
theorem route_eq_append {names : List String} (habs : isAbsolute expr' = isAbsolute expr)
    (hnames : segments expr' = segments expr ++ names) :
    route cwd expr' = route cwd expr ++ names := by
  rw [route, route, habs, hnames]
  split
  · rfl
  · exact (List.append_assoc ..).symm

theorem route_under (cwd : String) {dir : String} (hdir : dir ≠ "") (h : IsPiece name) :
    route cwd (Path.under dir name) = route cwd dir ++ [name] :=
  route_eq_append (Path.isAbsolute_under hdir name) (Path.segments_under dir h)

/-- **One name more leads to the child that bears it**, and nowhere without such a child. -/
theorem resolve_child_eq_ok_iff (hroute : route cwd expr' = route cwd expr ++ [name])
    (hn : isValidName name = true) :
    resolve root cwd expr' = .ok found ↔
      ∃ parent, resolve root cwd expr = .ok parent ∧
        parent.node.child? name = some found.node ∧
          found.path = Path.under parent.path name := by
  have hpath {w : Walk} (hw : (Walk.start root).steps (route cwd expr) = some w) {c : Node}
      (hc : w.here.child? name = some c) :
      ofNames (Walk.names ⟨c, w.here :: w.above⟩) = Path.under (ofNames w.names) name := by
    have hpieces := Path.pieces_of_valid (descent_of_steps_route hw).isValidName_of_mem_names
    rw [Walk.names_enter, Node.name_of_child? hc, Path.under_ofNames hpieces]
  obtain ⟨path, node⟩ := found
  simp only [resolve_eq_ok_iff_steps, hroute, Walk.steps_concat, Option.bind_eq_some_iff,
    Walk.step_of_isValidName hn, Option.map_eq_some_iff]
  constructor
  · rintro ⟨_, ⟨w, hw, c, hc, rfl⟩, hfound⟩
    obtain ⟨rfl, rfl⟩ := Location.mk.inj hfound
    exact ⟨_, ⟨w, hw, rfl⟩, hc, hpath hw hc⟩
  · rintro ⟨_, ⟨w, hw, rfl⟩, hc, rfl⟩
    exact ⟨_, ⟨w, hw, node, hc, rfl⟩, by rw [hpath hw hc]⟩

theorem resolve_child (hroute : route cwd expr' = route cwd expr ++ [name])
    (h : resolve root cwd expr = .ok found) (hn : isValidName name = true)
    (hc : found.node.child? name = some c) :
    resolve root cwd expr' = .ok ⟨Path.under found.path name, c⟩ :=
  (resolve_child_eq_ok_iff hroute hn).mpr ⟨found, h, hc, rfl⟩

end Route

end MemoryShell
