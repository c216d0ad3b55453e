import MemoryShell.Proofs.Changes

/-!
# Where a route leads

A walk remembers nodes, but where it comes to is told by the names of its route alone; the nodes
only tell whether it gets there. Headlines:

* `Walk.Descent.names_steps`: a walk stands where the names of its route lead;
* `Walk.Descent.exists_steps_iff`: it gets there if all names but the last lead to directories;
* `resolve_eq_ok_iff`, `resolution_follows_names`: both for paths in a working directory;
* `exists_resolve_dot_iff`: a working directory, however it is spelled;
* `Walk.Descent.start_steps_names`: a walk may be taken up again from the root;
* `resolution_composes`: a path in two parts, resolved at once or one part after the other.
-/

namespace MemoryShell

open MemoryShell.Path (isValidName IsPiece segments ofNames isAbsolute)

/-! ## Names alone -/

namespace Path

/-- Where a name leads from a place: a dot nowhere, two dots up, unless the place is the root, and
any other name to the entry of that name. -/
def follow (place : List String) (name : String) : List String :=
  if name = "." then place else if name = ".." then place.dropLast else place ++ [name]

/-- The place to which a route leads from the root. -/
def placeOf (route : List String) : List String := route.foldl follow []

theorem placeOf_concat (route : List String) (name : String) :
    placeOf (route ++ [name]) = follow (placeOf route) name := by
  simp [placeOf]

/-- Dots in a route are gone from the place. -/
theorem isValidName_of_mem_placeOf {route : List String} (h : ∀ n ∈ route, IsPiece n) :
    ∀ n ∈ placeOf route, isValidName n = true := by
  induction route using List.reverseRecOn with
  | nil => exact fun n hn => absurd hn List.not_mem_nil
  | append_singleton route name ih =>
    have hplace := ih fun n hn => h n (List.mem_append_left _ hn)
    rw [placeOf_concat, follow]
    split
    · exact hplace
    rename_i hdot
    split
    · exact fun n hn => hplace n (List.mem_of_mem_dropLast hn)
    rename_i hup
    have hname : IsPiece name := h name (List.mem_append_right _ (List.mem_singleton_self name))
    exact valid_append hplace (isValidName_iff.mpr ⟨hname, hdot, hup⟩)

/-- A route without dots leads to the place that it spells. -/
theorem placeOf_of_noDots {route : List String} (h : ∀ n ∈ route, n ≠ "." ∧ n ≠ "..") :
    placeOf route = route := by
  induction route using List.reverseRecOn with
  | nil => rfl
  | append_singleton route name ih =>
    obtain ⟨hdot, hup⟩ := h name (List.mem_append_right _ (List.mem_singleton_self name))
    rw [placeOf_concat, ih fun n hn => h n (List.mem_append_left _ hn), follow, if_neg hdot,
      if_neg hup]

/-- The places that the names of a path lead through on their way from the root, with the place
where the way ends. -/
def stops (path : String) : List (List String) := (segments path).inits.map placeOf

/-- Without dots, a path leads through the beginnings of its names only. -/
theorem prefix_of_mem_stops {path : String} (h : HasNoDots path) {place : List String}
    (hplace : place ∈ stops path) : place <+: segments path := by
  obtain ⟨front, hfront, rfl⟩ := List.mem_map.mp hplace
  have hfront : front <+: segments path := (List.mem_inits _ _).mp hfront
  rwa [placeOf_of_noDots fun n hn => h n (hfront.subset hn)]

end Path

open MemoryShell.Path (follow placeOf)

/-! ## Walks by names -/

namespace Walk

variable {root : Node} {w v : Walk} {name : String} {names : List String}

/-- Nothing leads on from a file. -/
theorem isDir_of_step (h : w.step name = some v) : w.here.isDir = true := by
  unfold step at h
  split at h
  · cases h
  · rename_i hdir
    simpa using hdir

/-- What leads to a directory leads through directories only. -/
theorem isDir_of_steps (h : w.steps names = some v) (hv : v.here.isDir = true) :
    w.here.isDir = true := by
  cases names with
  | nil => exact Option.some.inj h ▸ hv
  | cons n ns =>
    obtain ⟨u, hu, -⟩ := Option.bind_eq_some_iff.mp h
    exact isDir_of_step hu

namespace Descent

theorem hasDir_iff (h : Descent root w) : root.HasDir w.names ↔ w.here.isDir = true := by
  simp [Node.HasDir, h.find?_names]

theorem names_step (h : Descent root w) (hs : w.step name = some v) :
    v.names = follow w.names name := by
  unfold Walk.step at hs
  unfold follow
  split at hs
  · cases hs
  by_cases hdot : name = "."
  · rw [if_pos hdot] at hs ⊢
    rw [Option.some.inj hs]
  rw [if_neg hdot] at hs ⊢
  by_cases hup : name = ".."
  · rw [if_pos hup] at hs ⊢
    cases h with
    | start =>
      rw [← Option.some.inj hs]
      rfl
    | enter above =>
      rw [← Option.some.inj hs, names_enter, List.dropLast_concat]
  · rw [if_neg hup] at hs ⊢
    obtain ⟨c, hc, rfl⟩ := Option.map_eq_some_iff.mp hs
    rw [names_enter, Node.name_of_child? hc]

/-- One name leads on from a directory, to where something lies. -/
theorem exists_step_iff (h : Descent root w) :
    (∃ v, w.step name = some v) ↔
      root.HasDir w.names ∧ ∃ t, root.find? (follow w.names name) = some t := by
  rw [h.hasDir_iff]
  unfold Walk.step follow
  cases hdir : w.here.isDir with
  | false => simp
  | true =>
    by_cases hdot : name = "."
    · simp [hdot, h.find?_names]
    by_cases hup : name = ".."
    · cases h with
      | start =>
        have habove : (Walk.start root).above = [] := rfl
        simp [hup, habove, names_start, Node.find?]
      | enter above => simp [hup, names_enter, above.find?_names]
    · simp [hdot, hup, Node.find?_append, h.find?_names, Node.find?]

/-- **A walk stands where the names of its route lead.** -/
theorem names_steps (h : Descent root w) (hn : ∀ n ∈ names, IsPiece n)
    (hs : w.steps names = some v) : v.names = names.foldl follow w.names := by
  induction names generalizing w with
  | nil => exact Option.some.inj hs ▸ rfl
  | cons n ns ih =>
    obtain ⟨hpiece, hpieces⟩ := List.forall_mem_cons.mp hn
    obtain ⟨u, hu, hs⟩ := Option.bind_eq_some_iff.mp hs
    rw [ih (h.step hpiece hu) hpieces hs, h.names_step hu, List.foldl_cons]

/-- **A walk gets to the end of its route if all names before it lead to directories**, and the
last one to where something lies. -/
theorem exists_steps_iff (h : Descent root w) (hn : ∀ n ∈ names, IsPiece n) :
    (∃ v, w.steps names = some v) ↔
      (∀ k < names.length, root.HasDir ((names.take k).foldl follow w.names)) ∧
        ∃ t, root.find? (names.foldl follow w.names) = some t := by
  induction names generalizing w with
  | nil => simp [Walk.steps, h.find?_names]
  | cons n ns ih =>
    obtain ⟨hpiece, hpieces⟩ := List.forall_mem_cons.mp hn
    have hrest {u : Walk} (hu : w.step n = some u) :
        (∃ v, u.steps ns = some v) ↔
          (∀ k < ns.length, root.HasDir ((ns.take k).foldl follow (follow w.names n))) ∧
            ∃ t, root.find? (ns.foldl follow (follow w.names n)) = some t := by
      rw [← h.names_step hu]
      exact ih (h.step hpiece hu) hpieces
    constructor
    · rintro ⟨v, hv⟩
      obtain ⟨u, hu, hv⟩ := Option.bind_eq_some_iff.mp hv
      obtain ⟨hdirs, hend⟩ := (hrest hu).mp ⟨v, hv⟩
      refine ⟨fun k hk => ?_, hend⟩
      cases k with
      | zero => exact (h.exists_step_iff.mp ⟨u, hu⟩).1
      | succ k => exact hdirs k (Nat.lt_of_succ_lt_succ hk)
    · rintro ⟨hdirs, hend⟩
      have hnext : ∃ t, root.find? (follow w.names n) = some t := by
        cases ns with
        | nil => exact hend
        | cons m ms =>
          obtain ⟨d, hd, -⟩ := hdirs 1 (by simp)
          exact ⟨d, hd⟩
      obtain ⟨u, hu⟩ := h.exists_step_iff.mpr ⟨hdirs 0 (Nat.succ_pos _), hnext⟩
      obtain ⟨v, hv⟩ := (hrest hu).mpr ⟨fun k hk => hdirs (k + 1) (Nat.succ_lt_succ hk), hend⟩
      exact ⟨v, Option.bind_eq_some_iff.mpr ⟨u, hu, hv⟩⟩

/-- **A walk may be taken up again from the root**: its names lead back to where it stands, the
nodes above included. -/
theorem start_steps_names (h : Descent root w) : (Walk.start root).steps w.names = some w := by
  induction h with
  | start => rfl
  | @enter w c above valid found ih =>
    rw [names_enter, steps_concat, ih, Option.bind_some, step_of_isValidName valid, found,
      Option.map_some]

end Descent

end Walk

/-! ## Resolving by names -/

section Resolve

variable {root u : Node} {cwd expr : String} {found : Location} {names : List String} {t : Node}

theorem valid_placeOf_route (cwd expr : String) :
    ∀ n ∈ placeOf (route cwd expr), isValidName n = true :=
  Path.isValidName_of_mem_placeOf fun _ hn => isPiece_of_mem_route hn

/-- **What resolving finds lies where the names of the route lead**, if these lead through
directories. -/
theorem resolve_eq_ok_iff :
    resolve root cwd expr = .ok found ↔
      (∀ k < (route cwd expr).length, root.HasDir (placeOf ((route cwd expr).take k))) ∧
        root.find? (placeOf (route cwd expr)) = some found.node ∧
          found.path = ofNames (placeOf (route cwd expr)) := by
  have hstart : Walk.Descent root (Walk.start root) := .start
  have hpieces : ∀ n ∈ route cwd expr, IsPiece n := fun _ hn => isPiece_of_mem_route hn
  have hsteps := hstart.exists_steps_iff hpieces
  have hend {w : Walk} (hw : (Walk.start root).steps (route cwd expr) = some w) :
      w.names = placeOf (route cwd expr) ∧
        root.find? (placeOf (route cwd expr)) = some w.here := by
    have hnames : w.names = placeOf (route cwd expr) := hstart.names_steps hpieces hw
    exact ⟨hnames, hnames ▸ (descent_of_steps_route hw).find?_names⟩
  rw [resolve_eq_ok_iff_steps]
  constructor
  · rintro ⟨w, hw, rfl⟩
    obtain ⟨hnames, hhere⟩ := hend hw
    exact ⟨(hsteps.mp ⟨w, hw⟩).1, hhere, by rw [hnames]⟩
  · rintro ⟨hdirs, hnode, hpath⟩
    obtain ⟨w, hw⟩ := hsteps.mpr ⟨hdirs, found.node, hnode⟩
    obtain ⟨hnames, hhere⟩ := hend hw
    obtain ⟨path, node⟩ := found
    obtain rfl : w.here = node := Option.some.inj (hhere.symm.trans hnode)
    obtain rfl : path = _ := hpath
    exact ⟨w, hw, by rw [hnames]⟩

/-- In a tree that keeps the directories there were, a path leads where it led. -/
theorem resolve_of_hasDir (h : resolve root cwd expr = .ok ⟨ofNames names, t⟩)
    (hn : ∀ n ∈ names, isValidName n = true) (hdirs : ∀ ms, root.HasDir ms → u.HasDir ms)
    {t' : Node} (hu : u.find? names = some t') :
    resolve u cwd expr = .ok ⟨ofNames names, t'⟩ := by
  obtain ⟨hroute, -, hpath⟩ := resolve_eq_ok_iff.mp h
  obtain rfl : names = placeOf (route cwd expr) :=
    Path.ofNames_inj (Path.pieces_of_valid hn)
      (Path.pieces_of_valid (valid_placeOf_route cwd expr)) hpath
  exact resolve_eq_ok_iff.mpr ⟨fun k hk => hdirs _ (hroute k hk), hu, rfl⟩

/-- A route passes through a tree to a node: as far as the names lead before the last one there
are directories, and at the end lies the node. -/
structure Passes (root : Node) (route : List String) (node : Node) : Prop where
  through : ∀ k < route.length,
    ∃ dir, lookup root (ofNames (placeOf (route.take k))) = some dir ∧ dir.isDir = true
  arrives : lookup root (ofNames (placeOf route)) = some node

theorem passes_route_iff :
    Passes root (route cwd expr) t ↔
      (∀ k < (route cwd expr).length, root.HasDir (placeOf ((route cwd expr).take k))) ∧
        root.find? (placeOf (route cwd expr)) = some t := by
  have hlookup (k : Nat) :
      lookup root (ofNames (placeOf ((route cwd expr).take k))) =
        root.find? (placeOf ((route cwd expr).take k)) :=
    lookup_ofNames (Path.isValidName_of_mem_placeOf fun _ hn =>
      isPiece_of_mem_route (List.mem_of_mem_take hn))
  constructor
  · rintro ⟨hthrough, harrives⟩
    refine ⟨fun k hk => ?_, ?_⟩
    · rw [Node.HasDir, ← hlookup k]
      exact hthrough k hk
    · rwa [lookup_ofNames (valid_placeOf_route cwd expr)] at harrives
  · rintro ⟨hdirs, hnode⟩
    refine ⟨fun k hk => ?_, ?_⟩
    · rw [hlookup k]
      exact hdirs k hk
    · rwa [lookup_ofNames (valid_placeOf_route cwd expr)]

/-- **Resolving follows names.** The route of an expression are its names, behind those of the
working directory unless a slash is in front of it. Resolving succeeds exactly if this route passes
through the tree, and then it finds the node at the end, under the path of the place where the names
lead. In any other case no such file is found, by the expression as typed. -/
theorem resolution_follows_names (root : Node) (cwd expr : String) :
    let names := if expr.startsWith "/" then segments expr else segments cwd ++ segments expr
    (∀ found, resolve root cwd expr = .ok found ↔
      Passes root names found.node ∧ found.path = ofNames (placeOf names)) ∧
    ((¬ ∃ node, Passes root names node) →
      resolve root cwd expr = .error (.refused .noSuchFile expr)) := by
  change (∀ found, resolve root cwd expr = .ok found ↔
      Passes root (route cwd expr) found.node ∧
        found.path = ofNames (placeOf (route cwd expr))) ∧
    ((¬ ∃ node, Passes root (route cwd expr) node) → _)
  have hiff (found : Location) : resolve root cwd expr = .ok found ↔
      Passes root (route cwd expr) found.node ∧
        found.path = ofNames (placeOf (route cwd expr)) := by
    rw [resolve_eq_ok_iff, passes_route_iff, and_assoc]
  refine ⟨hiff, fun hnone => ?_⟩
  cases hr : resolve root cwd expr with
  | ok found => exact absurd ⟨found.node, ((hiff found).mp hr).1⟩ hnone
  | error e => rw [resolve_eq_error hr]

/-! ### Working directories -/

/-- **A working directory resolves if the way to it leads through directories**, whatever its
spelling, and where it lies its names tell. -/
theorem exists_resolve_dot_iff {path : String} :
    (∃ node, resolve root cwd "." = .ok ⟨path, node⟩) ↔
      (∀ place ∈ Path.stops cwd, root.HasDir place) ∧
        path = ofNames (placeOf (segments cwd)) := by
  have hstops : (∀ place ∈ Path.stops cwd, root.HasDir place) ↔
      ∀ k ≤ (segments cwd).length, root.HasDir (placeOf ((segments cwd).take k)) := by
    simp only [Path.stops, List.forall_mem_map, List.mem_inits]
    constructor
    · exact fun h k _ => h _ (List.take_prefix k _)
    · intro h front hfront
      rw [List.prefix_iff_eq_take.mp hfront]
      exact h _ hfront.length_le
  rw [hstops]
  simp only [resolve_dot_iff]
  simp only [resolve_eq_ok_iff, route_empty]
  constructor
  · rintro ⟨node, ⟨hdirs, hnode, hpath⟩, hdir⟩
    refine ⟨fun k hk => ?_, hpath⟩
    obtain hk | rfl := Nat.lt_or_eq_of_le hk
    · exact hdirs k hk
    · exact ⟨node, by rwa [List.take_length], hdir⟩
  · rintro ⟨hdirs, hpath⟩
    obtain ⟨node, hnode, hdir⟩ := hdirs _ (Nat.le_refl _)
    rw [List.take_length] at hnode
    exact ⟨node, ⟨fun k hk => hdirs k (Nat.le_of_lt hk), hnode, hpath⟩, hdir⟩

/-- In a tree that keeps the directories on the way, a working directory lies where it lay. -/
theorem exists_resolve_dot_of_hasDir (h : resolve root cwd "." = .ok found)
    (hdirs : ∀ place ∈ Path.stops cwd, root.HasDir place → u.HasDir place) :
    ∃ node, resolve u cwd "." = .ok ⟨found.path, node⟩ := by
  obtain ⟨hstops, hpath⟩ := exists_resolve_dot_iff.mp ⟨found.node, h⟩
  exact exists_resolve_dot_iff.mpr ⟨fun place hp => hdirs place hp (hstops place hp), hpath⟩

end Resolve

/-! ## Paths in two parts -/

section Compose

variable {root : Node} {cwd a b : String} {found : Location}

theorem route_append (cwd : String) (ha : a ≠ "") (b : String) :
    route cwd (a ++ "/" ++ b) = route cwd a ++ segments b := by
  have habs : isAbsolute (a ++ "/" ++ b) = isAbsolute a := by
    rw [String.append_assoc, Path.isAbsolute_append ha]
  exact route_eq_append habs (Path.segments_append a b)

/-- From the path of a walk, a relative path leads where it leads from the walk. -/
theorem Walk.Descent.start_steps_route {w : Walk} (h : Walk.Descent root w)
    (hb : isAbsolute b = false) :
    (Walk.start root).steps (route (ofNames w.names) b) = w.steps (segments b) := by
  have hroute : route (ofNames w.names) b = w.names ++ segments b := by
    rw [route, hb, Path.segments_ofNames (Path.pieces_of_valid h.isValidName_of_mem_names)]
    rfl
  rw [hroute, Walk.steps_append, h.start_steps_names, Option.bind_some]

/-- A path in two parts leads where its second part leads from where the first part leads. -/
theorem resolve_append_eq_ok_iff (ha : a ≠ "") (hb : isAbsolute b = false) :
    resolve root cwd (a ++ "/" ++ b) = .ok found ↔
      ∃ mid, resolve root cwd a = .ok mid ∧ resolve root mid.path b = .ok found := by
  simp only [resolve_eq_ok_iff_steps, route_append cwd ha b, Walk.steps_append,
    Option.bind_eq_some_iff]
  constructor
  · rintro ⟨v, ⟨w, hw, hv⟩, rfl⟩
    have hdescent := descent_of_steps_route hw
    exact ⟨_, ⟨w, hw, rfl⟩, v, (hdescent.start_steps_route hb).trans hv, rfl⟩
  · rintro ⟨_, ⟨w, hw, rfl⟩, v, hv, rfl⟩
    have hdescent := descent_of_steps_route hw
    exact ⟨v, ⟨w, hw, (hdescent.start_steps_route hb).symm.trans hv⟩, rfl⟩

/-- A path to a directory leads through directories. -/
theorem isDir_of_resolve_append {mid : Location} (hb : isAbsolute b = false)
    (hmid : resolve root cwd a = .ok mid) (h : resolve root mid.path b = .ok found)
    (hd : found.node.isDir = true) : mid.node.isDir = true := by
  obtain ⟨w, hw, rfl⟩ := resolve_eq_ok_iff_steps.mp hmid
  obtain ⟨v, hv, rfl⟩ := resolve_eq_ok_iff_steps.mp h
  have hdescent := descent_of_steps_route hw
  rw [hdescent.start_steps_route hb] at hv
  exact Walk.isDir_of_steps hv hd

end Compose

/-- The invocation calls `cd`, with this operand first. -/
structure Invocation.Enters (inv : Invocation) (expr : String) : Prop where
  name : inv.name = "cd"
  operand : inv.args.operands.head? = some expr

/-- `cd` succeeds if its operand leads to a directory, and moves the working directory there. -/
theorem Invocation.Enters.dispatch_eq_silent_iff {inv : Invocation} {expr : String}
    (h : inv.Enters expr) {s t : Session} :
    Registry.builtins.dispatch inv s = .silent t ↔
      ∃ found, resolve s.tree s.cwd expr = .ok found ∧ found.node.isDir = true ∧
        t = { s with cwd := found.path } := by
  rw [Registry.dispatch_builtins .cd h.name]
  simp only [Builtin.run, Builtin.runCd, h.operand, Option.getD_some]
  cases resolve s.tree s.cwd expr with
  | error e => simp [Outcome.failed, Outcome.silent]
  | ok found =>
    cases hd : found.node.isDir <;>
      simp [hd, Outcome.failed, Outcome.silent, eq_comm (a := t)]

/-- **Resolution composes.** An expression in two parts, the second one relative, leads where the
second part leads from where the first part leads; both ways succeed or neither does. So a `cd` to
the whole expression and two of them, one to each part, end in the same session, if they succeed at
all. -/
theorem resolution_composes {a b : String} (ha : a ≠ "") (hb : b.startsWith "/" = false) :
    (∀ root cwd found, resolve root cwd (a ++ "/" ++ b) = .ok found ↔
      ∃ mid, resolve root cwd a = .ok mid ∧ resolve root mid.path b = .ok found) ∧
    ∀ first second whole : Invocation,
      first.Enters a → second.Enters b → whole.Enters (a ++ "/" ++ b) →
        ∀ s u, Registry.builtins.dispatch whole s = .silent u ↔
          ∃ t, Registry.builtins.dispatch first s = .silent t ∧
            Registry.builtins.dispatch second t = .silent u := by
  refine ⟨fun root cwd found => resolve_append_eq_ok_iff ha hb, ?_⟩
  intro first second whole hfirst hsecond hwhole s u
  simp only [hfirst.dispatch_eq_silent_iff, hsecond.dispatch_eq_silent_iff,
    hwhole.dispatch_eq_silent_iff, resolve_append_eq_ok_iff ha hb]
  constructor
  · rintro ⟨found, ⟨mid, hmid, hfound⟩, hd, rfl⟩
    exact ⟨_, ⟨mid, hmid, isDir_of_resolve_append hb hmid hfound hd, rfl⟩, found, hfound, hd, rfl⟩
  · rintro ⟨t, ⟨mid, hmid, -, rfl⟩, found, hfound, hd, rfl⟩
    exact ⟨found, ⟨mid, hmid, hfound⟩, hd, rfl⟩

/-- The second part may climb out of where the first part led. -/
theorem resolution_composes_climbing :
    let tree : Node := .directory "" [.directory "d" [.directory "e" []], .file "f" "x"]
    let s : Session := ⟨[], tree, "d/e", .none⟩
    let a := "../"
    let b := "../d//e/."
    a ≠ "" ∧ b.startsWith "/" = false ∧
      (∃ mid, resolve tree "d/e" a = .ok mid ∧
        resolve tree mid.path b = .ok ⟨"/d/e", .directory "e" []⟩) ∧
      ∃ t, Registry.builtins.dispatch (.ofChunk "cd ../") s = .silent t ∧
        Registry.builtins.dispatch (.ofChunk "cd ../d//e/.") t =
          .silent { s with cwd := "/d/e" } := by
  intro tree s a b
  have ha : a ≠ "" := by decide
  have hb : b.startsWith "/" = false := by decide +kernel
  have hroute : route "d/e" (a ++ "/" ++ b) = ["d", "e", "..", "..", "d", "e", "."] := by
    decide +kernel
  have hfound : resolve tree "d/e" (a ++ "/" ++ b) = .ok ⟨"/d/e", .directory "e" []⟩ := by
    rw [resolve, hroute]
    rfl
  have hfirst : Invocation.Enters (.ofChunk "cd ../") a :=
    ⟨by decide +kernel, by decide +kernel⟩
  have hsecond : Invocation.Enters (.ofChunk "cd ../d//e/.") b :=
    ⟨by decide +kernel, by decide +kernel⟩
  have hwhole : Invocation.Enters (.ofChunk "cd ..//../d//e/.") (a ++ "/" ++ b) :=
    ⟨by decide +kernel, by decide +kernel⟩
  obtain ⟨hresolve, hcd⟩ := resolution_composes ha hb
  refine ⟨ha, hb, (hresolve tree "d/e" _).mp hfound, ?_⟩
  exact (hcd _ _ _ hfirst hsecond hwhole s _).mp
    (hwhole.dispatch_eq_silent_iff.mpr ⟨_, hfound, rfl, rfl⟩)

end MemoryShell
