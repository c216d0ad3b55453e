/-!
# Trees of directories and files

A directory owns its children in the order in which they were made. Trees read from outside may
repeat a name among siblings; a name then stands for the first child that bears it. Headlines:

* `insert_eq_ok_iff`: a child is added exactly to a directory that has no child of its name;
* `name_of_child?`: the child found under a name bears it.
-/

namespace MemoryShell

/-- `Node`: a directory or a file. -/
inductive Node
  | directory (name : String) (children : List Node)
  | file (name : String) (content : String)
deriving Repr, Inhabited

namespace Node

/-! ## Equality -/

mutual

/-- Decides equality of trees. -/
def decEq : (s t : Node) → Decidable (s = t)
  | .directory m cs, .directory n ds =>
    match decEqList cs ds with
    | .isTrue h => if hn : m = n then .isTrue (by rw [h, hn]) else .isFalse (by simp [hn])
    | .isFalse h => .isFalse (by simp [h])
  | .file m c, .file n d =>
    if h : m = n ∧ c = d then .isTrue (by rw [h.1, h.2]) else .isFalse (by simpa using h)
  | .directory _ _, .file _ _ => .isFalse Node.noConfusion
  | .file _ _, .directory _ _ => .isFalse Node.noConfusion

/-- Decides equality of lists of trees. -/
def decEqList : (ss ts : List Node) → Decidable (ss = ts)
  | [], [] => .isTrue rfl
  | s :: ss, t :: ts =>
    match decEq s t with
    | .isTrue h =>
      match decEqList ss ts with
      | .isTrue h' => .isTrue (by rw [h, h'])
      | .isFalse h' => .isFalse (by simp [h'])
    | .isFalse h => .isFalse (by simp [h])
  | [], _ :: _ => .isFalse (by simp)
  | _ :: _, [] => .isFalse (by simp)

end

instance : DecidableEq Node := decEq

/-! ## Parts of a node -/

/-- `name`: the name under which the parent lists the node. -/
def name : Node → String
  | directory n _ => n
  | file n _ => n

/-- `is_dir`: whether the node is a directory. -/
def isDir : Node → Bool
  | directory _ _ => true
  | file _ _ => false

/-- `children`: the children in the order of their making; a file has none. -/
def children : Node → List Node
  | directory _ cs => cs
  | file _ _ => []

/-- `content`: the text of a file. -/
def content? : Node → Option String
  | directory _ _ => none
  | file _ c => some c

/-- `size`: the length of a file in bytes of UTF-8, or how many children a directory has. -/
def size : Node → Nat
  | directory _ cs => cs.length
  | file _ c => c.utf8ByteSize

/-- `child`: the first child of that name. -/
def child? (t : Node) (n : String) : Option Node := t.children.find? fun c => c.name == n

@[simp] theorem name_directory (n : String) (cs : List Node) : (directory n cs).name = n := rfl

@[simp] theorem name_file (n c : String) : (file n c).name = n := rfl

@[simp] theorem isDir_directory (n : String) (cs : List Node) : (directory n cs).isDir = true := rfl

@[simp] theorem isDir_file (n c : String) : (file n c).isDir = false := rfl

@[simp] theorem children_directory (n : String) (cs : List Node) :
    (directory n cs).children = cs := rfl

@[simp] theorem children_file (n c : String) : (file n c).children = [] := rfl

/-- `root`: the empty root directory. -/
def root : Node := directory "/" []

theorem name_of_child? {t c : Node} {n : String} (h : t.child? n = some c) : c.name = n := by
  simpa using List.find?_some h

/-! ## One directory at a time -/

/-- Why a node cannot take a child: the failures of `insert`. -/
inductive Taken
  /-- A child of that name exists. -/
  | nameTaken (name : String)
  /-- The node of that name is a file. -/
  | isFile (name : String)
deriving DecidableEq, Repr

/-- `insert`: the directory with one child more, at the end; names stay unique. -/
def insert : (t c : Node) → Except Taken Node
  | directory n cs, c =>
    match (directory n cs).child? c.name with
    | some _ => .error (.nameTaken c.name)
    | none => .ok (directory n (cs ++ [c]))
  | file n _, _ => .error (.isFile n)

/-- `remove`: the first child of that name and the directory without it, siblings in their order. -/
def remove? (t : Node) (n : String) : Option (Node × Node) :=
  match t with
  | directory m cs => (t.child? n).map fun c => (c, directory m (cs.eraseP fun d => d.name == n))
  | file _ _ => none

/-- The list with `f` applied to the first child of that name. -/
def updateFirst (n : String) (f : Node → Node) : List Node → List Node
  | [] => []
  | c :: cs => if c.name == n then f c :: cs else c :: updateFirst n f cs

/-- The directory with `f` applied to the first child of that name. This is what `child_mut` is
for. -/
def updateChild (n : String) (f : Node → Node) : Node → Node
  | directory m cs => directory m (updateFirst n f cs)
  | file m c => file m c

theorem insert_eq_ok_iff {t c u : Node} :
    t.insert c = .ok u ↔
      t.isDir = true ∧ t.child? c.name = none ∧ u = directory t.name (t.children ++ [c]) := by
  cases t with
  | directory n cs =>
    simp only [insert]
    split <;> rename_i h <;> simp [h, eq_comm (a := u)]
  | file n s => simp [insert]

/-! ## Places by names -/

/-- The node reached from `t` by entering the named children one after another. -/
def find? (t : Node) : List String → Option Node
  | [] => some t
  | n :: ns => (t.child? n).bind fun c => c.find? ns

/-- The tree with `f` applied to the node at that place, if there is one. -/
def updateAt (f : Node → Node) : List String → Node → Node
  | [], t => f t
  | n :: ns, t => t.updateChild n (updateAt f ns)

end Node

end MemoryShell
