import MemoryShell.Tree.Node
import MemoryShell.Tree.Path

/-!
# Well-formed trees

A tree read from outside may hold any names, and hold a name twice in one directory. A well-formed
tree is a directory below which every node has a valid name of its own. Headlines:

* `mem_descendants_iff`: below a node lie its children and what lies below them;
* `hasValidNames_iff`, `hasUniqueNames_iff`: both properties, child by child;
* `WellFormed.insert`: a well-formed tree stays so when its root takes a well-named child.
-/

namespace MemoryShell.Node

/-! ## What lies below a node -/

mutual

/-- The nodes below a node, each followed by the ones below it. -/
def descendants : Node → List Node
  | directory _ cs => withDescendants cs
  | file _ _ => []

/-- Nodes, each followed by the ones below it. -/
def withDescendants : List Node → List Node
  | [] => []
  | c :: cs => c :: (c.descendants ++ withDescendants cs)

end

theorem mem_withDescendants {d : Node} {cs : List Node} :
    d ∈ withDescendants cs ↔ ∃ c ∈ cs, d = c ∨ d ∈ c.descendants := by
  induction cs with
  | nil => simp [withDescendants]
  | cons c cs ih => simp [withDescendants, ih, or_assoc]

theorem mem_descendants_iff {d t : Node} :
    d ∈ t.descendants ↔ ∃ c ∈ t.children, d = c ∨ d ∈ c.descendants := by
  cases t with
  | directory n cs => exact mem_withDescendants
  | file n s => simp [descendants]

/-! ## Names -/

/-- Every node below this one has a valid name. -/
def HasValidNames (t : Node) : Prop := ∀ d ∈ t.descendants, Path.isValidName d.name = true

/-- No directory, this one and the ones below it, holds a name twice. -/
def HasUniqueNames (t : Node) : Prop := ∀ d ∈ t :: t.descendants, (d.children.map name).Nodup

instance (t : Node) : Decidable t.HasValidNames := inferInstanceAs (Decidable (∀ d ∈ _, _))

instance (t : Node) : Decidable t.HasUniqueNames := inferInstanceAs (Decidable (∀ d ∈ _, _))

theorem hasValidNames_iff {t : Node} :
    t.HasValidNames ↔ ∀ c ∈ t.children, Path.isValidName c.name = true ∧ c.HasValidNames := by
  simp only [HasValidNames, mem_descendants_iff (t := t)]
  grind

theorem hasUniqueNames_iff {t : Node} :
    t.HasUniqueNames ↔ (t.children.map name).Nodup ∧ ∀ c ∈ t.children, c.HasUniqueNames := by
  simp only [HasUniqueNames, List.forall_mem_cons, mem_descendants_iff (t := t)]
  grind

/-! ## Well-formed trees -/

/-- A tree as commands make it. -/
structure WellFormed (t : Node) : Prop where
  isDir : t.isDir = true
  validNames : t.HasValidNames
  uniqueNames : t.HasUniqueNames

theorem wellFormed_iff {t : Node} :
    t.WellFormed ↔ t.isDir = true ∧ t.HasValidNames ∧ t.HasUniqueNames :=
  ⟨fun h => ⟨h.isDir, h.validNames, h.uniqueNames⟩, fun ⟨hd, hv, hu⟩ => ⟨hd, hv, hu⟩⟩

instance (t : Node) : Decidable t.WellFormed := decidable_of_iff _ wellFormed_iff.symm

theorem wellFormed_root : root.WellFormed := by decide

theorem WellFormed.insert {t c u : Node} (ht : t.WellFormed) (hn : Path.isValidName c.name = true)
    (hv : c.HasValidNames) (hu : c.HasUniqueNames) (h : t.insert c = .ok u) : u.WellFormed := by
  obtain ⟨-, hfree, rfl⟩ := insert_eq_ok_iff.1 h
  have hv' := hasValidNames_iff.1 ht.validNames
  have hu' := hasUniqueNames_iff.1 ht.uniqueNames
  have hfree' : ∀ d ∈ t.children, d.name ≠ c.name := by simpa [child?] using hfree
  refine ⟨rfl, hasValidNames_iff.2 ?_, hasUniqueNames_iff.2 ⟨?_, ?_⟩⟩
  · simp only [children_directory, List.mem_append, List.mem_singleton]
    rintro d (hd | rfl)
    · exact hv' d hd
    · exact ⟨hn, hv⟩
  · simp only [children_directory, List.map_append, List.map_cons, List.map_nil]
    refine List.nodup_append.2 ⟨hu'.1, by simp, ?_⟩
    simpa using hfree'
  · simp only [children_directory, List.mem_append, List.mem_singleton]
    rintro d (hd | rfl)
    · exact hu'.2 d hd
    · exact hu

end MemoryShell.Node
