import MemoryShell.Proofs.Places

/-!
# What an edit leaves alone

Seen through paths, a tree with one child of one directory exchanged, added or taken away is the
tree it was, outside of this child. Headlines:

* `AgreeBeside`: two trees seen through canonical paths, outside of one place;
* `agreeBeside_updateAt`: a directory exchanged for one that differs from it in one child.
-/

namespace MemoryShell.Node

open MemoryShell.Path (isValidName segments ofNames)

/-- Outside of `path`, the trees agree. At a canonical path that is not `path` and does not go on
from it, something lies in both trees or in neither; what lies there is of one kind in both, with
the same text if it is a file, and the same names in it if it is a directory. Only the names in
`parent` differ, by `edit`. -/
structure AgreeBeside (t u : Node) (path parent : String) (edit : List String → List String) :
    Prop where
  resolves : ∀ q, Path.IsCanonical q → ¬ segments path <+: segments q → ∀ cwd,
    (∃ old, resolve t cwd q = .ok old) ↔ ∃ new, resolve u cwd q = .ok new
  shows : ∀ q, Path.IsCanonical q → ¬ segments path <+: segments q → ∀ cwd old new,
    resolve t cwd q = .ok old → resolve u cwd q = .ok new →
      new.node.isDir = old.node.isDir ∧ new.node.content? = old.node.content? ∧
        new.node.childNames = if q = parent then edit old.node.childNames else old.node.childNames

variable {t old new : Node} {n : String} {names : List String}

theorem exists_resolve_ofNames_iff {cwd : String} (h : ∀ n ∈ names, isValidName n = true) :
    (∃ found, resolve t cwd (ofNames names) = .ok found) ↔ (t.find? names).isSome := by
  simp only [resolve_ofNames_eq_ok_iff h, Option.isSome_iff_exists]
  constructor
  · rintro ⟨found, -, hf⟩
    exact ⟨found.node, hf⟩
  · rintro ⟨node, hf⟩
    exact ⟨⟨_, node⟩, rfl, hf⟩

/-- **A directory exchanged for one that differs from it in one child** leaves the rest of the tree
as it is. -/
theorem agreeBeside_updateAt (hnames : ∀ m ∈ names, isValidName m = true)
    (hvalid : isValidName n = true) (h : t.find? names = some old) (hname : new.name = old.name)
    (hold : old.isDir = true) (hnew : new.isDir = true)
    (hchild : ∀ m, m ≠ n → new.child? m = old.child? m)
    {edit : List String → List String} (hedit : new.childNames = edit old.childNames) :
    t.AgreeBeside (t.updateAt (fun _ => new) names) (ofNames (names ++ [n])) (ofNames names)
      edit := by
  have hfront {ms : List String} (hms : ∀ m ∈ ms, isValidName m = true)
      (hbeside : ¬ segments (ofNames (names ++ [n])) <+: segments (ofNames ms)) :
      ((t.updateAt (fun _ => new) names).find? ms).map front = (t.find? ms).map fun node =>
        (node.content?,
          if ofNames ms = ofNames names then edit node.childNames else node.childNames) := by
    rw [Path.segments_ofNames (Path.pieces_of_valid hms),
      Path.segments_ofNames (Path.pieces_of_valid (Path.valid_append hnames hvalid))] at hbeside
    rw [front_updateAt_of_child? h hname hchild hbeside]
    by_cases hself : ms = names
    · subst hself
      simp [h, front, hedit, content?_of_isDir hold, content?_of_isDir hnew]
    · have hpath : ofNames ms ≠ ofNames names := fun he =>
        hself (Path.ofNames_inj (Path.pieces_of_valid hms) (Path.pieces_of_valid hnames) he)
      rw [if_neg hself]
      simp only [if_neg hpath]
      rfl
  refine ⟨fun q hq hbeside cwd => ?_, fun q hq hbeside cwd f g hf hg => ?_⟩
  · obtain ⟨ms, hms, rfl⟩ := Path.isCanonical_iff.mp hq
    have hshown := congrArg Option.isSome (hfront hms hbeside)
    rw [Option.isSome_map, Option.isSome_map] at hshown
    rw [exists_resolve_ofNames_iff hms, exists_resolve_ofNames_iff hms, hshown]
  · obtain ⟨ms, hms, rfl⟩ := Path.isCanonical_iff.mp hq
    obtain ⟨-, hf⟩ := (resolve_ofNames_eq_ok_iff hms).mp hf
    obtain ⟨-, hg⟩ := (resolve_ofNames_eq_ok_iff hms).mp hg
    have hshown := hfront hms hbeside
    rw [hf, hg, Option.map_some, Option.map_some] at hshown
    obtain ⟨hcontent, hchildren⟩ := Prod.mk.inj (Option.some.inj hshown)
    refine ⟨?_, hcontent, hchildren⟩
    rw [isDir_eq_isNone_content?, hcontent, ← isDir_eq_isNone_content?]

end MemoryShell.Node
