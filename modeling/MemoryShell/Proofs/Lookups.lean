import MemoryShell.Proofs.Places

/-!
# The two ways to a node

`resolve` walks nodes and minds dots; `lookup` goes straight down and takes dots for names. On the
paths that `resolve` gives back they agree. Headline:

* `resolve_agrees_with_lookup`: a path found is canonical and leads, by either way and from every
  working directory, to the node found; it is also where a new node is put in its place.
-/

namespace MemoryShell

/-- What is written at the place of a node is found there from then on. -/
theorem resolve_replaceAt {root old new : Node} {names : List String}
    (hn : ∀ n ∈ names, Path.isValidName n = true) (hf : root.find? names = some old)
    (hname : new.name = old.name) (cwd : String) :
    resolve (replaceAt root (Path.ofNames names) new) cwd (Path.ofNames names) =
      .ok ⟨Path.ofNames names, new⟩ := by
  rw [resolve_ofNames hn, replaceAt, Path.segments_ofNames (Path.pieces_of_valid hn),
    Node.find?_updateAt_self hf hname]

/-- **A path found is canonical, and both ways lead from it to the node found.** The tree may be
any, with names repeated in a directory, names that no command would give, or a file for root. The
node is the same one, not only one like it: what is put at the path by `replaceAt` is what `resolve`
finds there. Where nothing is found, the failure names the expression as typed. -/
theorem resolve_agrees_with_lookup (root : Node) (cwd expr : String) :
    (∀ found, resolve root cwd expr = .ok found →
      Path.IsCanonical found.path ∧
      (∀ cwd', resolve root cwd' found.path = .ok found) ∧
      lookup root found.path = some found.node ∧
      ∀ new, new.name = found.node.name → ∀ cwd',
        resolve (replaceAt root found.path new) cwd' found.path = .ok ⟨found.path, new⟩) ∧
    ∀ e, resolve root cwd expr = .error e → e = .refused .noSuchFile expr := by
  refine ⟨fun found h => ?_, fun e h => resolve_eq_error h⟩
  obtain ⟨path, node⟩ := found
  obtain ⟨names, hn, rfl, hf⟩ := resolve_eq_ok h
  refine ⟨Path.isCanonical_iff.mpr ⟨names, hn, rfl⟩, fun cwd' => ?_, ?_, ?_⟩
  · rw [resolve_ofNames hn, hf]
  · rw [lookup_ofNames hn, hf]
  · exact fun new hname cwd' => resolve_replaceAt hn hf hname cwd'

/-- Among children of one name both ways take the first, also when dots led to it. -/
example :
    let root : Node := .directory "r" [.directory "a" [.file "b" "1"], .file "a" "2"]
    (resolve root "/a" "../a/./b").toOption.map (·.path) = some "/a/b" ∧
      lookup root "/a/b" = some (.file "b" "1") := by
  decide +kernel

end MemoryShell
