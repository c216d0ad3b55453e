/-!
# Finite maps listed in key order

A map is the list of its entries, with strictly increasing keys, so two maps that answer every
question alike are equal. Headlines:

* `get?_insert`: a written key answers with the new value, every other key as before;
* `nodup_keys`, `mem_keys_iff`: its keys, each once.
-/

namespace MemoryShell

/-- The keys increase strictly from entry to entry. -/
def IncreasingKeys [Ord α] (entries : List (α × β)) : Prop :=
  entries.Pairwise fun a b => compare a.1 b.1 = .lt

instance [Ord α] (entries : List (α × β)) : Decidable (IncreasingKeys entries) :=
  inferInstanceAs (Decidable (List.Pairwise _ _))

/-- Entries with `key` bound to `value`: in place of the entry with that key, or at its place in
the order. -/
def insertEntry [Ord α] (key : α) (value : β) : List (α × β) → List (α × β)
  | [] => [(key, value)]
  | entry :: rest =>
    match compare key entry.1 with
    | .lt => (key, value) :: entry :: rest
    | .eq => (key, value) :: rest
    | .gt => entry :: insertEntry key value rest

theorem mem_insertEntry [Ord α] {key : α} {value : β} {entries : List (α × β)} {x : α × β}
    (h : x ∈ insertEntry key value entries) : x = (key, value) ∨ x ∈ entries := by
  induction entries with
  | nil => simpa [insertEntry] using h
  | cons e rest ih =>
    simp only [insertEntry] at h
    split at h <;> simp at h ⊢ <;> grind

theorem insertEntry_of_forall_lt [Ord α] [Std.OrientedOrd α] {key : α} {value : β}
    {entries : List (α × β)} (h : ∀ e ∈ entries, compare e.1 key = .lt) :
    insertEntry key value entries = entries ++ [(key, value)] := by
  induction entries with
  | nil => rfl
  | cons e rest ih =>
    have he : compare key e.1 = .gt := Std.OrientedCmp.gt_of_lt (h e (by simp))
    simp [insertEntry, he, ih fun x hx => h x (by simp [hx])]

/-- A finite map from `α` to `β`. -/
structure OrderedMap (α : Type) (β : Type) [Ord α] where
  entries : List (α × β)
  increasing : IncreasingKeys entries

namespace OrderedMap

variable {α β : Type} [Ord α]

@[ext]
theorem ext {m n : OrderedMap α β} (h : m.entries = n.entries) : m = n := by
  cases m; cases n; cases h; rfl

instance [DecidableEq α] [DecidableEq β] : DecidableEq (OrderedMap α β) := fun _ _ =>
  decidable_of_iff _ ⟨ext, congrArg entries⟩

/-- The map without entries. -/
def empty : OrderedMap α β := ⟨[], List.Pairwise.nil⟩

instance : Inhabited (OrderedMap α β) := ⟨empty⟩

/-- The keys, strictly increasing. -/
def keys (m : OrderedMap α β) : List α := m.entries.map (·.1)

/-- The value bound to `key`. -/
def get? [BEq α] (m : OrderedMap α β) (key : α) : Option β :=
  (m.entries.find? fun e => e.1 == key).map (·.2)

/-- Whether `key` is bound. -/
def contains [BEq α] (m : OrderedMap α β) (key : α) : Bool := m.entries.any fun e => e.1 == key

theorem nodup_keys [Std.ReflOrd α] (m : OrderedMap α β) : m.keys.Nodup := by
  refine List.Pairwise.map _ (fun a b hlt heq => ?_) m.increasing
  rw [heq, Std.ReflOrd.compare_self] at hlt
  cases hlt

theorem mem_keys_iff [DecidableEq α] {m : OrderedMap α β} {key : α} :
    key ∈ m.keys ↔ m.contains key = true := by
  simp [keys, contains]

variable [Std.TransOrd α] [Std.LawfulEqOrd α]

theorem increasing_insertEntry (key : α) (value : β) {entries : List (α × β)}
    (h : IncreasingKeys entries) : IncreasingKeys (insertEntry key value entries) := by
  induction entries with
  | nil => simp [insertEntry, IncreasingKeys]
  | cons e rest ih =>
    obtain ⟨he, hr⟩ := List.pairwise_cons.1 h
    simp only [insertEntry]
    split
    · rename_i hc
      refine List.pairwise_cons.2 ⟨fun x hx => ?_, h⟩
      rcases List.mem_cons.1 hx with rfl | hx
      · exact hc
      · exact Std.TransCmp.lt_trans hc (he x hx)
    · rename_i hc
      have : key = e.1 := Std.LawfulEqOrd.eq_of_compare hc
      exact List.pairwise_cons.2 ⟨fun x hx => this ▸ he x hx, hr⟩
    · rename_i hc
      refine List.pairwise_cons.2 ⟨fun x hx => ?_, ih hr⟩
      rcases mem_insertEntry hx with rfl | hx
      · exact Std.OrientedCmp.lt_of_gt hc
      · exact he x hx

/-- The map with `key` bound to `value`, and bound as before elsewhere. -/
def insert (m : OrderedMap α β) (key : α) (value : β) : OrderedMap α β :=
  ⟨insertEntry key value m.entries, increasing_insertEntry key value m.increasing⟩

/-- The map of a list of bindings, of which the last one of a key counts. -/
def ofList (bindings : List (α × β)) : OrderedMap α β :=
  bindings.foldl (fun m b => m.insert b.1 b.2) empty

/-! ## Look-up -/

theorem find?_insertEntry [DecidableEq α] (key k : α) (value : β) (entries : List (α × β)) :
    ((insertEntry key value entries).find? fun e => e.1 == k).map (·.2) =
      if key = k then some value else (entries.find? fun e => e.1 == k).map (·.2) := by
  induction entries with
  | nil => by_cases h : key = k <;> simp [insertEntry, h]
  | cons e rest ih =>
    simp only [insertEntry]
    split
    · by_cases h : key = k <;> simp [h]
    · rename_i hc
      have he : key = e.1 := Std.LawfulEqOrd.eq_of_compare hc
      by_cases h : key = k
      · simp [h]
      · have h' : e.1 ≠ k := he ▸ h
        simp [h, h']
    · rename_i hc
      by_cases he : e.1 = k
      · have h : key ≠ k := by
          rintro rfl
          rw [he, Std.ReflOrd.compare_self] at hc
          cases hc
        simp [he, h]
      · simp [he, ih]

theorem get?_insert [DecidableEq α] (m : OrderedMap α β) (key k : α) (value : β) :
    (m.insert key value).get? k = if key = k then some value else m.get? k :=
  find?_insertEntry key k value m.entries

theorem contains_insert [DecidableEq α] (m : OrderedMap α β) (key k : α) (value : β) :
    (m.insert key value).contains k = true ↔ key = k ∨ m.contains k = true := by
  have hcontains (m : OrderedMap α β) : m.contains k = true ↔ (m.get? k).isSome = true := by
    simp [contains, get?]
  rw [hcontains, hcontains, get?_insert]
  by_cases h : key = k <;> simp [h]

end OrderedMap

end MemoryShell
