import MemoryShell.Json.Number
import MemoryShell.OrderedMap

/-!
# JSON values

The members of an object are a list, so that the order of writing and repeated keys are visible.
A value that is only kept and handed back is put in canonical form: keys sorted, the last of
several members of one key kept. Headlines:

* `isCanonical_sortKeys`: `sortKeys` gives a canonical value;
* `sortKeys_of_isCanonical`: it leaves a canonical value as it is.
-/

namespace MemoryShell

/-- A JSON value. -/
inductive Json
  | null
  | bool (value : Bool)
  | number (value : Number)
  | string (value : String)
  | array (items : List Json)
  | object (members : List (String × Json))
deriving BEq, Repr, Inhabited

namespace Json

/-! ## Canonical form -/

mutual

/-- Whether the keys of every object in a value increase strictly. -/
def isCanonical : Json → Bool
  | array items => areCanonical items
  | object members => decide (IncreasingKeys members) && haveCanonicalValues members
  | _ => true

/-- Whether all values of a list are canonical. -/
def areCanonical : List Json → Bool
  | [] => true
  | v :: vs => v.isCanonical && areCanonical vs

/-- Whether all members of a list have canonical values. -/
def haveCanonicalValues : List (String × Json) → Bool
  | [] => true
  | (_, v) :: ms => v.isCanonical && haveCanonicalValues ms

end

mutual

/-- The value with the members of each object sorted by key; of several with one key the last
stays. -/
def sortKeys : Json → Json
  | array items => array (sortItems items)
  | object members => object (sortMembers [] members)
  | v => v

/-- The values of a list with their keys sorted. -/
def sortItems : List Json → List Json
  | [] => []
  | v :: vs => v.sortKeys :: sortItems vs

/-- The members `sorted`, with those of a list written into them one after another. -/
def sortMembers (sorted : List (String × Json)) : List (String × Json) → List (String × Json)
  | [] => sorted
  | (k, v) :: ms => sortMembers (insertEntry k v.sortKeys sorted) ms

end

theorem haveCanonicalValues_iff (ms : List (String × Json)) :
    haveCanonicalValues ms = true ↔ ∀ m ∈ ms, m.2.isCanonical = true := by
  induction ms with
  | nil => simp [haveCanonicalValues]
  | cons m ms ih => simp [haveCanonicalValues, ih]

private theorem haveCanonicalValues_insertEntry {k : String} {v : Json} {ms : List (String × Json)}
    (hv : v.isCanonical = true) (h : haveCanonicalValues ms = true) :
    haveCanonicalValues (insertEntry k v ms) = true := by
  rw [haveCanonicalValues_iff] at h ⊢
  intro m hm
  rcases mem_insertEntry hm with rfl | hm
  · exact hv
  · exact h m hm

mutual

theorem isCanonical_sortKeys : (v : Json) → v.sortKeys.isCanonical = true
  | null | bool _ | number _ | string _ => rfl
  | array items => by simpa [sortKeys, isCanonical] using areCanonical_sortItems items
  | object members => by
    have h := isCanonical_sortMembers members [] List.Pairwise.nil rfl
    simpa [sortKeys, isCanonical] using h

theorem areCanonical_sortItems : (vs : List Json) → areCanonical (sortItems vs) = true
  | [] => rfl
  | v :: vs => by
    simp [sortItems, areCanonical, isCanonical_sortKeys v, areCanonical_sortItems vs]

theorem isCanonical_sortMembers : (ms sorted : List (String × Json)) →
    IncreasingKeys sorted → haveCanonicalValues sorted = true →
      IncreasingKeys (sortMembers sorted ms) ∧
        haveCanonicalValues (sortMembers sorted ms) = true
  | [], sorted, hs, hv => by simpa [sortMembers] using ⟨hs, hv⟩
  | (k, v) :: ms, sorted, hs, hv => by
    simpa [sortMembers] using isCanonical_sortMembers ms _
      (OrderedMap.increasing_insertEntry k _ hs)
      (haveCanonicalValues_insertEntry (isCanonical_sortKeys v) hv)

end

mutual

theorem sortKeys_of_isCanonical : (v : Json) → v.isCanonical = true → v.sortKeys = v
  | null, _ | bool _, _ | number _, _ | string _, _ => rfl
  | array items, h => by
    rw [sortKeys, sortItems_of_areCanonical items (by simpa [isCanonical] using h)]
  | object members, h => by
    simp only [isCanonical, Bool.and_eq_true, decide_eq_true_eq] at h
    rw [sortKeys, sortMembers_of_increasing members [] (by simpa using h.1) h.2, List.nil_append]

theorem sortItems_of_areCanonical : (vs : List Json) → areCanonical vs = true → sortItems vs = vs
  | [], _ => rfl
  | v :: vs, h => by
    simp only [areCanonical, Bool.and_eq_true] at h
    rw [sortItems, sortKeys_of_isCanonical v h.1, sortItems_of_areCanonical vs h.2]

theorem sortMembers_of_increasing : (ms sorted : List (String × Json)) →
    IncreasingKeys (sorted ++ ms) → haveCanonicalValues ms = true →
      sortMembers sorted ms = sorted ++ ms
  | [], sorted, _, _ => by simp [sortMembers]
  | (k, v) :: ms, sorted, hs, hv => by
    simp only [haveCanonicalValues, Bool.and_eq_true] at hv
    have hlt : ∀ e ∈ sorted, compare e.1 k = .lt := fun e he =>
      (List.pairwise_append.1 hs).2.2 e he (k, v) (by simp)
    rw [sortMembers, sortKeys_of_isCanonical v hv.1, insertEntry_of_forall_lt hlt,
      sortMembers_of_increasing ms _ (by simpa using hs) hv.2]
    simp

end

end Json

end MemoryShell
