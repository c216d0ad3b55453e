import Mathlib.Data.List.Nodup
import Mathlib.Data.List.Perm.Basic
import MemoryShell.Execution
import MemoryShell.Proofs.Bytes

/-!
# The commands registered

A registry answers a name with the command registered last under it, and this is all there is to
it: however the commands came to be registered, and in whichever order they are stored, what is
shown of them is the same. Headlines:

* `OrderedMap.ext_get?`: a map is known by its answers;
* `exists_run_of_sorted`: what lies between two elements of a sorted list;
* `Registry.completions_run`: the names that begin with a text;
* `Registry.StoredAs.eq_names`, `Registry.StoredAs.eq_listing`: what comes of sorting;
* `last_registration_decides`: all that is shown, for every sequence of registrations.
-/

namespace MemoryShell

open MemoryShell.Text (bytes bytes_inj bytes_lt_bytes)

/-! ## Maps by their answers -/

namespace OrderedMap

variable {α β : Type} [Ord α] [Std.TransOrd α] [Std.LawfulEqOrd α] [DecidableEq α]

theorem get?_eq_some_iff {m : OrderedMap α β} {key : α} {value : β} :
    m.get? key = some value ↔ (key, value) ∈ m.entries := by
  unfold get?
  constructor
  · intro h
    obtain ⟨e, he, rfl⟩ := Option.map_eq_some_iff.mp h
    obtain rfl : e.1 = key := by simpa using List.find?_some he
    exact List.mem_of_find?_eq_some he
  · intro h
    obtain ⟨e, he⟩ : ∃ e, m.entries.find? (fun e => e.1 == key) = some e := by
      rw [← Option.isSome_iff_exists, List.find?_isSome]
      exact ⟨_, h, by simp⟩
    have hkey : e.1 = key := by simpa using List.find?_some he
    have hsame : e = (key, value) :=
      List.inj_on_of_nodup_map m.nodup_keys (List.mem_of_find?_eq_some he) h hkey
    rw [he, hsame]
    rfl

/-- **A map is known by its answers.** -/
theorem ext_get? {m n : OrderedMap α β} (h : ∀ key, m.get? key = n.get? key) : m = n := by
  have hperm : m.entries.Perm n.entries := by
    refine (List.perm_ext_iff_of_nodup m.nodup_keys.of_map n.nodup_keys.of_map).mpr fun e => ?_
    rw [← get?_eq_some_iff, ← get?_eq_some_iff, h]
  refine ext (hperm.eq_of_pairwise (fun a b _ _ hab hba => ?_) m.increasing n.increasing)
  rw [Std.OrientedCmp.gt_of_lt hab] at hba
  cases hba

end OrderedMap

/-! ## Sorted lists -/

/-- **Of a sorted list, what lies between chosen elements stands in one run**, if whatever is
between two chosen elements is chosen. -/
theorem exists_run_of_sorted {α : Type} {lt : α → α → Prop} {p : α → Bool} {l : List α}
    (h : l.Pairwise lt)
    (hbetween : ∀ a b c, lt a b → lt b c → p a = true → p c = true → p b = true) :
    ∃ front behind, l = front ++ l.filter p ++ behind ∧ ∀ a ∈ front ++ behind, p a = false := by
  induction l with
  | nil => exact ⟨[], [], rfl, fun a ha => absurd ha List.not_mem_nil⟩
  | cons a l ih =>
    obtain ⟨hfirst, hrest⟩ := List.pairwise_cons.mp h
    obtain ⟨front, behind, hl, hout⟩ := ih hrest
    cases hp : p a with
    | false =>
      refine ⟨a :: front, behind, ?_, List.forall_mem_cons.mpr ⟨hp, hout⟩⟩
      rw [List.filter_cons_of_neg (by simp [hp]), List.cons_append, List.cons_append, ← hl]
    | true =>
      rw [List.filter_cons_of_pos hp]
      cases hrun : l.filter p with
      | nil =>
        rw [hrun, List.append_nil] at hl
        exact ⟨[], front ++ behind, by rw [← hl]; rfl, hout⟩
      | cons c cs =>
        -- anything in front would lie between the first element and the run
        have hfront : front = [] := by
          refine List.eq_nil_iff_forall_not_mem.mpr fun b hb => ?_
          have hc : c ∈ l.filter p := by simp [hrun]
          have hbc : lt b c := by
            rw [hl, List.append_assoc, List.pairwise_append] at hrest
            exact hrest.2.2 b hb c (List.mem_append_left _ hc)
          have hab : lt a b := hfirst b (by rw [hl]; simp [hb])
          have hpb := hbetween a b c hab hbc hp (List.mem_filter.mp hc).2
          rw [hout b (List.mem_append_left _ hb)] at hpb
          cases hpb
        refine ⟨[], behind, ?_, fun b hb => hout b (List.mem_append_right _ hb)⟩
        rw [hfront, hrun] at hl
        exact congrArg (a :: ·) hl

/-- What lies between two texts with one beginning has it too. -/
theorem startsWith_of_between {start a b c : String} (hab : a < b) (hbc : b < c)
    (ha : a.startsWith start = true) (hc : c.startsWith start = true) :
    b.startsWith start = true := by
  rw [String.startsWith_string_iff] at ha hc ⊢
  rw [String.lt_iff] at hab hbc
  generalize a.toList = as at *
  generalize b.toList = bs at *
  generalize c.toList = cs at *
  generalize start.toList = ss at *
  induction ss generalizing as bs cs with
  | nil => exact List.nil_prefix
  | cons s ss ih =>
    obtain ⟨as, rfl⟩ := ha
    obtain ⟨cs, rfl⟩ := hc
    cases bs with
    | nil => exact absurd hab (List.not_lt_nil _)
    | cons b bs =>
      rw [List.cons_append, List.cons_lt_cons_iff] at hab hbc
      rcases hab with hsb | ⟨rfl, hab⟩ <;> rcases hbc with hbs | ⟨hbs, hbc⟩
      · exact absurd (Char.lt_trans hsb hbs) (Char.lt_irrefl s)
      · exact absurd (hbs ▸ hsb) (Char.lt_irrefl _)
      · exact absurd hbs (Char.lt_irrefl _)
      · have hrest := ih _ _ hab _ hbc (List.prefix_append ss as) (List.prefix_append ss cs)
        exact List.cons_prefix_cons.mpr ⟨rfl, hrest⟩

/-- There is one way to sort what has different keys. -/
theorem eq_of_sorted {α : Type} (key : α → String) {xs ys : List α} (hperm : xs.Perm ys)
    (hxs : xs.Pairwise fun a b => bytes (key a) ≤ bytes (key b))
    (hys : ys.Pairwise fun a b => key a < key b) : xs = ys := by
  have hnodup : (ys.map key).Nodup :=
    List.Pairwise.map _ (fun a b hlt heq => String.lt_irrefl _ (heq ▸ hlt)) hys
  have hsorted : ys.Pairwise fun a b => bytes (key a) ≤ bytes (key b) :=
    hys.imp fun hlt => List.le_of_lt (bytes_lt_bytes hlt)
  refine hperm.eq_of_pairwise (fun a b ha hb hab hba => ?_) hxs hsorted
  have hkey : key a = key b := bytes_inj (List.le_antisymm hab hba)
  exact List.inj_on_of_nodup_map hnodup (hperm.mem_iff.mp ha) hb hkey

namespace Registry

/-! ## What a registry shows -/

/-- The commands in the order of their names. -/
def inOrder (r : Registry) : List Command := r.commands.entries.map Prod.snd

/-- The names in order, each with the description of its command. -/
def listing (r : Registry) : List (String × String) :=
  r.manual.map fun e => (e.name, e.description)

/-- Every command stands under its own name. -/
def IsNamed (r : Registry) : Prop := ∀ name c, r.get? name = some c → c.name = name

variable {r : Registry}

theorem ext_get? {r' : Registry} (h : ∀ name, r.get? name = r'.get? name) : r = r' :=
  congrArg Registry.mk (OrderedMap.ext_get? h)

theorem mem_names_iff {name : String} : name ∈ r.names ↔ ∃ c, r.get? name = some c := by
  simp only [Registry.names, OrderedMap.keys, Registry.get?, OrderedMap.get?_eq_some_iff]
  simp

theorem names_increasing (r : Registry) : r.names.Pairwise fun a b => a < b :=
  List.Pairwise.map _ (fun _ _ h => compareOfLessAndEq_eq_lt.mp h) r.commands.increasing

theorem listing_eq (r : Registry) :
    r.listing = r.inOrder.map fun c => (c.name, c.description) := by
  rw [listing, manual, inOrder, List.map_map, List.map_map]
  rfl

/-- The names that begin with a text stand next to each other. -/
theorem completions_run (r : Registry) (start : String) :
    ∃ front behind, r.names = front ++ r.completions start ++ behind ∧
      (∀ name ∈ r.completions start, name.startsWith start = true) ∧
      ∀ name ∈ front ++ behind, name.startsWith start = false := by
  obtain ⟨front, behind, hnames, hout⟩ := exists_run_of_sorted (p := (·.startsWith start))
    r.names_increasing fun _ _ _ => startsWith_of_between
  exact ⟨front, behind, hnames, fun name hname => (List.mem_filter.mp hname).2, hout⟩

section Named

variable (hr : r.IsNamed)
include hr

theorem IsNamed.of_mem_entries {e : String × Command} (he : e ∈ r.commands.entries) :
    e.2.name = e.1 :=
  hr e.1 e.2 (OrderedMap.get?_eq_some_iff.mpr he)

theorem IsNamed.mem_inOrder_iff {c : Command} : c ∈ r.inOrder ↔ r.get? c.name = some c := by
  rw [Registry.get?, OrderedMap.get?_eq_some_iff, inOrder, List.mem_map]
  constructor
  · rintro ⟨e, he, rfl⟩
    rwa [hr.of_mem_entries he]
  · exact fun hc => ⟨_, hc, rfl⟩

theorem IsNamed.map_name_inOrder : r.inOrder.map (·.name) = r.names := by
  rw [inOrder, List.map_map, names, OrderedMap.keys]
  exact List.map_congr_left fun e he => hr.of_mem_entries he

theorem IsNamed.map_fst_listing : r.listing.map Prod.fst = r.names := by
  rw [listing_eq, List.map_map, ← hr.map_name_inOrder]
  rfl

/-- A name is listed with what its command says of itself. -/
theorem IsNamed.mem_listing_iff {name text : String} :
    (name, text) ∈ r.listing ↔ (r.get? name).map (·.description) = some text := by
  rw [listing_eq, List.mem_map, Option.map_eq_some_iff]
  constructor
  · rintro ⟨c, hc, heq⟩
    obtain ⟨rfl, rfl⟩ := Prod.mk.inj heq
    exact ⟨c, hr.mem_inOrder_iff.mp hc, rfl⟩
  · rintro ⟨c, hc, rfl⟩
    obtain rfl := hr name c hc
    exact ⟨c, hr.mem_inOrder_iff.mpr hc, rfl⟩

end Named

/-! ## In whichever order commands are stored -/

/-- A table of all the commands of a registry, each once, in any order. -/
structure StoredAs (r : Registry) (table : List Command) : Prop where
  nodup : (table.map (·.name)).Nodup
  mem_iff : ∀ c, c ∈ table ↔ r.get? c.name = some c

/-- The tables of a registry hold its commands in some order. -/
theorem IsNamed.storedAs_iff {table : List Command} (hr : r.IsNamed) :
    r.StoredAs table ↔ table.Perm r.inOrder := by
  have hnodup : (r.inOrder.map (·.name)).Nodup := hr.map_name_inOrder ▸ r.commands.nodup_keys
  constructor
  · intro h
    refine (List.perm_ext_iff_of_nodup h.nodup.of_map hnodup.of_map).mpr fun c => ?_
    rw [h.mem_iff, hr.mem_inOrder_iff]
  · intro h
    exact ⟨(h.map _).nodup_iff.mpr hnodup, fun c => by rw [h.mem_iff, hr.mem_inOrder_iff]⟩

section Stored

variable {table : List Command} (h : r.StoredAs table) (hr : r.IsNamed)
include h hr

/-- **The names in a table, sorted by their bytes, are the names of the registry.** -/
theorem StoredAs.eq_names {sorted : List String} (hperm : sorted.Perm (table.map (·.name)))
    (hsorted : sorted.Pairwise fun a b => bytes a ≤ bytes b) : sorted = r.names := by
  have hnames := (hr.storedAs_iff.mp h).map (·.name)
  rw [hr.map_name_inOrder] at hnames
  exact eq_of_sorted id (hperm.trans hnames) hsorted r.names_increasing

/-- **So are the names with their descriptions, sorted by the names**, the listing. -/
theorem StoredAs.eq_listing {sorted : List (String × String)}
    (hperm : sorted.Perm (table.map fun c => (c.name, c.description)))
    (hsorted : sorted.Pairwise fun a b => bytes a.1 ≤ bytes b.1) : sorted = r.listing := by
  have hpairs := (hr.storedAs_iff.mp h).map fun c => (c.name, c.description)
  rw [← listing_eq] at hpairs
  have hincreasing : r.listing.Pairwise fun a b => a.1 < b.1 := by
    rw [← List.pairwise_map (f := Prod.fst), hr.map_fst_listing]
    exact r.names_increasing
  exact eq_of_sorted Prod.fst (hperm.trans hpairs) hsorted hincreasing

end Stored

end Registry

/-! ## Registrations one after another -/

/-- A call that adds commands to a shell. -/
inductive Registration
  | register (c : Command)
  | extend (cs : List Command)

/-- The commands that a call adds, in order. -/
def Registration.commands : Registration → List Command
  | .register c => [c]
  | .extend cs => cs

/-- The registry after a call. -/
def Registry.take (r : Registry) : Registration → Registry
  | .register c => r.register c
  | .extend cs => r.extend cs

/-- How the commands of a shell came to be registered: whether the built-in ones are among them,
and the calls since. -/
structure Setup where
  withBuiltins : Bool
  calls : List Registration

namespace Setup

/-- The registry that comes of it. -/
def registry (p : Setup) : Registry :=
  p.calls.foldl Registry.take (if p.withBuiltins then .builtins else .empty)

/-- All commands registered, also those replaced since, in order. -/
def registered (p : Setup) : List Command :=
  (if p.withBuiltins then Builtin.all.map Builtin.command else []) ++
    p.calls.flatMap Registration.commands

theorem registry_eq (p : Setup) : p.registry = Registry.empty.extend p.registered := by
  have hcalls (r : Registry) :
      p.calls.foldl Registry.take r = r.extend (p.calls.flatMap Registration.commands) := by
    induction p.calls generalizing r with
    | nil => rfl
    | cons call calls ih =>
      have hcall : r.take call = r.extend call.commands := by cases call <;> rfl
      rw [List.foldl_cons, ih, hcall, List.flatMap_cons, Registry.extend, Registry.extend,
        Registry.extend, List.foldl_append]
  rw [registry, hcalls, registered, Registry.extend, Registry.extend, List.foldl_append]
  cases p.withBuiltins <;> rfl

theorem get?_registry (p : Setup) (name : String) :
    p.registry.get? name = Registry.lastNamed? p.registered name := by
  rw [registry_eq, Registry.get?_extend_eq]
  exact Option.or_none

theorem isNamed_registry (p : Setup) : p.registry.IsNamed := by
  intro name c hc
  rw [get?_registry] at hc
  exact (Registry.of_lastNamed? hc).2

theorem registry_eq_of_lastNamed? {p q : Setup}
    (h : ∀ name, Registry.lastNamed? p.registered name = Registry.lastNamed? q.registered name) :
    p.registry = q.registry :=
  Registry.ext_get? fun name => by rw [get?_registry, get?_registry, h]

end Setup

/-- **The last registration decides**, for every sequence of calls. A name stands for the command
registered last under it. The names shown are the ones registered, each once, increasing byte by
byte; the listing has the same names in the same order, each with what its command says of itself;
and the names that begin with a text are one run of all names. Names and listing are also what comes
of sorting a table in which the commands are stored in any other order.

Two sequences after which every name has the same last command have the same names, listing and
completions, and the same comes of every request for help and of every line. -/
theorem last_registration_decides (p : Setup) :
    (∀ name, p.registry.get? name = Registry.lastNamed? p.registered name) ∧
    (p.registry.names.Pairwise fun a b => bytes a < bytes b) ∧
    (∀ name, name ∈ p.registry.names ↔ ∃ c ∈ p.registered, c.name = name) ∧
    (p.registry.listing.map Prod.fst = p.registry.names ∧ ∀ name text,
      (name, text) ∈ p.registry.listing ↔
        (p.registry.get? name).map (·.description) = some text) ∧
    (∀ start, ∃ front behind, p.registry.names = front ++ p.registry.completions start ++ behind ∧
      (∀ name ∈ p.registry.completions start, name.startsWith start = true) ∧
      ∀ name ∈ front ++ behind, name.startsWith start = false) ∧
    (∀ table, p.registry.StoredAs table →
      (∀ sorted : List String, sorted.Perm (table.map (·.name)) →
        (sorted.Pairwise fun a b => bytes a ≤ bytes b) → sorted = p.registry.names) ∧
      ∀ sorted : List (String × String),
        sorted.Perm (table.map fun c => (c.name, c.description)) →
        (sorted.Pairwise fun a b => bytes a.1 ≤ bytes b.1) → sorted = p.registry.listing) ∧
    ∀ q : Setup,
      (∀ name, Registry.lastNamed? p.registered name = Registry.lastNamed? q.registered name) →
      p.registry.names = q.registry.names ∧ p.registry.listing = q.registry.listing ∧
      (∀ start, p.registry.completions start = q.registry.completions start) ∧
      (∀ args s, Builtin.help.run p.registry.manual args s =
        Builtin.help.run q.registry.manual args s) ∧
      ∀ messages line s, p.registry.execute messages line s =
        q.registry.execute messages line s := by
  have hnamed := p.isNamed_registry
  refine ⟨p.get?_registry, ?_, fun name => ?_, ⟨hnamed.map_fst_listing, fun name text =>
    hnamed.mem_listing_iff⟩, p.registry.completions_run, fun table htable => ⟨fun sorted =>
    htable.eq_names hnamed, fun sorted => htable.eq_listing hnamed⟩, fun q hlast => ?_⟩
  · exact p.registry.names_increasing.imp bytes_lt_bytes
  · rw [Registry.mem_names_iff, ← Registry.exists_lastNamed?_iff]
    simp only [p.get?_registry]
  · rw [Setup.registry_eq_of_lastNamed? hlast]
    exact ⟨rfl, rfl, fun _ => rfl, fun _ _ => rfl, fun _ _ _ => rfl⟩

/-- A built-in command replaced twice or once, with a name beyond ASCII before or after it, and a
table that holds the commands the other way round. -/
theorem last_registration_decides_replaced :
    let tool (name text : String) : Command := ⟨⟨name, text, name⟩, fun _ _ s => .silent s⟩
    let p : Setup := ⟨true, [.extend [tool "ls" "old", tool "é" "e"], .register (tool "ls" "new")]⟩
    let q : Setup := ⟨true, [.register (tool "ls" "new"), .extend [], .register (tool "é" "e")]⟩
    let table := p.registry.inOrder.reverse
    (p.registry.StoredAs table ∧
      ∀ name, Registry.lastNamed? p.registered name = Registry.lastNamed? q.registered name) ∧
    p.registry.get? "ls" = some (tool "ls" "new") ∧
    p.registry.names =
      ["cat", "cd", "clear", "echo", "help", "ls", "mkdir", "pwd", "rm", "touch", "é"] ∧
    (∀ sorted : List String, sorted.Perm (table.map (·.name)) →
      (sorted.Pairwise fun a b => bytes a ≤ bytes b) → sorted = p.registry.names) ∧
    p.registry.listing = q.registry.listing := by
  intro tool p q table
  have htable : p.registry.StoredAs table :=
    p.isNamed_registry.storedAs_iff.mpr (List.reverse_perm _)
  have hlast (name : String) :
      Registry.lastNamed? p.registered name = Registry.lastNamed? q.registered name := by
    by_cases hls : "ls" = name
    · rw [← hls]
      rfl
    · simp only [Registry.lastNamed?, Setup.registered, p, q, tool,
        List.findRev?_eq_find?_reverse]
      by_cases he : "é" = name <;> simp [Registration.commands, hls, he]
  obtain ⟨hget, -, -, -, -, hstored, hsame⟩ := last_registration_decides p
  refine ⟨⟨htable, hlast⟩, (hget "ls").trans rfl, by decide +kernel, (hstored table htable).1,
    (hsame q hlast).2.1⟩

end MemoryShell
