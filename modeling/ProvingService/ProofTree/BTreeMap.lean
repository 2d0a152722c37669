import Mathlib.Data.List.Basic
import Mathlib.Data.List.Nodup

/-!
# Ordered maps

Rust's `BTreeMap<usize, V>` through the operations the proof tree calls: `insert`, `remove`,
`len`, `get_mut(..).unwrap()` and the nearest entries below and above a key. A map is the
list of its entries in increasing key order, so a map out of order cannot be built.
-/

set_option autoImplicit false

namespace ProvingService

/-- `BTreeMap<usize, V>`: its entries, keys strictly increasing. -/
structure BTreeMap (V : Type) where
  entries : List (Nat × V)
  sorted : entries.Pairwise fun a b => a.1 < b.1

namespace BTreeMap

variable {V : Type}

/-- `BTreeMap::new`. -/
def empty : BTreeMap V := ⟨[], .nil⟩

def len (map : BTreeMap V) : Nat := map.entries.length

def keys (map : BTreeMap V) : List Nat := map.entries.map Prod.fst

/-- `range(..key).next_back()`: the entry with the greatest key below `key`. -/
def lastBelow (map : BTreeMap V) (key : Nat) : Option (Nat × V) :=
  (map.entries.filter fun entry => entry.1 < key).getLast?

/-- `range((Excluded(key), Unbounded)).next()`: the entry with the least key above `key`. -/
def firstAbove (map : BTreeMap V) (key : Nat) : Option (Nat × V) :=
  map.entries.find? fun entry => key < entry.1

/-- `remove(&key)`, the removed value dropped as the proof tree drops it. -/
def remove (map : BTreeMap V) (key : Nat) : BTreeMap V :=
  ⟨map.entries.filter fun entry => entry.1 ≠ key, map.sorted.filter _⟩

/-- Sorted insertion into an entry list, with the value it displaces. -/
def insertEntries (key : Nat) (value : V) : List (Nat × V) → List (Nat × V) × Option V
  | [] => ([(key, value)], none)
  | entry :: rest =>
    if key < entry.1 then ((key, value) :: entry :: rest, none)
    else if key = entry.1 then ((key, value) :: rest, some entry.2)
    else (entry :: (insertEntries key value rest).1, (insertEntries key value rest).2)

theorem mem_insertEntries {key : Nat} {value : V} {entries : List (Nat × V)}
    {entry : Nat × V} (member : entry ∈ (insertEntries key value entries).1) :
    entry = (key, value) ∨ entry ∈ entries := by
  induction entries with
  | nil => simpa [insertEntries] using member
  | cons head rest ih =>
    simp only [insertEntries] at member
    split_ifs at member with below same
    · simpa using member
    · rcases List.mem_cons.mp member with rfl | member
      · exact .inl rfl
      · exact .inr (List.mem_cons_of_mem _ member)
    · rcases List.mem_cons.mp member with rfl | member
      · exact .inr (List.mem_cons_self _ _)
      · exact (ih member).imp_right (List.mem_cons_of_mem _)

theorem insertEntries_sorted {key : Nat} {value : V} {entries : List (Nat × V)}
    (sorted : entries.Pairwise fun a b => a.1 < b.1) :
    (insertEntries key value entries).1.Pairwise fun a b => a.1 < b.1 := by
  induction entries with
  | nil => simp [insertEntries]
  | cons head rest ih =>
    rw [List.pairwise_cons] at sorted
    simp only [insertEntries]
    split_ifs with below same
    · refine List.Pairwise.cons (fun entry member => ?_) (.cons sorted.1 sorted.2)
      rcases List.mem_cons.mp member with rfl | member
      · exact below
      · exact below.trans (sorted.1 entry member)
    · refine List.Pairwise.cons (fun entry member => ?_) sorted.2
      exact same ▸ sorted.1 entry member
    · refine List.Pairwise.cons (fun entry member => ?_) (ih sorted.2)
      rcases mem_insertEntries member with rfl | member
      · show head.1 < key
        omega
      · exact sorted.1 entry member

/-- `insert(key, value)`: the new map and the value `key` held before. -/
def insert (map : BTreeMap V) (key : Nat) (value : V) : BTreeMap V × Option V :=
  (⟨(insertEntries key value map.entries).1, insertEntries_sorted map.sorted⟩,
    (insertEntries key value map.entries).2)

/-- An insert adds an entry exactly when it displaces no value. -/
theorem length_insertEntries (key : Nat) (value : V) (entries : List (Nat × V)) :
    (insertEntries key value entries).1.length =
      entries.length + if (insertEntries key value entries).2.isNone then 1 else 0 := by
  induction entries with
  | nil => rfl
  | cons entry rest ih =>
    simp only [insertEntries]
    split_ifs <;> simp_all

private theorem set_keys (key : Nat) (value : V) (entry : Nat × V) :
    (if entry.1 = key then (key, value) else entry).1 = entry.1 := by
  split_ifs with same
  · exact same.symm
  · rfl

/-- `*get_mut(&key).unwrap() = value`: `none` where the `unwrap` panics. -/
def set (map : BTreeMap V) (key : Nat) (value : V) : Option (BTreeMap V) :=
  if key ∈ map.keys then
    some ⟨map.entries.map fun entry => if entry.1 = key then (key, value) else entry,
      List.pairwise_map.mpr (map.sorted.imp fun {a b} less => by
        simpa only [set_keys] using less)⟩
  else none

@[simp] theorem empty_entries : (empty : BTreeMap V).entries = [] := rfl

@[simp] theorem len_empty : (empty : BTreeMap V).len = 0 := rfl

/-! ## A map split at a live key -/

section Split

variable {map : BTreeMap V} {key : Nat} {value : V} {before after : List (Nat × V)}

theorem mem_keys {entry : Nat × V} (member : entry ∈ map.entries) : entry.1 ∈ map.keys :=
  List.mem_map_of_mem _ member

theorem keys_nodup (map : BTreeMap V) : map.keys.Nodup :=
  (List.pairwise_map.mpr map.sorted).imp Nat.ne_of_lt

/-- A live key holds one value. -/
theorem mem_unique {value' : V} (first : (key, value) ∈ map.entries)
    (second : (key, value') ∈ map.entries) : value = value' :=
  (Prod.mk.inj (List.inj_on_of_nodup_map map.keys_nodup first second rfl)).2

/-- Looking a live key up finds its entry. -/
theorem find?_of_mem (member : (key, value) ∈ map.entries) :
    map.entries.find? (fun entry => entry.1 == key) = some (key, value) := by
  cases found : map.entries.find? (fun entry => entry.1 == key) with
  | none => simpa using List.find?_eq_none.mp found _ member
  | some entry =>
    obtain ⟨key', value'⟩ := entry
    obtain rfl : key' = key := by simpa using List.find?_some found
    rw [mem_unique (List.mem_of_find?_eq_some found) member]

theorem exists_split (live : key ∈ map.keys) :
    ∃ before value after, map.entries = before ++ (key, value) :: after := by
  obtain ⟨⟨key, value⟩, member, rfl⟩ := List.mem_map.mp live
  obtain ⟨before, after, split⟩ := List.append_of_mem member
  exact ⟨before, value, after, split⟩

theorem keys_split (split : map.entries = before ++ (key, value) :: after) :
    (∀ entry ∈ before, entry.1 < key) ∧ ∀ entry ∈ after, key < entry.1 := by
  have sorted := map.sorted
  rw [split, List.pairwise_append, List.pairwise_cons] at sorted
  exact ⟨fun entry member => sorted.2.2 entry member _ (List.mem_cons_self _ _),
    sorted.2.1.1⟩

theorem lastBelow_split (split : map.entries = before ++ (key, value) :: after) :
    map.lastBelow key = before.getLast? := by
  obtain ⟨below, above⟩ := keys_split split
  have kept : (before.filter fun entry => entry.1 < key) = before :=
    List.filter_eq_self.mpr fun entry member => by simpa using below entry member
  have dropped : (after.filter fun entry => entry.1 < key) = [] :=
    List.filter_eq_nil_iff.mpr fun entry member => by simpa using (above entry member).le
  simp [lastBelow, split, List.filter_append, kept, dropped]

theorem firstAbove_split (split : map.entries = before ++ (key, value) :: after) :
    map.firstAbove key = after.head? := by
  obtain ⟨below, above⟩ := keys_split split
  have skipped : before.find? (fun entry => key < entry.1) = none :=
    List.find?_eq_none.mpr fun entry member => by simpa using (below entry member).le
  cases after with
  | nil => simp [firstAbove, split, List.find?_append, skipped]
  | cons next rest =>
    have found : key < next.1 := above next (List.mem_cons_self _ _)
    simp [firstAbove, split, List.find?_append, skipped, found]

theorem remove_split (split : map.entries = before ++ (key, value) :: after) :
    (map.remove key).entries = before ++ after := by
  obtain ⟨below, above⟩ := keys_split split
  have keptBefore : (before.filter fun entry => entry.1 ≠ key) = before :=
    List.filter_eq_self.mpr fun entry member => by simpa using (below entry member).ne
  have keptAfter : (after.filter fun entry => entry.1 ≠ key) = after :=
    List.filter_eq_self.mpr fun entry member => by simpa using (above entry member).ne'
  simp only [remove, split, List.filter_append, List.filter_cons, keptBefore, keptAfter]
  simp

theorem set_split (split : map.entries = before ++ (key, value) :: after) (value' : V) :
    ∃ map', map.set key value' = some map' ∧ map'.entries = before ++ (key, value') :: after := by
  obtain ⟨below, above⟩ := keys_split split
  have live : key ∈ map.keys := by simp [keys, split]
  have fixBefore : (before.map fun entry => if entry.1 = key then (key, value') else entry)
      = before :=
    (List.map_congr_left fun entry member => if_neg (below entry member).ne).trans
      (List.map_id _)
  have fixAfter : (after.map fun entry => if entry.1 = key then (key, value') else entry)
      = after :=
    (List.map_congr_left fun entry member => if_neg (above entry member).ne').trans
      (List.map_id _)
  exact ⟨_, if_pos live, by simp [split, fixBefore, fixAfter]⟩

end Split

/-- Inserting a key that is not live puts it between the smaller and the larger keys. -/
theorem insertEntries_fresh {key : Nat} (value : V) {entries : List (Nat × V)}
    (sorted : entries.Pairwise fun a b => a.1 < b.1) (fresh : key ∉ entries.map Prod.fst) :
    ∃ lower upper, entries = lower ++ upper ∧
      insertEntries key value entries = (lower ++ (key, value) :: upper, none) ∧
      (∀ entry ∈ lower, entry.1 < key) ∧ ∀ entry ∈ upper, key < entry.1 := by
  induction entries with
  | nil => exact ⟨[], [], rfl, rfl, by simp, by simp⟩
  | cons head rest ih =>
    rw [List.pairwise_cons] at sorted
    have differs : key ≠ head.1 := fun same => fresh (by simp [same])
    by_cases below : key < head.1
    · refine ⟨[], head :: rest, rfl, by simp [insertEntries, below], by simp, ?_⟩
      intro entry member
      rcases List.mem_cons.mp member with rfl | member
      · exact below
      · exact below.trans (sorted.1 entry member)
    · obtain ⟨lower, upper, split, inserted, lowerBelow, upperAbove⟩ :=
        ih sorted.2 fun member => fresh (List.mem_cons_of_mem _ member)
      refine ⟨head :: lower, upper, by simp [split], ?_, ?_, upperAbove⟩
      · simp [insertEntries, below, differs, inserted]
      · intro entry member
        rcases List.mem_cons.mp member with rfl | member
        · omega
        · exact lowerBelow entry member

theorem insert_fresh {map : BTreeMap V} {key : Nat} (value : V) (fresh : key ∉ map.keys) :
    ∃ lower upper, map.entries = lower ++ upper ∧
      (map.insert key value).1.entries = lower ++ (key, value) :: upper ∧
      (map.insert key value).2 = none ∧
      (∀ entry ∈ lower, entry.1 < key) ∧ ∀ entry ∈ upper, key < entry.1 := by
  obtain ⟨lower, upper, split, inserted, below, above⟩ :=
    insertEntries_fresh value map.sorted fresh
  exact ⟨lower, upper, split, by simp [insert, inserted], by simp [insert, inserted],
    below, above⟩

end BTreeMap

end ProvingService
