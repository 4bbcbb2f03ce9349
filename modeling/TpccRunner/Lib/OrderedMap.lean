import Mathlib

/-!
# Ordered maps

A finite map as the list of its entries in ascending order of their keys, with the
operations of `std::map` that programs use: lookup, insertion, assignment, erasure, lower
bounds and half-open ranges.  What an operation does is said by the lookups after it.
-/

set_option autoImplicit false

namespace TpccRunner.Lib

structure OrderedMap (K V : Type) [LinearOrder K] where
  entries : List (K × V)
  ascending : entries.Pairwise fun first second => first.1 < second.1

namespace OrderedMap

variable {K V W : Type} [LinearOrder K]

def insertEntry (key : K) (value : V) : List (K × V) → List (K × V)
  | [] => [(key, value)]
  | entry :: rest =>
    if key < entry.1 then (key, value) :: entry :: rest
    else if key = entry.1 then (key, value) :: rest
    else entry :: insertEntry key value rest

theorem mem_insertEntry {key : K} {value : V} {entries : List (K × V)} {other : K × V}
    (member : other ∈ insertEntry key value entries) :
    other = (key, value) ∨ other ∈ entries := by
  induction entries with
  | nil => exact .inl (List.mem_singleton.mp member)
  | cons entry rest ih =>
    unfold insertEntry at member
    split at member
    · exact List.mem_cons.mp member
    · split at member
      · exact (List.mem_cons.mp member).imp_right (List.mem_cons_of_mem _)
      · obtain rfl | member := List.mem_cons.mp member
        · exact .inr List.mem_cons_self
        · exact (ih member).imp_right (List.mem_cons_of_mem _)

theorem insertEntry_ascending {key : K} {value : V} {entries : List (K × V)}
    (ascending : entries.Pairwise fun first second => first.1 < second.1) :
    (insertEntry key value entries).Pairwise fun first second => first.1 < second.1 := by
  induction entries with
  | nil => exact List.pairwise_singleton _ _
  | cons entry rest ih =>
    obtain ⟨above, tail⟩ := List.pairwise_cons.mp ascending
    unfold insertEntry
    split
    · rename_i before
      refine List.pairwise_cons.mpr ⟨fun other member => ?_, ascending⟩
      obtain rfl | member := List.mem_cons.mp member
      · exact before
      · exact before.trans (above other member)
    · rename_i notBefore
      split
      · rename_i same
        subst same
        exact List.pairwise_cons.mpr ⟨above, tail⟩
      · rename_i different
        have after : entry.1 < key :=
          lt_of_le_of_ne (not_lt.mp notBefore) (Ne.symm different)
        refine List.pairwise_cons.mpr ⟨fun other member => ?_, ih tail⟩
        obtain rfl | member := mem_insertEntry member
        · exact after
        · exact above other member

def empty : OrderedMap K V := ⟨[], List.Pairwise.nil⟩

def get? (map : OrderedMap K V) (key : K) : Option V := map.entries.lookup key

def insert (map : OrderedMap K V) (key : K) (value : V) : OrderedMap K V :=
  ⟨insertEntry key value map.entries, insertEntry_ascending map.ascending⟩

/-- `try_emplace`: a present key keeps its value. -/
def tryEmplace (map : OrderedMap K V) (key : K) (value : V) : OrderedMap K V :=
  if (map.get? key).isSome then map else map.insert key value

def erase (map : OrderedMap K V) (key : K) : OrderedMap K V :=
  ⟨map.entries.filter fun entry => entry.1 ≠ key, map.ascending.filter _⟩

/-- `lower_bound`: the first entry whose key is not below `low`. -/
def lowerBound (map : OrderedMap K V) (low : K) : Option (K × V) :=
  map.entries.find? fun entry => low ≤ entry.1

def range (map : OrderedMap K V) (low up : K) : List (K × V) :=
  map.entries.filter fun entry => low ≤ entry.1 ∧ entry.1 < up

section Lookup
variable {map : OrderedMap K V} {key other : K} {value : V}

theorem lookup_cons_eq (entry : K × V) (rest : List (K × V)) (key : K) :
    (entry :: rest).lookup key = if key = entry.1 then some entry.2 else rest.lookup key := by
  by_cases same : key = entry.1
  · simp [List.lookup, same]
  · simp [List.lookup, beq_eq_false_iff_ne.mpr same, same]

theorem lookup_eq_none_of_lt {rest : List (K × V)} {key : K}
    (above : ∀ entry ∈ rest, key < entry.1) : rest.lookup key = none := by
  rw [List.lookup_eq_none_iff]
  intro entry member
  simpa using (above entry member).ne

theorem lookup_insertEntry (key : K) (value : V) (entries : List (K × V)) (other : K) :
    (insertEntry key value entries).lookup other =
      if other = key then some value else entries.lookup other := by
  induction entries with
  | nil => exact lookup_cons_eq (key, value) [] other
  | cons entry rest ih =>
    obtain ⟨first, old⟩ := entry
    unfold insertEntry
    split
    · rw [lookup_cons_eq]
    · split
      · rename_i same
        rw [lookup_cons_eq, lookup_cons_eq]
        by_cases here : other = key
        · simp [here]
        · have : ¬ other = first := fun equal => here (equal.trans same.symm)
          simp [here, this]
      · rename_i different
        rw [lookup_cons_eq, lookup_cons_eq, ih]
        by_cases here : other = first
        · simp [here, Ne.symm different]
        · simp [here]

@[simp] theorem get?_empty (key : K) : (empty : OrderedMap K V).get? key = none := rfl

theorem get?_insert (map : OrderedMap K V) (key : K) (value : V) (other : K) :
    (map.insert key value).get? other = if other = key then some value else map.get? other :=
  lookup_insertEntry key value map.entries other

@[simp] theorem get?_insert_self (map : OrderedMap K V) (key : K) (value : V) :
    (map.insert key value).get? key = some value := by
  simp [get?_insert]

theorem get?_insert_of_ne (map : OrderedMap K V) (value : V) (different : other ≠ key) :
    (map.insert key value).get? other = map.get? other := by
  simp [get?_insert, different]

theorem get?_tryEmplace (map : OrderedMap K V) (key : K) (value : V) (other : K) :
    (map.tryEmplace key value).get? other =
      if other = key then some ((map.get? key).getD value) else map.get? other := by
  unfold tryEmplace
  cases present : map.get? key with
  | none => simp [get?_insert]
  | some old =>
    by_cases same : other = key
    · simp [same, present]
    · simp [same]

theorem get?_eq_some_iff : map.get? key = some value ↔ (key, value) ∈ map.entries := by
  obtain ⟨entries, ascending⟩ := map
  change entries.lookup key = some value ↔ (key, value) ∈ entries
  induction entries with
  | nil => simp
  | cons entry rest ih =>
    obtain ⟨first, old⟩ := entry
    obtain ⟨above, tail⟩ := List.pairwise_cons.mp ascending
    rw [lookup_cons_eq]
    by_cases same : key = first
    · subst same
      have absent : (key, value) ∉ rest := fun member =>
        lt_irrefl key (above (key, value) member)
      simp [absent, eq_comm]
    · simp [same, ih tail]

theorem get?_erase (map : OrderedMap K V) (key other : K) :
    (map.erase key).get? other = if other = key then none else map.get? other := by
  apply Option.ext
  intro value
  rw [get?_eq_some_iff]
  by_cases same : other = key
  · simp [erase, same]
  · simp [erase, same, get?_eq_some_iff]

theorem mem_range {low up : K} :
    (key, value) ∈ map.range low up ↔ map.get? key = some value ∧ low ≤ key ∧ key < up := by
  simp [range, get?_eq_some_iff]

theorem lowerBound_eq_some {low : K} (found : map.lowerBound low = some (key, value)) :
    map.get? key = some value ∧ low ≤ key ∧
      ∀ other, low ≤ other → (map.get? other).isSome → key ≤ other := by
  obtain ⟨least, before, after, split, tooLow⟩ := List.find?_eq_some_iff_append.mp found
  refine ⟨?_, by simpa using least, fun other bound present => ?_⟩
  · rw [get?_eq_some_iff, split]
    exact List.mem_append_right _ List.mem_cons_self
  · obtain ⟨value', present⟩ := Option.isSome_iff_exists.mp present
    rw [get?_eq_some_iff, split] at present
    obtain member | member := List.mem_append.mp present
    · have below := tooLow _ member
      simp only [Bool.not_eq_true', decide_eq_false_iff_not] at below
      exact absurd bound below
    · obtain same | member := List.mem_cons.mp member
      · rw [(Prod.mk.inj same).1]
      · have ascending := map.ascending
        rw [split] at ascending
        have tail := (List.pairwise_append.mp ascending).2.1
        exact ((List.pairwise_cons.mp tail).1 _ member).le

theorem lowerBound_eq_none {low : K} (absent : map.lowerBound low = none) :
    ∀ other, low ≤ other → map.get? other = none := by
  intro other bound
  by_contra present
  obtain ⟨value, present⟩ := Option.ne_none_iff_exists'.mp present
  have below := List.find?_eq_none.mp absent _ (get?_eq_some_iff.mp present)
  simp only [decide_eq_true_eq] at below
  exact below bound

theorem nodup_entries (map : OrderedMap K V) : map.entries.Nodup :=
  map.ascending.imp fun less same => absurd (same ▸ less) (lt_irrefl _)

theorem not_mem_erase (map : OrderedMap K V) (key : K) (value : V) :
    (key, value) ∉ (map.erase key).entries := by
  simp [erase]

theorem insert_perm (map : OrderedMap K V) (key : K) (value : V) :
    (map.insert key value).entries.Perm ((key, value) :: (map.erase key).entries) := by
  rw [List.perm_ext_iff_of_nodup (nodup_entries _)
    (List.nodup_cons.mpr ⟨not_mem_erase map key value, nodup_entries _⟩)]
  rintro ⟨other, old⟩
  rw [List.mem_cons, ← get?_eq_some_iff, ← get?_eq_some_iff, get?_insert, get?_erase]
  by_cases same : other = key
  · simp [same, eq_comm]
  · simp [same]

theorem erase_perm (present : map.get? key = some value) :
    map.entries.Perm ((key, value) :: (map.erase key).entries) := by
  rw [List.perm_ext_iff_of_nodup (nodup_entries _)
    (List.nodup_cons.mpr ⟨not_mem_erase map key value, nodup_entries _⟩)]
  rintro ⟨other, old⟩
  rw [List.mem_cons, ← get?_eq_some_iff, ← get?_eq_some_iff, get?_erase]
  by_cases same : other = key
  · simp [same, present, eq_comm]
  · simp [same]

theorem erase_entries_of_absent (absent : map.get? key = none) :
    (map.erase key).entries = map.entries := by
  apply List.filter_eq_self.mpr
  rintro ⟨other, old⟩ member
  have present := get?_eq_some_iff.mpr member
  by_contra same
  simp only [ne_eq, decide_not, Bool.not_eq_true', decide_eq_false_iff_not, not_not] at same
  simp [same, absent] at present

end Lookup

section OfList

def ofList (entries : List (K × V)) : OrderedMap K V :=
  entries.foldl (fun map entry => map.insert entry.1 entry.2) empty

theorem foldl_insert_cases (entries : List (K × V)) (map : OrderedMap K V) (key : K) :
    (entries.foldl (fun map entry => map.insert entry.1 entry.2) map).get? key = map.get? key ∧
        (∀ entry ∈ entries, entry.1 ≠ key) ∨
      ∃ value, (key, value) ∈ entries ∧
        (entries.foldl (fun map entry => map.insert entry.1 entry.2) map).get? key =
          some value := by
  induction entries generalizing map with
  | nil => simp
  | cons entry rest ih =>
    obtain ⟨kept, absent⟩ | ⟨value, member, found⟩ := ih (map.insert entry.1 entry.2)
    · by_cases same : key = entry.1
      · refine .inr ⟨entry.2, by simp [same], ?_⟩
        rw [List.foldl_cons, kept, same, get?_insert_self]
      · refine .inl ⟨?_, ?_⟩
        · rw [List.foldl_cons, kept, get?_insert_of_ne _ _ same]
        · intro other member
          obtain rfl | member := List.mem_cons.mp member
          · exact Ne.symm same
          · exact absent other member
    · exact .inr ⟨value, List.mem_cons_of_mem _ member, found⟩

theorem mem_of_get?_ofList {entries : List (K × V)} {key : K} {value : V}
    (found : (ofList entries).get? key = some value) : (key, value) ∈ entries := by
  obtain ⟨kept, -⟩ | ⟨other, member, stored⟩ := foldl_insert_cases entries empty key
  · exact absurd (found.symm.trans kept) (by simp)
  · cases Option.some.inj (found.symm.trans stored)
    exact member

theorem get?_ofList_isSome {entries : List (K × V)} {key : K} {value : V}
    (member : (key, value) ∈ entries) : ((ofList entries).get? key).isSome := by
  obtain ⟨-, absent⟩ | ⟨other, -, stored⟩ := foldl_insert_cases entries empty key
  · exact absurd rfl (absent _ member)
  · exact Option.isSome_iff_exists.mpr ⟨other, stored⟩

end OfList

section Apply
variable {map : OrderedMap K V}

/-- Going through the entries of another map, each of which changes its own key only, is
the same as changing every key on its own. -/
theorem get?_foldl (apply : OrderedMap K V → K × W → OrderedMap K V)
    (effect : W → Option V → Option V)
    (local' : ∀ map key change other, (apply map (key, change)).get? other =
      if other = key then effect change (map.get? key) else map.get? other)
    (changes : OrderedMap K W) (map : OrderedMap K V) (key : K) :
    (changes.entries.foldl apply map).get? key =
      match changes.get? key with
      | none => map.get? key
      | some change => effect change (map.get? key) := by
  obtain ⟨entries, ascending⟩ := changes
  change (entries.foldl apply map).get? key = match entries.lookup key with
    | none => map.get? key
    | some change => effect change (map.get? key)
  induction entries generalizing map with
  | nil => rfl
  | cons entry rest ih =>
    obtain ⟨first, change⟩ := entry
    obtain ⟨above, tail⟩ := List.pairwise_cons.mp ascending
    rw [List.foldl_cons, ih (apply map (first, change)) tail, local', lookup_cons_eq]
    by_cases same : key = first
    · subst same
      simp [lookup_eq_none_of_lt above]
    · simp [same]

end Apply

end OrderedMap

end TpccRunner.Lib
