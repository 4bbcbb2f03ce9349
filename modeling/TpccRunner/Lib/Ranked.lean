import Mathlib

/-!
# Arrays indexed by rank

A sparse array keeps one value for each member of a set of keys, in ascending
order of the keys, and finds the slot of a key by counting the smaller ones.
`GreatestBelow` is the lookup such an array is searched with.
-/

set_option autoImplicit false

namespace TpccRunner.Lib

universe u v

section Greatest
variable {ι : Type u} [LinearOrder ι]

/-- The greatest member of `keys` strictly below `bound`, if there is one. -/
def GreatestBelow (keys : Set ι) (bound : ι) : Option ι → Prop
  | some key => IsGreatest {other ∈ keys | other < bound} key
  | none => ∀ key ∈ keys, bound ≤ key

variable {keys : Set ι} {bound : ι}

theorem GreatestBelow.unique {first second : Option ι} (one : GreatestBelow keys bound first)
    (two : GreatestBelow keys bound second) : first = second := by
  cases first with
  | none =>
    cases second with
    | none => rfl
    | some key => exact absurd (one key two.1.1) (not_le.mpr two.1.2)
  | some key =>
    cases second with
    | none => exact absurd (two key one.1.1) (not_le.mpr one.1.2)
    | some other => exact congrArg some (IsGreatest.unique one two)

theorem GreatestBelow.congr {keys' : Set ι} (same : ∀ key < bound, key ∈ keys ↔ key ∈ keys')
    {found : Option ι} (greatest : GreatestBelow keys bound found) :
    GreatestBelow keys' bound found := by
  cases found with
  | none =>
    intro key member
    by_contra below
    rw [not_le] at below
    exact absurd (greatest key ((same key below).mpr member)) (not_le.mpr below)
  | some key =>
    obtain ⟨⟨member, below⟩, upper⟩ := greatest
    refine ⟨⟨(same key below).mp member, below⟩, ?_⟩
    rintro other ⟨otherMem, otherBelow⟩
    exact upper ⟨(same other otherBelow).mpr otherMem, otherBelow⟩

end Greatest

section Ranked
variable {ι : Type u} [LinearOrder ι] {α : Type v}

def rank (keys : Finset ι) (key : ι) : Nat := (keys.filter (· < key)).card

def ranked (keys : Finset ι) (value : ι → α) : List α := (keys.sort (· ≤ ·)).map value

variable {keys : Finset ι} {value : ι → α} {key : ι}

theorem ranked_congr {value' : ι → α} (same : ∀ key ∈ keys, value key = value' key) :
    ranked keys value = ranked keys value' := by
  refine List.map_congr_left fun key member => same key ?_
  simpa using member

@[simp] theorem ranked_empty : ranked ∅ value = [] := by simp [ranked]

theorem rank_eq_countP : rank keys key = (keys.sort (· ≤ ·)).countP (· < key) := by
  rw [List.countP_eq_length_filter, rank,
    ← List.toFinset_card_of_nodup ((Finset.sort_nodup keys _).filter _), List.toFinset_filter,
    Finset.sort_toFinset]
  simp

theorem countP_below_head {head : ι} {rest : List ι} (below : key ≤ head)
    (ascending : ∀ other ∈ rest, head < other) : (head :: rest).countP (· < key) = 0 := by
  rw [List.countP_eq_zero]
  intro other member
  rcases List.mem_cons.mp member with rfl | behind
  · simpa using below
  · simpa using below.trans (ascending other behind).le

theorem getElem?_countP {sorted : List ι} (ascending : sorted.Pairwise (· < ·))
    (member : key ∈ sorted) : sorted[sorted.countP (· < key)]? = some key := by
  induction sorted with
  | nil => cases member
  | cons head rest ih =>
    obtain ⟨above, tail⟩ := List.pairwise_cons.mp ascending
    rcases List.mem_cons.mp member with rfl | behind
    · rw [countP_below_head le_rfl above]
      rfl
    · rw [List.countP_cons_of_pos (by simpa using above key behind)]
      simpa using ih tail behind

theorem insertIdx_countP {sorted : List ι} (ascending : sorted.Pairwise (· < ·))
    (absent : key ∉ sorted) :
    (sorted.insertIdx (sorted.countP (· < key)) key).Pairwise (· < ·) := by
  induction sorted with
  | nil => simp
  | cons head rest ih =>
    obtain ⟨above, tail⟩ := List.pairwise_cons.mp ascending
    have differs : key ≠ head := fun same => absent (by simp [same])
    rcases lt_or_gt_of_ne differs with before | after
    · rw [countP_below_head before.le above]
      refine List.pairwise_cons.mpr ⟨fun other member => ?_, ascending⟩
      rcases List.mem_cons.mp member with rfl | behind
      · exact before
      · exact before.trans (above other behind)
    · rw [List.countP_cons_of_pos (by simpa using after), List.insertIdx_succ_cons]
      refine List.pairwise_cons.mpr ⟨fun other member => ?_, ih tail fun behind =>
        absent (List.mem_cons_of_mem _ behind)⟩
      rcases List.eq_or_mem_of_mem_insertIdx member with rfl | behind
      · exact after
      · exact above other behind

theorem ranked_get (member : key ∈ keys) :
    (ranked keys value)[rank keys key]? = some (value key) := by
  rw [ranked, List.getElem?_map, rank_eq_countP,
    getElem?_countP (Finset.sortedLT_sort keys).pairwise (by simpa using member)]
  rfl

theorem sort_insert_rank (absent : key ∉ keys) :
    (insert key keys).sort (· ≤ ·) = (keys.sort (· ≤ ·)).insertIdx (rank keys key) key := by
  have ascending := insertIdx_countP (Finset.sortedLT_sort keys).pairwise
    (show key ∉ keys.sort (· ≤ ·) by simpa using absent)
  rw [rank_eq_countP]
  refine List.Perm.eq_of_pairwise ?_ (Finset.sortedLT_sort _).pairwise ascending ?_
  · intro a b _ _ less greater
    exact absurd less greater.not_gt
  · rw [List.perm_ext_iff_of_nodup (Finset.sort_nodup _ _) (ascending.imp fun less => less.ne)]
    intro other
    have bound : (keys.sort (· ≤ ·)).countP (· < key) ≤ (keys.sort (· ≤ ·)).length :=
      List.countP_le_length
    rw [List.mem_insertIdx bound]
    simp

theorem ranked_insert (absent : key ∉ keys) (entry : α) :
    (ranked keys value).insertIdx (rank keys key) entry =
      ranked (insert key keys) (Function.update value key entry) := by
  have unchanged : ranked keys value = ranked keys (Function.update value key entry) := by
    refine ranked_congr fun other member => ?_
    rw [Function.update_of_ne (by rintro rfl; exact absent member)]
  rw [unchanged, ranked, ranked, sort_insert_rank absent, List.map_insertIdx]
  simp

theorem ranked_set (member : key ∈ keys) (entry : α) :
    (ranked keys value).set (rank keys key) entry =
      ranked keys (Function.update value key entry) := by
  have nodup := Finset.sort_nodup keys (· ≤ ·)
  have here := getElem?_countP (Finset.sortedLT_sort keys).pairwise
    (show key ∈ keys.sort (· ≤ ·) by simpa using member)
  rw [← rank_eq_countP] at here
  refine List.ext_getElem? fun index => ?_
  rw [List.getElem?_set]
  simp only [ranked, List.getElem?_map, List.length_map]
  obtain ⟨bound, atRank⟩ := List.getElem?_eq_some_iff.mp here
  split
  next same =>
    subst same
    rw [here]
    simp
  next differs =>
    cases atIndex : (keys.sort (· ≤ ·))[index]? with
    | none => rfl
    | some other =>
      obtain ⟨indexBound, atOther⟩ := List.getElem?_eq_some_iff.mp atIndex
      have distinct : other ≠ key := by
        rintro rfl
        exact differs ((nodup.getElem_inj_iff).mp (atRank.trans atOther.symm))
      simp [Function.update_of_ne distinct]

theorem ranked_getLast {greatest : ι} (isGreatest : IsGreatest (keys : Set ι) greatest) :
    (ranked keys value).getLast? = some (value greatest) := by
  have member : greatest ∈ keys.sort (· ≤ ·) := by simpa using isGreatest.1
  obtain ⟨last, lastEq⟩ := Option.isSome_iff_exists.mp
    (List.getLast?_isSome.mpr (List.ne_nil_of_mem member))
  rw [ranked, List.getLast?_map, lastEq]
  have lastMem : last ∈ keys := by simpa using List.mem_of_getLast? lastEq
  have upper : greatest ≤ last := by
    obtain ⟨front, split⟩ := List.getLast?_eq_some_iff.mp lastEq
    have ascending := (Finset.sortedLT_sort keys).pairwise
    rw [split] at ascending member
    rcases List.mem_append.mp member with behind | same
    · exact ((List.pairwise_append.mp ascending).2.2 _ behind _ (by simp)).le
    · exact (List.mem_singleton.mp same).le
  rw [le_antisymm (isGreatest.2 lastMem) upper]
  rfl

end Ranked

end TpccRunner.Lib
