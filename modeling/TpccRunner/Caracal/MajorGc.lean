import TpccRunner.Caracal.MinorGc

/-!
# The major collection

`MajorGC` of `major_gc.hpp` with `GlobalVersionArray::major_gc`, as a machine whose steps are
the turns of the two loops.  No other thread holds the lock of an array meanwhile.

The inner loop neither erases a slot nor advances its iterator, so once it has deleted a
version it deletes the same version for ever.  The entries are tuples with a reference to an
array, and an assignment to such a tuple assigns to the array itself: `versions_.erase`
copies the array of every later entry over the array of the entry before it.  The collection
is safe where it has nothing to delete and no other array to copy.
-/

set_option autoImplicit false

namespace TpccRunner.Caracal.MajorGC

open TpccRunner.Lib TpccRunner.Utils
open SortedVector (Ascending)

/-- A tuple of `versions_`; arrays are known by their addresses. -/
structure Entry where
  epoch : Nat
  version : Nat
  array : Nat
  deriving DecidableEq

/-- The constant `k_`. -/
def k : Nat := 4

/-- `cur_epoch - k_` in 64 bits. -/
def oldest (curEpoch : Nat) : Nat := (curEpoch + (2 ^ 64 - k)) % 2 ^ 64

inductive Pc where
  /-- At the condition of the loop over the entries. -/
  | entries
  /-- In the loop of `GlobalVersionArray::major_gc` for the first entry. -/
  | slots
  | done
  deriving DecidableEq

/-- `freed` lists the deleted versions, the last one first; `processed` records the entries
whose arrays were collected. -/
structure State where
  versions : List Entry
  arrays : Nat → Slots
  freed : List Nat
  processed : List Entry
  pc : Pc

/-- `versions_.erase` of the first entry: every later one is assigned to its predecessor, and
the last one is destroyed. -/
def erase : List Entry → (Nat → Slots) → List Entry × (Nat → Slots)
  | first :: second :: rest, arrays =>
    let (moved, arrays) := erase (second :: rest)
      (Function.update arrays first.array (arrays second.array))
    ({ second with array := first.array } :: moved, arrays)
  | _, arrays => ([], arrays)

def step (curEpoch : Nat) (state : State) : State :=
  match state.pc, state.versions with
  | .entries, [] => { state with pc := .done }
  | .entries, entry :: _ =>
    if oldest curEpoch ≤ entry.epoch then { state with pc := .done }
    else { state with pc := .slots, processed := state.processed ++ [entry] }
  | .slots, [] => { state with pc := .done }
  | .slots, entry :: rest =>
    let leave :=
      let (versions, arrays) := erase (entry :: rest) state.arrays
      { state with versions, arrays, pc := .entries }
    match state.arrays entry.array with
    | [] => leave
    | slot :: _ =>
      if boundary (oldest curEpoch) < slot.1 then leave
      else { state with freed := slot.2 :: state.freed }
  | .done, _ => state

structure Collected (curEpoch : Nat) where
  versions : List Entry
  arrays : Nat → Slots
  status : Nat → VersionStatus
  epochs : versions.Pairwise fun first second => first.epoch ≤ second.epoch
  ascending : ∀ array, Ascending (arrays array)
  stable : ∀ array, ∀ slot ∈ arrays array, slot.1 < boundary curEpoch → status slot.2 = .stable

def Collected.start {curEpoch : Nat} (input : Collected curEpoch) : State where
  versions := input.versions
  arrays := input.arrays
  freed := []
  processed := []
  pc := .entries

def Entry.Due (curEpoch : Nat) (entry : Entry) : Prop := entry.epoch < curEpoch - k

instance (curEpoch : Nat) (entry : Entry) : Decidable (entry.Due curEpoch) :=
  inferInstanceAs (Decidable (_ < _))

/-- What a call should do: it ends, it has processed the due entries, has deleted no version
twice and left none of them in an array, and readers of the epoch and of later ones find what
they found. -/
def Collected.Safe {curEpoch : Nat} (input : Collected curEpoch) : Prop :=
  ∃ turns final, (step curEpoch)^[turns] input.start = final ∧ final.pc = .done ∧
    final.processed = input.versions.filter (·.Due curEpoch) ∧
    final.versions = input.versions.filter (¬ ·.Due curEpoch) ∧
    final.freed.Nodup ∧
    (∀ array, ∀ slot ∈ final.arrays array, slot.2 ∉ final.freed) ∧
    ∀ array epoch serialId, curEpoch ≤ epoch →
      GlobalVersionArray.searchVisibleVersion (final.arrays array) epoch serialId =
        GlobalVersionArray.searchVisibleVersion (input.arrays array) epoch serialId

section Sweep
variable {curEpoch : Nat} {arrays : Nat → Slots} {freed : List Nat} {versions : List Entry}

theorem erase_of_same {array : Nat} (same : ∀ entry ∈ versions, entry.array = array) :
    erase versions arrays = (versions.tail, arrays) := by
  induction versions with
  | nil => rfl
  | cons first rest ih =>
    cases rest with
    | nil => rfl
    | cons second rest =>
      have one : first.array = array := same first (by simp)
      have two : second.array = array := same second (by simp)
      rw [erase, one, ← two, Function.update_eq_self,
        ih fun entry member => same entry (List.mem_cons_of_mem _ member)]
      rfl

theorem oldest_eq (late : k ≤ curEpoch) (fits : curEpoch < 2 ^ 64) :
    oldest curEpoch = curEpoch - k := by
  unfold oldest k at *
  omega

theorem oldest_eq_of_early (early : curEpoch < k) :
    oldest curEpoch + (k - curEpoch) = 2 ^ 64 := by
  unfold oldest k at *
  omega

theorem step_entries {entry : Entry} {processed : List Entry}
    (old : entry.epoch < oldest curEpoch) :
    step curEpoch ⟨entry :: versions, arrays, freed, processed, .entries⟩ =
      ⟨entry :: versions, arrays, freed, processed ++ [entry], .slots⟩ := by
  simp only [step, not_le.mpr old, if_false]

theorem step_slots_leave {entry : Entry} {processed : List Entry}
    (young : ∀ slot ∈ arrays entry.array, boundary (oldest curEpoch) < slot.1)
    (same : ∀ other ∈ versions, other.array = entry.array) :
    step curEpoch ⟨entry :: versions, arrays, freed, processed, .slots⟩ =
      ⟨versions, arrays, freed, processed, .entries⟩ := by
  have erased : erase (entry :: versions) arrays = (versions, arrays) :=
    erase_of_same (List.forall_mem_cons.mpr ⟨rfl, same⟩)
  cases slots : arrays entry.array with
  | nil => simp only [step, slots, erased]
  | cons slot rest =>
    have above := young slot (by rw [slots]; exact List.mem_cons_self)
    simp only [step, slots, erased, above, if_true]

/-- The entries are ascending, so that none is due behind the first that is not. -/
theorem filter_of_not_due {entry : Entry} (due : ¬ entry.Due curEpoch)
    (behind : ∀ other ∈ versions, entry.epoch ≤ other.epoch) :
    versions.filter (·.Due curEpoch) = [] ∧
      versions.filter (fun other => ¬ other.Due curEpoch) = versions := by
  have none' : ∀ other ∈ versions, ¬ other.Due curEpoch := fun other member otherDue =>
    due ((behind other member).trans_lt otherDue)
  exact ⟨List.filter_eq_nil_iff.mpr (by simpa using none'),
    List.filter_eq_self.mpr (by simpa using none')⟩

/-- The loop over the entries, from any entry on. -/
theorem sweep (late : k ≤ curEpoch) (fits : curEpoch < 2 ^ 64) (freed : List Nat)
    (processed : List Entry)
    (epochs : versions.Pairwise fun first second => first.epoch ≤ second.epoch)
    (harmless : ∀ entry ∈ versions, entry.Due curEpoch →
      (∀ other ∈ versions, other.array = entry.array) ∧
        ∀ slot ∈ arrays entry.array, boundary (curEpoch - k) < slot.1) :
    ∃ turns, (step curEpoch)^[turns] ⟨versions, arrays, freed, processed, .entries⟩ =
      ⟨versions.filter (¬ ·.Due curEpoch), arrays, freed,
        processed ++ versions.filter (·.Due curEpoch), .done⟩ := by
  induction versions generalizing processed with
  | nil => exact ⟨1, by simp [step]⟩
  | cons entry rest ih =>
    obtain ⟨behind, tail⟩ := List.pairwise_cons.mp epochs
    by_cases due : entry.Due curEpoch
    · obtain ⟨same, young⟩ := harmless entry List.mem_cons_self due
      obtain ⟨turns, reached⟩ := ih (processed ++ [entry]) tail fun other member otherDue =>
        (harmless other (List.mem_cons_of_mem _ member) otherDue).imp_left fun all third inside =>
          all third (List.mem_cons_of_mem _ inside)
      refine ⟨turns + 1 + 1, ?_⟩
      rw [Function.iterate_succ_apply, Function.iterate_succ_apply,
        step_entries (oldest_eq late fits ▸ due), step_slots_leave (oldest_eq late fits ▸ young)
          fun other member => same other (List.mem_cons_of_mem _ member), reached]
      simp [due]
    · refine ⟨1, ?_⟩
      have stop : curEpoch - k ≤ entry.epoch := not_lt.mp due
      obtain ⟨gone, kept⟩ := filter_of_not_due due behind
      simp only [Function.iterate_one, step, oldest_eq late fits, stop, if_true]
      rw [List.filter_cons_of_pos (by simpa using due), kept,
        List.filter_cons_of_neg (by simpa using due), gone, List.append_nil]

/-- A version that the inner loop has begun to delete is deleted again and again. -/
theorem slots_forever {entry : Entry} {rest : List Entry} {slot : Nat × Nat} {slots : Slots}
    (here : arrays entry.array = slot :: slots) (old : ¬ boundary (oldest curEpoch) < slot.1)
    (processed : List Entry) (turns : Nat) :
    (step curEpoch)^[turns] ⟨entry :: rest, arrays, freed, processed, .slots⟩ =
      ⟨entry :: rest, arrays, List.replicate turns slot.2 ++ freed, processed, .slots⟩ := by
  induction turns with
  | zero => rfl
  | succ turns ih =>
    rw [Function.iterate_succ_apply', ih]
    simp only [step, here, old, if_false]
    rfl

end Sweep

/-! ## What every call does -/

section Turns
variable {curEpoch : Nat} {state : State}

theorem erase_arrays (versions : List Entry) (arrays : Nat → Slots) :
    (erase versions arrays).1.map Entry.array = (versions.map Entry.array).dropLast := by
  induction versions generalizing arrays with
  | nil => rfl
  | cons first rest ih =>
    cases rest with
    | nil => rfl
    | cons second rest => simp [erase, ih]

/-- An erased entry leaves its array to the next one: the entries stay with the first arrays of
the list, and whatever is processed is processed with the very first one. -/
structure Shifted (first : Nat) (all : List Nat) (state : State) : Prop where
  versions : state.versions.map Entry.array <+: all
  processed : ∀ entry ∈ state.processed, entry.array = first

theorem Shifted.step {first : Nat} {others : List Nat}
    (shifted : Shifted first (first :: others) state) :
    Shifted first (first :: others) (step curEpoch state) := by
  obtain ⟨versions, arrays, freed, processed, pc⟩ := state
  obtain ⟨inside, done⟩ := shifted
  cases pc with
  | done => exact ⟨inside, done⟩
  | entries =>
    cases versions with
    | nil => exact ⟨inside, done⟩
    | cons entry rest =>
      obtain ⟨own, -⟩ := List.cons_prefix_cons.mp inside
      simp only [MajorGC.step]
      split
      · exact ⟨inside, done⟩
      · refine ⟨inside, fun other member => ?_⟩
        rcases List.mem_append.mp member with old | new
        · exact done other old
        · rw [List.mem_singleton.mp new]
          exact own
  | slots =>
    cases versions with
    | nil => exact ⟨inside, done⟩
    | cons entry rest =>
      have left : (erase (entry :: rest) arrays).1.map Entry.array <+: first :: others := by
        rw [erase_arrays]
        exact (List.dropLast_prefix _).trans inside
      simp only [MajorGC.step]
      split
      · exact ⟨left, done⟩
      · split
        · exact ⟨left, done⟩
        · exact ⟨inside, done⟩

theorem processed_starts (state : State) :
    state.processed <+: (step curEpoch state).processed := by
  unfold step
  repeat' split
  all_goals simp

/-- What was processed once stays processed. -/
theorem mem_processed_iterate {entry : Entry} (turns : Nat) (member : entry ∈ state.processed) :
    entry ∈ ((step curEpoch)^[turns] state).processed := by
  induction turns with
  | zero => exact member
  | succ turns ih =>
    rw [Function.iterate_succ_apply']
    exact (processed_starts _).subset ih

theorem Shifted.iterate {first : Nat} {others : List Nat} (curEpoch turns : Nat)
    (shifted : Shifted first (first :: others) state) :
    Shifted first (first :: others) ((MajorGC.step curEpoch)^[turns] state) := by
  induction turns with
  | zero => exact shifted
  | succ turns ih =>
    rw [Function.iterate_succ_apply']
    exact ih.step

/-- A list in front of which one value can be put without a difference has that value only. -/
theorem eq_of_prefix_shift {first : Nat} {count : Nat} {others : List Nat}
    (shift : others <+: List.replicate (count + 1) first ++ others) :
    ∀ other ∈ others, other = first := by
  induction others with
  | nil => simp
  | cons head rest ih =>
    obtain ⟨rfl, tail⟩ : head = first ∧ rest <+: List.replicate count first ++ head :: rest := by
      simpa [List.replicate_succ] using shift
    have moved : rest <+: List.replicate (count + 1) head ++ rest := by
      simpa [List.replicate_succ', List.append_assoc] using tail
    exact List.forall_mem_cons.mpr ⟨rfl, ih moved⟩

end Turns

/-! ## Harmless calls -/

/-- Before epoch 4, where `cur_epoch - 4` wraps, every entry is younger than what it wraps to.
From then on the arrays of due entries have nothing to delete, and as soon as an entry is due
all entries are of one array. -/
structure Collected.Harmless {curEpoch : Nat} (input : Collected curEpoch) : Prop where
  wraps : curEpoch < k → ∀ entry ∈ input.versions, 2 ^ 64 ≤ entry.epoch + (k - curEpoch)
  oneArray : ∀ entry ∈ input.versions, entry.Due curEpoch →
    ∀ other ∈ input.versions, other.array = entry.array
  young : ∀ entry ∈ input.versions, entry.Due curEpoch →
    ∀ slot ∈ input.arrays entry.array, boundary (curEpoch - k) < slot.1

section Harmless
variable {curEpoch : Nat} {input : Collected curEpoch}

theorem not_due_of_early (early : curEpoch < k) (entry : Entry) : ¬ entry.Due curEpoch := by
  unfold Entry.Due
  omega

/-- A call that stops at once, in an epoch in which nothing is due. -/
theorem Collected.safe_of_early (early : curEpoch < k)
    (wraps : ∀ entry ∈ input.versions, 2 ^ 64 ≤ entry.epoch + (k - curEpoch)) : input.Safe := by
  have none' := not_due_of_early early
  have stops : step curEpoch input.start = { input.start with pc := .done } := by
    cases versions : input.versions with
    | nil => simp only [step, Collected.start, versions]
    | cons entry rest =>
      have high := wraps entry (by rw [versions]; exact List.mem_cons_self)
      have stop : oldest curEpoch ≤ entry.epoch := by
        have := oldest_eq_of_early early
        omega
      simp only [step, Collected.start, versions, stop, if_true]
  refine ⟨1, _, stops, rfl, ?_, ?_, List.nodup_nil, by simp [Collected.start],
    fun _ _ _ _ => rfl⟩
  · exact (List.filter_eq_nil_iff.mpr (by simpa using fun entry _ => none' entry)).symm
  · exact (List.filter_eq_self.mpr (by simpa using fun entry _ => none' entry)).symm

theorem Collected.Harmless.safe (fits : curEpoch < 2 ^ 64) (harmless : input.Harmless) :
    input.Safe := by
  by_cases early : curEpoch < k
  · exact safe_of_early early (harmless.wraps early)
  · obtain ⟨turns, reached⟩ := sweep (not_lt.mp early) fits [] [] input.epochs
      fun entry member due => ⟨harmless.oneArray entry member due, harmless.young entry member due⟩
    exact ⟨turns, _, reached, rfl, by simp, rfl, List.nodup_nil, by simp, by simp⟩

/-- A call that processes its first entry is in the inner loop after one turn. -/
theorem Collected.iterate_succ {entry : Entry} {rest : List Entry}
    (versions : input.versions = entry :: rest) (old : entry.epoch < oldest curEpoch)
    (turns : Nat) : (step curEpoch)^[turns + 1] input.start =
      (step curEpoch)^[turns] ⟨entry :: rest, input.arrays, [], [entry], .slots⟩ := by
  have first : step curEpoch input.start = ⟨entry :: rest, input.arrays, [], [entry], .slots⟩ := by
    unfold Collected.start
    rw [versions]
    exact step_entries old
  rw [Function.iterate_succ_apply, first]

theorem Collected.Safe.wraps (safe : input.Safe) (early : curEpoch < k) :
    ∀ entry ∈ input.versions, 2 ^ 64 ≤ entry.epoch + (k - curEpoch) := by
  intro entry member
  by_contra low
  have old : entry.epoch < oldest curEpoch := by
    have := oldest_eq_of_early early
    omega
  obtain ⟨turns, final, reached, done, processed, -⟩ := safe
  cases versions : input.versions with
  | nil => simp [versions] at member
  | cons first rest =>
    have epochs := input.epochs
    rw [versions] at epochs member
    have le : first.epoch ≤ entry.epoch := by
      rcases List.mem_cons.mp member with rfl | behind
      · exact le_rfl
      · exact List.rel_of_pairwise_cons epochs behind
    cases turns with
    | zero =>
      rw [← reached] at done
      cases done
    | succ turns =>
      rw [Collected.iterate_succ versions (le.trans_lt old)] at reached
      have inside := @mem_processed_iterate curEpoch
        ⟨first :: rest, input.arrays, [], [first], .slots⟩ first turns List.mem_cons_self
      rw [reached, processed] at inside
      exact not_due_of_early early first (by simpa using (List.mem_filter.mp inside).2)

/-- The due entries come first. -/
theorem filter_due_append (curEpoch : Nat) {versions : List Entry}
    (epochs : versions.Pairwise fun first second => first.epoch ≤ second.epoch) :
    versions.filter (·.Due curEpoch) ++ versions.filter (fun entry => ¬ entry.Due curEpoch) =
      versions := by
  induction versions with
  | nil => rfl
  | cons entry rest ih =>
    obtain ⟨behind, tail⟩ := List.pairwise_cons.mp epochs
    by_cases due : entry.Due curEpoch
    · rw [List.filter_cons_of_pos (by simpa using due),
        List.filter_cons_of_neg (by simpa using due), List.cons_append, ih tail]
    · obtain ⟨gone, kept⟩ := filter_of_not_due due behind
      rw [List.filter_cons_of_neg (by simpa using due),
        List.filter_cons_of_pos (by simpa using due), gone, kept, List.nil_append]

/-- The entries that are left have the first arrays of the list, so that they are their own
only if all arrays are the same. -/
theorem Collected.Safe.oneArray (safe : input.Safe) {first : Entry} {rest : List Entry}
    (versions : input.versions = first :: rest) (due : first.Due curEpoch) :
    ∀ other ∈ input.versions, other.array = first.array := by
  obtain ⟨turns, final, reached, -, processed, left, -⟩ := safe
  have start : Shifted first.array (first.array :: rest.map Entry.array) input.start :=
    ⟨by simp [Collected.start, versions], by simp [Collected.start]⟩
  have shifted := start.iterate curEpoch turns
  rw [reached] at shifted
  have dueArray : ∀ other ∈ input.versions.filter (·.Due curEpoch), other.array = first.array :=
    fun other member => shifted.processed other (processed ▸ member)
  have split := congrArg (List.map Entry.array) (filter_due_append curEpoch input.epochs)
  rw [List.map_append, List.map_eq_replicate_iff.mpr dueArray] at split
  have some' : 0 < (input.versions.filter (·.Due curEpoch)).length :=
    List.length_pos_of_mem (a := first) (by simp [versions, due])
  have inside := shifted.versions
  rw [left, ← List.map_cons, ← versions, ← split] at inside
  obtain ⟨count, length⟩ := Nat.exists_eq_succ_of_ne_zero some'.ne'
  rw [length] at inside
  have others := eq_of_prefix_shift inside
  intro other member
  by_cases otherDue : other.Due curEpoch
  · exact dueArray other (List.mem_filter.mpr ⟨member, by simpa using otherDue⟩)
  · exact others _ (List.mem_map_of_mem (List.mem_filter.mpr ⟨member, by simpa using otherDue⟩))

/-- An old slot of the first array would keep the inner loop busy for ever. -/
theorem Collected.Safe.young (safe : input.Safe) {first : Entry} {rest : List Entry}
    (versions : input.versions = first :: rest) (old : first.epoch < oldest curEpoch) :
    ∀ slot ∈ input.arrays first.array, boundary (oldest curEpoch) < slot.1 := by
  obtain ⟨turns, final, reached, done, -⟩ := safe
  cases slots : input.arrays first.array with
  | nil => simp
  | cons head tail =>
    have ascending := input.ascending first.array
    rw [slots] at ascending
    have young : boundary (oldest curEpoch) < head.1 := by
      by_contra oldSlot
      cases turns with
      | zero =>
        rw [← reached] at done
        cases done
      | succ turns =>
        rw [Collected.iterate_succ versions old, slots_forever slots oldSlot] at reached
        rw [← reached] at done
        cases done
    exact List.forall_mem_cons.mpr ⟨young, fun slot member =>
      young.trans (List.rel_of_pairwise_cons ascending member)⟩

theorem Collected.Safe.harmless (fits : curEpoch < 2 ^ 64) (safe : input.Safe) :
    input.Harmless := by
  by_cases early : curEpoch < k
  · exact ⟨fun _ => safe.wraps early, fun entry _ due => absurd due (not_due_of_early early entry),
      fun entry _ due => absurd due (not_due_of_early early entry)⟩
  · have late := oldest_eq (not_lt.mp early) fits
    cases versions : input.versions with
    | nil => exact ⟨fun now => absurd now early, by simp [versions], by simp [versions]⟩
    | cons first rest =>
      have epochs := input.epochs
      rw [versions] at epochs
      have firstDue : ∀ entry ∈ input.versions, entry.Due curEpoch → first.Due curEpoch := by
        intro entry member due
        rw [versions] at member
        rcases List.mem_cons.mp member with rfl | behind
        · exact due
        · exact (List.rel_of_pairwise_cons epochs behind).trans_lt due
      have same := fun entry member due => safe.oneArray versions (firstDue entry member due)
      refine ⟨fun now => absurd now early, fun entry member due other inside => ?_,
        fun entry member due => ?_⟩
      · rw [same entry member due other inside, same entry member due entry member]
      · rw [same entry member due entry member, ← late]
        exact safe.young versions (late ▸ firstDue entry member due)

end Harmless

/-- A call does what it should exactly when it is harmless. -/
theorem majorGc_safe_iff (curEpoch : Nat) (fits : curEpoch < 2 ^ 64)
    (input : Collected curEpoch) : input.Safe ↔ input.Harmless :=
  ⟨fun safe => safe.harmless fits, fun harmless => harmless.safe fits⟩

def recentRow : Collected 9 where
  versions := [⟨1, 10, 0⟩, ⟨2, 11, 0⟩]
  arrays _ := [(boundary 6, 12), (boundary 7, 13)]
  status _ := .stable
  epochs := by decide
  ascending _ := by
    unfold Ascending
    decide +kernel
  stable _ _ _ _ := rfl

theorem majorGc_safe_recentRow : recentRow.Safe := by
  have slots : ∀ slot ∈ [(boundary 6, 12), (boundary 7, 13)], boundary (9 - k) < slot.1 := by
    decide +kernel
  refine (majorGc_safe_iff 9 (by decide) recentRow).mpr ⟨fun early => ?_, ?_, fun _ _ _ => slots⟩
  · exact absurd early (by decide)
  · decide

def oldRow (curEpoch : Nat) : Collected curEpoch where
  versions := [⟨1, 10, 0⟩]
  arrays _ := [(boundary 1, 10), (boundary 5, 11)]
  status _ := .stable
  epochs := List.pairwise_singleton _ _
  ascending _ := by
    unfold Ascending
    decide +kernel
  stable _ _ _ _ := rfl

def twoRows : Collected 6 where
  versions := [⟨1, 10, 0⟩, ⟨1, 11, 1⟩]
  arrays array := if array = 0 then [(boundary 3, 20)] else [(boundary 4, 21)]
  status _ := .stable
  epochs := by decide
  ascending array := by
    split <;> exact List.pairwise_singleton _ _
  stable _ _ _ _ := rfl

/-- In epoch 6 the version of epoch 1 is deleted for ever.  In epoch 1, where no entry is due,
the entry of the epoch is processed.  And of two rows with nothing to delete the first one
gets the versions of the second. -/
theorem majorGc_not_safe :
    ((∀ turns, ((step 6)^[turns] (oldRow 6).start).pc ≠ .done) ∧
      ((step 6)^[3] (oldRow 6).start).freed = [10, 10]) ∧
    ((step 1)^[1] (oldRow 1).start).processed = [⟨1, 10, 0⟩] ∧
    ((step 6)^[4] twoRows.start).pc = .entries ∧
      GlobalVersionArray.searchVisibleVersion (((step 6)^[4] twoRows.start).arrays 0) 6 0 =
        some (boundary 4, 21) ∧
      GlobalVersionArray.searchVisibleVersion (twoRows.arrays 0) 6 0 = some (boundary 3, 20) := by
  refine ⟨⟨fun turns => ?_, by decide +kernel⟩, by decide +kernel, by decide +kernel,
    by decide +kernel, by decide +kernel⟩
  cases turns with
  | zero => decide
  | succ turns =>
    have first : step 6 (oldRow 6).start =
        ⟨[⟨1, 10, 0⟩], (oldRow 6).arrays, [], [⟨1, 10, 0⟩], .slots⟩ :=
      step_entries (by decide)
    rw [Function.iterate_succ_apply, first, slots_forever rfl (by decide +kernel)]
    simp

end TpccRunner.Caracal.MajorGC
