import TpccRunner.Common.TimeStampManager
import TpccRunner.Lib.Reclamation

/-!
# Timestamp-based reclamation

The `GarbageCollector` of `protocols/common/timestamp_manager.hpp` and the values of
the index it deallocates.  A transaction (of MVTO or WaitDie) looks values up, inserts
new ones and takes values out of the index (`delete_from_tree`,
`remove_already_inserted`, `precommit`, `abort`), each time with a `collect` under its
own `largest_ts`; its destructor calls `remove(smallest_ts, largest_ts)`.  Which keys
it touches is left open.
-/

set_option autoImplicit false

namespace TpccRunner.TimeStamp

open Lib

variable {n : Nat} {K : Type}

structure Heap (n : Nat) (K : Type) where
  manager : State n
  /-- The stamp of an active transaction is its `start_ts`. -/
  pointers : Pointers (Fin n) K Nat
  smallestTs : Fin n → Nat
  largestTs : Fin n → Nat
  /-- The thread-local multimaps of `GarbageCollector`. -/
  tempGcMap : Fin n → List (Nat × Nat)
  gcMap : Fin n → List (Nat × Nat)

def Heap.start (loaded : Loaded K) : Heap n K where
  manager := TimeStamp.start
  pointers := Pointers.start loaded
  smallestTs _ := 0
  largestTs _ := 0
  tempGcMap _ := []
  gcMap _ := []

inductive HeapLabel (n : Nat) (K : Type) where
  | manage (label : Label n)
  | beginTx (worker : Fin n)
  | setNewTs (worker : Fin n)
  | find (worker : Fin n) (key : K)
  | insert (worker : Fin n) (key : K)
  | unlink (worker : Fin n) (key : K) (val : Nat)
  | remove (worker : Fin n)

def Heap.enter (heap : Heap n K) (worker : Fin n) (arguments : Nat × Nat × Nat) : Heap n K :=
  { heap with
    manager := heap.manager.takeArguments worker
    pointers := heap.pointers.enter worker arguments.1
    smallestTs := Function.update heap.smallestTs worker arguments.2.1
    largestTs := Function.update heap.largestTs worker arguments.2.2 }

/-- `idx.remove` and `GarbageCollector::collect(largest_ts, val)`. -/
def Heap.unlink [DecidableEq K] (heap : Heap n K) (worker : Fin n) (key : K) (val : Nat) :
    Heap n K :=
  { heap with
    pointers := heap.pointers.clear key
    tempGcMap := Function.update heap.tempGcMap worker
      ((heap.largestTs worker, val) :: heap.tempGcMap worker) }

/-- `attach_new_ts`: the entries of the temporary map up to `newLargestTs` move to the
other map under that timestamp. -/
def attachNewTs (newLargestTs : Nat) (tempGcMap gcMap : List (Nat × Nat)) :
    List (Nat × Nat) × List (Nat × Nat) :=
  (tempGcMap.filter fun entry => !decide (entry.1 ≤ newLargestTs),
    (tempGcMap.filter fun entry => decide (entry.1 ≤ newLargestTs)).map
      (fun entry => (newLargestTs, entry.2)) ++ gcMap)

def Heap.attached (heap : Heap n K) (worker : Fin n) : List (Nat × Nat) × List (Nat × Nat) :=
  attachNewTs (heap.largestTs worker) (heap.tempGcMap worker) (heap.gcMap worker)

def Heap.expired (heap : Heap n K) (worker : Fin n) : List (Nat × Nat) :=
  (heap.attached worker).2.filter fun entry => decide (entry.1 ≤ heap.smallestTs worker)

def Heap.remove (heap : Heap n K) (worker : Fin n) : Heap n K :=
  { heap with
    pointers := (heap.pointers.leave worker).free fun val =>
      (heap.expired worker).any fun entry => decide (entry.2 = val)
    tempGcMap := Function.update heap.tempGcMap worker (heap.attached worker).1
    gcMap := Function.update heap.gcMap worker
      ((heap.attached worker).2.filter fun entry => !decide (entry.1 ≤ heap.smallestTs worker)) }

def Heap.step [DecidableEq K] (synchronizeCnt : Nat) (heap : Heap n K) :
    HeapLabel n K → Option (Heap n K)
  | .manage label =>
    if label.mayDraw (fun worker => (heap.pointers.stamp worker).isNone)
        (fun worker => (heap.pointers.stamp worker).isSome) then
      (TimeStamp.step synchronizeCnt heap.manager label).map fun manager =>
        { heap with manager }
    else none
  | .beginTx worker =>
    if heap.pointers.stamp worker = none then
      (heap.manager.worker worker).arguments.map (heap.enter worker)
    else none
  | .setNewTs worker =>
    -- `abort` has cleared the read and write sets
    if heap.pointers.stamp worker = none then none
    else
      (heap.manager.worker worker).arguments.map
        ({ heap with pointers := heap.pointers.leave worker }.enter worker)
  | .find worker key =>
    match heap.pointers.stamp worker, heap.pointers.slots key with
    | some _, some val => some { heap with pointers := heap.pointers.hold worker key val }
    | _, _ => none
  | .insert worker key =>
    match heap.pointers.stamp worker, heap.pointers.slots key with
    | some _, none => some { heap with pointers := heap.pointers.put worker key }
    | _, _ => none
  | .unlink worker key val =>
    if heap.pointers.Obtained worker key val then some (heap.unlink worker key val) else none
  | .remove worker =>
    if heap.pointers.stamp worker = none then none else some (heap.remove worker)

/-- When a value is taken out of the index, no active transaction with a timestamp
above the collecting one's `largest_ts` has looked it up; and what a destructor
deallocates is tagged below the timestamp of every other active transaction. -/
def Heap.Timely (heap : Heap n K) : HeapLabel n K → Prop
  | .unlink worker _ val =>
    CoveredAt heap.pointers.stamp heap.pointers.Holds val (heap.largestTs worker)
  | .remove worker => ∀ entry ∈ heap.expired worker,
      ∀ other, other ≠ worker → ∀ ts ∈ heap.pointers.stamp other, entry.1 < ts
  | _ => True

instance [DecidableEq K] (heap : Heap n K) (label : HeapLabel n K) :
    Decidable (heap.Timely label) :=
  match label with
  | .unlink worker _ val =>
    decidable_of_iff
      (∀ reader, ∀ s ∈ heap.pointers.stamp reader,
        (∃ entry ∈ heap.pointers.held reader, entry.2 = val) → s ≤ heap.largestTs worker)
      (by simp [Heap.Timely, CoveredAt, Pointers.Holds, Pointers.Obtained])
  | .remove worker => inferInstanceAs (Decidable (∀ entry ∈ heap.expired worker,
      ∀ other, other ≠ worker → ∀ ts ∈ heap.pointers.stamp other, entry.1 < ts))
  | .manage _ | .beginTx _ | .setNewTs _ | .find _ _ | .insert _ _ => .isTrue trivial

def Heap.Retired (heap : Heap n K) (val tag : Nat) : Prop :=
  ∃ worker, (tag, val) ∈ heap.tempGcMap worker ∨ (tag, val) ∈ heap.gcMap worker

def Heap.Inv (heap : Heap n K) : Prop := heap.pointers.Ok heap.Retired

section Steps
variable {before after : Heap n K} {worker : Fin n}

theorem attachNewTs_grows {newLargestTs tag val : Nat} {tempGcMap gcMap : List (Nat × Nat)}
    (member : (tag, val) ∈ (attachNewTs newLargestTs tempGcMap gcMap).1 ∨
      (tag, val) ∈ (attachNewTs newLargestTs tempGcMap gcMap).2) :
    ∃ tag', tag' ≤ tag ∧ ((tag', val) ∈ tempGcMap ∨ (tag', val) ∈ gcMap) := by
  obtain member | member := member
  · exact ⟨tag, le_rfl, .inl (List.mem_of_mem_filter member)⟩
  · obtain member | member := List.mem_append.mp member
    · obtain ⟨⟨tag', val'⟩, old, same⟩ := List.mem_map.mp member
      obtain ⟨rfl, rfl⟩ := Prod.mk.inj same
      obtain ⟨old, below⟩ := List.mem_filter.mp old
      exact ⟨tag', by simpa using below, .inl old⟩
    · exact ⟨tag, le_rfl, .inr member⟩

def Heap.RetiredAttached (heap : Heap n K) (worker : Fin n) (val tag : Nat) : Prop :=
  heap.Retired val tag ∨ (tag, val) ∈ (heap.attached worker).1 ∨
    (tag, val) ∈ (heap.attached worker).2

theorem Heap.Inv.remove (inv : before.Inv) (timely : before.Timely (.remove worker)) :
    (before.remove worker).Inv := by
  -- first the worker leaves, then its entries get their new tags, then they are freed
  have attached : (before.pointers.leave worker).Ok (before.RetiredAttached worker) := by
    apply (Pointers.Ok.leave inv).retag
    intro val tag retired
    obtain retired | member := retired
    · exact ⟨tag, le_rfl, retired⟩
    · obtain ⟨tag', below, old⟩ := attachNewTs_grows member
      exact ⟨tag', below, worker, old⟩
  have freed : (before.remove worker).pointers.Ok (before.RetiredAttached worker) := by
    apply attached.free
    intro val gone
    simp only [List.any_eq_true, decide_eq_true_eq] at gone
    obtain ⟨⟨tag, val'⟩, member, rfl⟩ := gone
    refine ⟨tag, .inr (.inr (List.mem_of_mem_filter member)), ?_⟩
    intro other ts active
    have notSame : other ≠ worker := by
      intro same
      simp [Pointers.leave, same] at active
    exact timely _ member other notSame ts (by simpa [Pointers.leave, notSame] using active)
  apply freed.retag
  intro val tag retired
  obtain ⟨other, member⟩ := retired
  refine ⟨tag, le_rfl, ?_⟩
  by_cases same : other = worker
  · subst same
    simp only [Heap.remove, Function.update_self] at member
    exact .inr (member.imp_right List.mem_of_mem_filter)
  · exact .inl ⟨other, by simpa [Heap.remove, same] using member⟩

variable [DecidableEq K] {key : K}

theorem Heap.Inv.unlink (inv : before.Inv) {val : Nat}
    (obtained : before.pointers.Obtained worker key val)
    (timely : before.Timely (.unlink worker key val)) :
    (before.unlink worker key val).Inv := by
  obtain ⟨allocated, -, home⟩ := Pointers.Ok.held inv worker key val obtained
  apply Pointers.Ok.clear_retire inv allocated home timely
  intro val' tag retired
  obtain ⟨other, member⟩ := retired
  by_cases same : other = worker
  · subst same
    simp only [Heap.unlink, Function.update_self, List.mem_cons, Prod.mk.injEq] at member
    obtain (new | member) | member := member
    · exact .inr new
    · exact .inl ⟨other, .inl member⟩
    · exact .inl ⟨other, .inr member⟩
  · exact .inl ⟨other, by simpa [Heap.unlink, same] using member⟩

theorem Heap.Inv.step {synchronizeCnt : Nat} {label : HeapLabel n K} (inv : before.Inv)
    (timely : before.Timely label) (taken : before.step synchronizeCnt label = some after) :
    after.Inv := by
  cases label with
  | manage label =>
    simp only [Heap.step, Option.ite_none_right_eq_some, Option.map_eq_some_iff] at taken
    obtain ⟨-, manager, -, rfl⟩ := taken
    exact inv
  | beginTx worker =>
    simp only [Heap.step, Option.ite_none_right_eq_some, Option.map_eq_some_iff] at taken
    obtain ⟨inactive, arguments, -, rfl⟩ := taken
    exact Pointers.Ok.enter inv inactive
  | setNewTs worker =>
    simp only [Heap.step, Option.ite_none_left_eq_some, Option.map_eq_some_iff] at taken
    obtain ⟨-, arguments, -, rfl⟩ := taken
    exact (Pointers.Ok.leave inv).enter (by simp [Pointers.leave])
  | find worker key =>
    simp only [Heap.step] at taken
    split at taken
    · rename_i ts val active present
      obtain rfl := Option.some.inj taken
      exact Pointers.Ok.hold inv active present
    · cases taken
  | insert worker key =>
    simp only [Heap.step] at taken
    split at taken
    · rename_i ts active absent
      obtain rfl := Option.some.inj taken
      exact Pointers.Ok.put inv active
    · cases taken
  | unlink worker key val =>
    simp only [Heap.step, Option.ite_none_right_eq_some, Option.some.injEq] at taken
    obtain ⟨obtained, rfl⟩ := taken
    exact inv.unlink obtained timely
  | remove worker =>
    simp only [Heap.step, Option.ite_none_left_eq_some, Option.some.injEq] at taken
    obtain ⟨-, rfl⟩ := taken
    exact inv.remove timely

end Steps

theorem timeStampReclamation_safe [DecidableEq K] (synchronizeCnt : Nat) (loaded : Loaded K)
    (trace : List (HeapLabel n K)) (final : Heap n K)
    (run : Run (Heap.step synchronizeCnt) Heap.Timely (Heap.start loaded) trace final) :
    final.pointers.NoDangling := by
  have inv := run.invariant Heap.Inv
    (Pointers.Ok.start loaded (by simp [Heap.Retired, Heap.start]))
    (fun _ _ _ inv => inv.step)
  exact Pointers.Ok.noDangling inv

section Runs

def beginTx (worker : Fin 2) : List (HeapLabel 2 Unit) :=
  (drawArguments worker).map .manage ++ [.beginTx worker]

/-- Before the first `set_gc_ts`, a deleted value is deallocated at once, under a
transaction that has looked it up. -/
theorem firstDelete_dangling :
    ∃ final : Heap 2 Unit,
      Run (Heap.step 1) always (Heap.start Loaded.single)
        ([.manage (.setWorker 0), .manage (.setWorker 1)] ++ beginTx 0 ++ beginTx 1 ++
          [.find 1 (), .find 0 (), .unlink 0 () 0, .remove 0]) final ∧
      ¬ final.pointers.NoDangling := by
  have reached : (exec (Heap.step 1) (Heap.start Loaded.single : Heap 2 Unit)
      ([.manage (.setWorker 0), .manage (.setWorker 1)] ++ beginTx 0 ++ beginTx 1 ++
        [.find 1 (), .find 0 (), .unlink 0 () 0, .remove 0])).map
      (fun final => (final.pointers.held 1, final.pointers.freed 0)) =
        some ([((), 0)], true) := by
    decide +kernel
  obtain ⟨final, success, seen⟩ := Option.map_eq_some_iff.mp reached
  obtain ⟨held, freed⟩ := Prod.mk.inj seen
  refine ⟨final, Run.of_exec success, fun safe => ?_⟩
  have kept := safe 1 0 ⟨(), by simp [Pointers.Obtained, held]⟩
  simp [freed] at kept

/-- The same without the lookup by the other transaction, which is active and younger. -/
theorem firstDelete_noDangling :
    ∃ final : Heap 2 Unit,
      (final.pointers.stamp 1 = some 257 ∧ final.pointers.freed 0 = true) ∧
        final.pointers.NoDangling := by
  have reached : (execWhen (Heap.step 1) Heap.Timely (Heap.start Loaded.single : Heap 2 Unit)
      ([.manage (.setWorker 0), .manage (.setWorker 1)] ++ beginTx 0 ++ beginTx 1 ++
        [.find 0 (), .unlink 0 () 0, .remove 0])).map
      (fun final => (final.pointers.stamp 1, final.pointers.freed 0)) =
        some (some 257, true) := by
    decide +kernel
  obtain ⟨final, success, seen⟩ := Option.map_eq_some_iff.mp reached
  exact ⟨final, Prod.mk.inj seen,
    timeStampReclamation_safe 1 Loaded.single _ final (Run.of_execWhen success)⟩

end Runs

end TpccRunner.TimeStamp
