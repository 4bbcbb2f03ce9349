import TpccRunner.Common.EpochClients
import TpccRunner.Common.ReadWriteSet

/-!
# Memory reclamation in NoWait

What `protocols/nowait/include/nowait.hpp` does with the `Value`s of the index:
lookups and inserts of the operations, and the loops of `precommit` and `abort`,
which collect with the starting epoch.  Records are not collected but deallocated
under the exclusive lock.  Which locks the operations get is left open.
-/

set_option autoImplicit false

namespace TpccRunner.NoWait.Reclamation

open Lib Epoch

variable {n : Nat} {K : Type}

inductive Phase (K : Type) where
  | running
  | writing (rest : List (Element K))
  | aborting (rest : List (Element K))

structure Tx (K : Type) where
  phase : Phase K
  rwSet : List (Element K)

def Tx.new : Tx K where
  phase := .running
  rwSet := []

def Tx.running (tx : Tx K) : Bool := tx.phase matches .running

abbrev System (n : Nat) (K : Type) := Clients n K Unit (Tx K)

def System.start (uninitialised : Fin n → Nat) (loaded : Loaded K) : System n K where
  heap := Heap.start uninitialised loaded
  shared := ()
  tx _ := Tx.new

inductive Action (K : Type) where
  | find (key : K)
  | access (key : K) (val : Nat) (rwt : ReadWriteType)
  | retype (key : K) (rwt : ReadWriteType)
  | insert (key : K)
  | precommit
  | writeNext
  | abort
  | abortNext
  | finish

abbrev Label (n : Nat) (K : Type) := ClientLabel n (Action K)

def System.setPhase (system : System n K) (worker : Fin n) (phase : Phase K) : System n K :=
  system.setTx worker { system.tx worker with phase }

/-- `read`, `update`, `upsert` and `remove` of a key that was found and locked. -/
def System.access [DecidableEq K] (system : System n K) (worker : Fin n) (key : K) (val : Nat)
    (rwt : ReadWriteType) : Option (System n K) :=
  if system.heap.pointers.Obtained worker key val then
    some (system.setTx worker { system.tx worker with
      rwSet := (system.tx worker).rwSet ++ [⟨key, val, rwt, false⟩] })
  else none

def System.retype [DecidableEq K] (system : System n K) (worker : Fin n) (key : K)
    (rwt : ReadWriteType) : System n K :=
  system.setTx worker { system.tx worker with
    rwSet := (system.tx worker).rwSet.map fun element =>
      if element.key = key then { element with rwt } else element }

/-- `insert` and `upsert` of a key that is not in the index. -/
def System.insert [DecidableEq K] (system : System n K) (worker : Fin n) (key : K) :
    Option (System n K) :=
  if system.heap.pointers.slots key = none then
    (system.heap.step (.exchange worker key 0 true)).map fun heap =>
      let inserted : Element K := ⟨key, system.heap.pointers.next, .insert, true⟩
      Clients.setTx { system with heap } worker { system.tx worker with
        rwSet := (system.tx worker).rwSet ++ [inserted] }
  else none

/-- `idx.remove` and `collect(starting_epoch, val)`. -/
def System.discard [DecidableEq K] (system : System n K) (worker : Fin n) (element : Element K)
    (next : Phase K) : Option (System n K) :=
  (system.heap.pointers.stamp worker).bind fun e =>
    (system.heap.step (.unlink worker element.key element.val e)).map fun heap =>
      System.setPhase { system with heap } worker next

def System.writeNext [DecidableEq K] (system : System n K) (worker : Fin n) :
    Option (System n K) :=
  match (system.tx worker).phase with
  | .writing (element :: rest) =>
    if element.rwt = .delete then system.discard worker element (.writing rest)
    else some (system.setPhase worker (.writing rest))
  | _ => none

def System.abortNext [DecidableEq K] (system : System n K) (worker : Fin n) :
    Option (System n K) :=
  match (system.tx worker).phase with
  | .aborting (element :: rest) =>
    if element.isNew then system.discard worker element (.aborting rest)
    else some (system.setPhase worker (.aborting rest))
  | .aborting [] => some (system.setTx worker Tx.new)
  | _ => none

def System.finish [DecidableEq K] (system : System n K) (worker : Fin n) :
    Option (System n K) :=
  match (system.tx worker).phase with
  | .running | .writing [] =>
    (system.heap.step (.remove worker)).map fun heap =>
      Clients.setTx { system with heap } worker Tx.new
  | _ => none

def System.act [DecidableEq K] (system : System n K) (worker : Fin n) :
    Action K → Option (System n K)
  | .find key => system.whenRunning Tx.running worker (system.onHeap (.find worker key))
  | .access key val rwt =>
    system.whenRunning Tx.running worker (system.access worker key val rwt)
  | .retype key rwt => system.whenRunning Tx.running worker (some (system.retype worker key rwt))
  | .insert key => system.whenRunning Tx.running worker (system.insert worker key)
  | .precommit =>
    system.whenRunning Tx.running worker
      (some (system.setPhase worker (.writing (system.tx worker).rwSet)))
  | .writeNext => system.writeNext worker
  | .abort =>
    system.whenRunning Tx.running worker
      (some (system.setPhase worker (.aborting (system.tx worker).rwSet)))
  | .abortNext => system.abortNext worker
  | .finish => system.finish worker

def System.step [DecidableEq K] : System n K → Label n K → Option (System n K) :=
  Clients.step System.act

/-- When a `Value` is taken out of the index, no active transaction that started in
a later epoch than the worker's transaction has looked it up. -/
def System.Covering (system : System n K) (worker : Fin n) : Action K → Prop
  | .writeNext =>
    match (system.tx worker).phase, system.heap.pointers.stamp worker with
    | .writing (element :: _), some e =>
      element.rwt = .delete → system.heap.CoveredAt element.val e
    | _, _ => True
  | .abortNext =>
    match (system.tx worker).phase, system.heap.pointers.stamp worker with
    | .aborting (element :: _), some e => element.isNew → system.heap.CoveredAt element.val e
    | _, _ => True
  | _ => True

instance (system : System n K) (worker : Fin n) (action : Action K) :
    Decidable (system.Covering worker action) := by
  cases action <;> dsimp only [System.Covering] <;> try infer_instance
  all_goals split <;> infer_instance

abbrev System.Timely : System n K → Label n K → Prop := Clients.Timely System.Covering

section Safety
variable [DecidableEq K] {before after : System n K} {worker : Fin n}

theorem System.discard_inv {element : Element K} {next : Phase K} (inv : before.heap.Inv)
    (covered : ∀ e, before.heap.pointers.stamp worker = some e →
      before.heap.CoveredAt element.val e)
    (taken : before.discard worker element next = some after) : after.heap.Inv := by
  obtain ⟨e, active, taken⟩ := Option.bind_eq_some_iff.mp taken
  obtain ⟨heap, moved, rfl⟩ := Option.map_eq_some_iff.mp taken
  exact inv.step moved (covered e active)

theorem System.insert_inv {key : K} (inv : before.heap.Inv)
    (taken : before.insert worker key = some after) : after.heap.Inv := by
  simp only [System.insert, Option.ite_none_right_eq_some, Option.map_eq_some_iff] at taken
  obtain ⟨absent, heap, moved, rfl⟩ := taken
  have timely : before.heap.Timely (.exchange worker key 0 true) := by
    intro object present
    simp [absent] at present
  exact inv.step moved timely

theorem System.act_inv {action : Action K} (inv : before.heap.Inv)
    (covering : before.Covering worker action)
    (taken : before.act worker action = some after) : after.heap.Inv := by
  cases action with
  | find key =>
    obtain ⟨-, -, taken⟩ := Clients.whenRunning_eq_some taken
    obtain ⟨heap, moved, rfl⟩ := Option.map_eq_some_iff.mp taken
    exact inv.step moved trivial
  | access key val rwt =>
    obtain ⟨-, -, taken⟩ := Clients.whenRunning_eq_some taken
    simp only [System.access, Option.ite_none_right_eq_some, Option.some.injEq] at taken
    obtain ⟨-, rfl⟩ := taken
    exact inv
  | retype key rwt =>
    obtain ⟨-, -, taken⟩ := Clients.whenRunning_eq_some taken
    exact Option.some.inj taken ▸ inv
  | insert key =>
    obtain ⟨-, -, taken⟩ := Clients.whenRunning_eq_some taken
    exact System.insert_inv inv taken
  | precommit =>
    obtain ⟨-, -, taken⟩ := Clients.whenRunning_eq_some taken
    exact Option.some.inj taken ▸ inv
  | writeNext =>
    simp only [System.act, System.writeNext] at taken
    split at taken
    · rename_i element rest phase
      split at taken
      · rename_i deleted
        apply System.discard_inv inv _ taken
        intro e active
        simp only [System.Covering, phase, active] at covering
        exact covering deleted
      · obtain rfl := Option.some.inj taken
        exact inv
    · cases taken
  | abort =>
    obtain ⟨-, -, taken⟩ := Clients.whenRunning_eq_some taken
    exact Option.some.inj taken ▸ inv
  | abortNext =>
    simp only [System.act, System.abortNext] at taken
    split at taken
    · rename_i element rest phase
      split at taken
      · rename_i isNew
        apply System.discard_inv inv _ taken
        intro e active
        simp only [System.Covering, phase, active] at covering
        exact covering isNew
      · obtain rfl := Option.some.inj taken
        exact inv
    · obtain rfl := Option.some.inj taken
      exact inv
    · cases taken
  | finish =>
    simp only [System.act, System.finish] at taken
    split at taken
    · obtain ⟨heap, moved, rfl⟩ := Option.map_eq_some_iff.mp taken
      exact inv.step moved trivial
    · obtain ⟨heap, moved, rfl⟩ := Option.map_eq_some_iff.mp taken
      exact inv.step moved trivial
    · cases taken

theorem System.step_inv {label : Label n K} (inv : before.heap.Inv)
    (timely : before.Timely label) (taken : before.step label = some after) :
    after.heap.Inv := by
  cases label with
  | manage label =>
    obtain ⟨heap, moved, rfl⟩ := Option.map_eq_some_iff.mp taken
    exact inv.step moved timely
  | act worker action => exact System.act_inv inv timely taken

theorem run_inv {uninitialised : Fin n → Nat} {loaded : Loaded K} {trace : List (Label n K)}
    {final : System n K}
    (run : Run System.step System.Timely (System.start uninitialised loaded) trace final) :
    final.heap.Inv :=
  run.invariant (fun system => system.heap.Inv) (Heap.Inv.start uninitialised loaded)
    fun _ _ _ => System.step_inv

end Safety

end TpccRunner.NoWait.Reclamation
