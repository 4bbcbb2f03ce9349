import TpccRunner.Silo.ReclamationSafety
import TpccRunner.NoWait.Reclamation

/-!
# Epoch-based reclamation in Silo and NoWait

`remove` waits two epochs after the tag.  That is enough when nobody who started
after the tag's epoch could still find the object.  The tag is taken before the
object is unlinked, though (the commit epoch in Silo's `precommit`, the starting
epoch everywhere else), and the global epoch may move on in between.
-/

set_option autoImplicit false

namespace TpccRunner

open Lib Epoch

theorem epochReclamation_safe {n : Nat} {K : Type} [DecidableEq K] (uninitialised : Fin n → Nat) :
    (∀ (database : Silo.Reclamation.Database K) (trace : List (Silo.Reclamation.Label n K))
      (final : Silo.Reclamation.System n K),
      Run Silo.Reclamation.System.step Silo.Reclamation.System.Timely
        (Silo.Reclamation.System.start uninitialised database) trace final →
      final.heap.pointers.NoDangling) ∧
    (∀ (loaded : Loaded K) (trace : List (NoWait.Reclamation.Label n K))
      (final : NoWait.Reclamation.System n K),
      Run NoWait.Reclamation.System.step NoWait.Reclamation.System.Timely
        (NoWait.Reclamation.System.start uninitialised loaded) trace final →
      final.heap.pointers.NoDangling) := by
  constructor
  · intro database trace final run
    exact (Silo.Reclamation.run_inv run).heap.pointers.noDangling
  · intro loaded trace final run
    exact (NoWait.Reclamation.run_inv run).pointers.noDangling

section Runs
open Silo.Reclamation in
def oneRecord : Silo.Reclamation.Database Unit where
  slots
    | .key _ => some 0
    | .record val => if val = 0 then some 1 else none
  next := 2
  allocated := by
    intro slot object present
    cases slot with
    | key key =>
      simp only [Option.some.injEq] at present
      omega
    | record val =>
      simp only [Option.ite_none_right_eq_some, Option.some.injEq] at present
      omega
  distinct := by
    intro slot slot' object present present'
    cases slot <;> cases slot' <;>
      simp only [Option.ite_none_right_eq_some, Option.some.injEq] at present present'
    · rfl
    · omega
    · omega
    · rw [present.1, present'.1]
  owned := by
    intro val object present
    simp only [Option.ite_none_right_eq_some] at present
    exact ⟨(), by simp [present.1]⟩

variable {n : Nat} {Action : Type}

def begins (worker : Fin n) : List (ClientLabel n Action) :=
  [.manage (.beginLoad worker), .manage (.beginStore worker)]

/-- Two workers have begun, and the second has ended its transaction. -/
def setUp (finish : Action) (first second : Fin n) : List (ClientLabel n Action) :=
  [.manage (.setWorker first), .manage (.setWorker second)] ++ begins first ++ begins second ++
    [.act second finish]

/-- `increment_epoch` with two workers. -/
def increment : List (ClientLabel n Action) :=
  [.manage .incrementLoad, .manage .sampleWorker, .manage .sampleWorker, .manage .incrementAdd]

def pass (finish : Action) (worker : Fin n) : List (ClientLabel n Action) :=
  begins worker ++ [.act worker finish]

def siloDelete : List (Silo.Reclamation.Label 2 Unit) :=
  [.act 0 (.find ()), .act 0 (.peek () 0), .act 0 .loadRecord, .act 0 (.write () 0 .delete),
    .act 0 (.precommit [⟨(), 0, .delete, false⟩]), .act 0 .lockNext, .act 0 .loadEpoch,
    .act 0 (.validate true), .act 0 .writeNext]

/-- The epoch moves on before `idx.remove`, and a reader of the new epoch finds the
value. -/
def siloLateRemove : List (Silo.Reclamation.Label 2 Unit) :=
  setUp .finish 0 1 ++ siloDelete ++ increment ++ begins 1 ++
    [.act 1 (.find ()), .act 0 .removeNext, .act 0 .finish] ++ pass .finish 0 ++ increment ++
    pass .finish 0

def noWaitDelete : List (NoWait.Reclamation.Label 2 Unit) :=
  [.act 0 (.find ()), .act 0 (.access () 0 .delete), .act 0 .precommit, .act 0 .writeNext,
    .act 0 .finish]

def noWaitLateRemove : List (NoWait.Reclamation.Label 2 Unit) :=
  setUp .finish 0 1 ++ increment ++ begins 1 ++ [.act 1 (.find ())] ++ noWaitDelete ++
    pass .finish 0 ++ increment ++ pass .finish 0

/-- In both protocols a reader can be left with a deallocated value, with an epoch
thread that runs regularly. -/
theorem lateRemove_dangling :
    (∃ final : Silo.Reclamation.System 2 Unit,
      Run Silo.Reclamation.System.step Clients.Regular
        (Silo.Reclamation.System.start (fun _ => 0) oneRecord) siloLateRemove final ∧
      ¬ final.heap.pointers.NoDangling) ∧
    (∃ final : NoWait.Reclamation.System 2 Unit,
      Run NoWait.Reclamation.System.step Clients.Regular
        (NoWait.Reclamation.System.start (fun _ => 0) Loaded.single) noWaitLateRemove final ∧
      ¬ final.heap.pointers.NoDangling) := by
  constructor
  · have reached : (execWhen Silo.Reclamation.System.step Clients.Regular
        (Silo.Reclamation.System.start (fun _ => 0) oneRecord) siloLateRemove).map
        (fun final => (final.heap.pointers.held 1, final.heap.pointers.freed 0)) =
          some ([(.key (), 0)], true) := by
      decide +kernel
    obtain ⟨final, success, seen⟩ := Option.map_eq_some_iff.mp reached
    obtain ⟨held, freed⟩ := Prod.mk.inj seen
    refine ⟨final, Run.of_execWhen success, fun safe => ?_⟩
    have kept := safe 1 0 ⟨.key (), by simp [Pointers.Obtained, held]⟩
    simp [freed] at kept
  · have reached : (execWhen NoWait.Reclamation.System.step Clients.Regular
        (NoWait.Reclamation.System.start (fun _ => 0) Loaded.single) noWaitLateRemove).map
        (fun final => (final.heap.pointers.held 1, final.heap.pointers.freed 0)) =
          some ([((), 0)], true) := by
      decide +kernel
    obtain ⟨final, success, seen⟩ := Option.map_eq_some_iff.mp reached
    obtain ⟨held, freed⟩ := Prod.mk.inj seen
    refine ⟨final, Run.of_execWhen success, fun safe => ?_⟩
    have kept := safe 1 0 ⟨(), by simp [Pointers.Obtained, held]⟩
    simp [freed] at kept

/-- The value is unlinked in the epoch of its tag: the reader of that epoch has ended
before it is deallocated. -/
theorem timelyRemove_noDangling :
    (∃ final : Silo.Reclamation.System 2 Unit,
      (final.heap.pointers.freed 0 = true ∧ final.heap.pointers.freed 1 = true) ∧
        final.heap.pointers.NoDangling) ∧
    (∃ final : NoWait.Reclamation.System 2 Unit,
      final.heap.pointers.freed 0 = true ∧ final.heap.pointers.NoDangling) := by
  constructor
  · have reached : (execWhen Silo.Reclamation.System.step Silo.Reclamation.System.Timely
        (Silo.Reclamation.System.start (fun _ => 0) oneRecord)
        (setUp .finish 0 1 ++ begins 1 ++ [.act 1 (.find ())] ++ siloDelete ++
          [.act 0 .removeNext, .act 0 .finish] ++ increment ++ [.act 1 .finish] ++
          pass .finish 0 ++ pass .finish 1 ++ increment ++ pass .finish 0)).map
        (fun final => (final.heap.pointers.freed 0, final.heap.pointers.freed 1)) =
          some (true, true) := by
      decide +kernel
    obtain ⟨final, success, freed⟩ := Option.map_eq_some_iff.mp reached
    exact ⟨final, Prod.mk.inj freed,
      (epochReclamation_safe _).1 oneRecord _ final (Run.of_execWhen success)⟩
  · have reached : (execWhen NoWait.Reclamation.System.step NoWait.Reclamation.System.Timely
        (NoWait.Reclamation.System.start (fun _ => 0) Loaded.single)
        (setUp .finish 0 1 ++ begins 1 ++ [.act 1 (.find ())] ++ noWaitDelete ++ increment ++
          [.act 1 .finish] ++ pass .finish 0 ++ pass .finish 1 ++ increment ++
          pass .finish 0)).map (fun final => final.heap.pointers.freed 0) = some true := by
      decide +kernel
    obtain ⟨final, success, freed⟩ := Option.map_eq_some_iff.mp reached
    exact ⟨final, freed,
      (epochReclamation_safe _).2 Loaded.single _ final (Run.of_execWhen success)⟩

end Runs

end TpccRunner
