import TpccRunner.Utils.Lifecycle
import TpccRunner.Serval.Execution
import TpccRunner.Serval.ReadCorrectness

/-!
# Progress of Serval

Every step of Serval is one of `Lifecycle`, so a version that a reader waits for belongs to
an update that has still to be done; the visible-version search makes it one of a smaller
transaction.
-/

set_option autoImplicit false

namespace TpccRunner.Serval

open TpccRunner.Utils TpccRunner.Lib
open Worklist (Remains)

section Views
variable {load : Workload} {state after : State} {worker : Worker} {item : Item Operation}
  {rest : List (Item Operation)}

theorem moves_setLocked (key : Nat) (locked : Bool) (pc : Pc) :
    (state.view Value.heap).Moves load
      (((state.setRow key { state.rows key with locked }).goto worker pc).view Value.heap) :=
  Workers.moves_keeps rfl rfl rfl rfl rfl rfl fun _ => rfl

theorem moves_tryLockRow (key : Nat) (success failure : Pc) :
    (state.view Value.heap).Moves load
      ((state.tryLockRow worker key success failure).view Value.heap) := by
  rw [State.tryLockRow]
  split
  · exact Workers.moves_goto failure
  · exact moves_setLocked key true success

theorem initializeTheRow_heap (val : Value) (epoch : Nat) :
    (val.initializeTheRow epoch).heap.next = val.heap.next ∧
      (val.initializeTheRow epoch).heap.versions = val.heap.versions := by
  unfold Value.initializeTheRow
  split
  · exact ⟨rfl, rfl⟩
  · split <;> exact ⟨rfl, rfl⟩
  · exact ⟨rfl, rfl⟩

theorem initStep_moves (init : state.phase = .init) (front : state.todo worker = item :: rest)
    (update : item.op.ope = .update) {pc : Pc}
    (step : state.initStep worker item rest pc = some after) :
    (state.view Value.heap).Moves load (after.view Value.heap) := by
  cases pc with
  | start =>
    rw [State.initStep] at step
    split at step <;> cases step <;> exact Workers.moves_goto _
  | guardTryLock | tryLock | waitTryLock =>
    cases step
    exact moves_tryLockRow ..
  | guardLocked =>
    simp only [State.initStep] at step
    split at step
    · cases step
      obtain ⟨next, versions⟩ := initializeTheRow_heap (state.rows item.op.key) state.epoch
      exact Workers.moves_keeps rfl rfl rfl rfl rfl next fun pointer => by rw [versions]
    · cases step
      exact Workers.moves_goto _
  | guardUnlock | waitUnlock =>
    cases step
    exact moves_setLocked ..
  | locked =>
    simp only [State.initStep] at step
    split at step <;> cases step
    · exact Workers.moves_appended init front update rfl fun pointer old =>
        Heap.createPendingVersion_of_lt _ old
    · exact Workers.moves_appended init front update rfl fun pointer old =>
        Heap.createPendingVersion_of_lt _ old
  | waitLoad =>
    rw [State.initStep] at step
    split at step <;> cases step <;> exact Workers.moves_goto _
  | waitLocked =>
    simp only [State.initStep] at step
    split at step
    · cases step
      exact Workers.moves_goto _
    · split at step
      · cases step
        exact Workers.moves_keeps rfl rfl rfl rfl rfl rfl fun _ => rfl
      · cases step
  | contended =>
    simp only [State.initStep] at step
    split at step
    · cases step
      exact Workers.moves_appended init front update rfl fun pointer old =>
        Heap.createPendingVersion_of_lt _ old
    · cases step
  | unlock _ | awaitStable _ | loadRecord _ | storeStable _ => cases step

theorem Inv.storeStable_pending (inv : Inv load state) (exec : state.phase = .exec)
    (front : state.todo worker = item :: rest) {pointer : Nat}
    (pc : state.pc worker = .storeStable pointer) :
    state.pending state.epoch item.turn.serial item.op.key = some pointer := by
  have mine := (pcOk_exec exec).mp (inv.pcs worker item rest front)
  rw [pc] at mine
  obtain ⟨current, -, writer, rfl, -⟩ := mine
  have row := inv.rows item.op.key
  rw [exec] at row
  have known := (row.versions (by have := inv.started worker item rest front; omega) _
    (by rwa [appended_exec, current])).known
  rwa [current] at known

theorem Inv.execStep_moves (inv : Inv load state) (exec : state.phase = .exec)
    (front : state.todo worker = item :: rest)
    (step : state.execStep worker item rest (state.pc worker) = some after) :
    (state.view Value.heap).Moves load (after.view Value.heap) := by
  have mine := (pcOk_exec exec).mp (inv.pcs worker item rest front)
  cases pc : state.pc worker with
  | start =>
    rw [pc] at step
    simp only [State.execStep] at step
    cases ope : item.op.ope with
    | read =>
      simp only [ope] at step
      split at step <;> cases step
      · exact Workers.moves_goto _
      · exact Workers.moves_goto _
      · exact Workers.moves_returned exec front ope none _
    | update =>
      simp only [ope] at step
      split at step
      next pointer _ =>
        cases step
        exact Workers.moves_keeps rfl rfl rfl rfl rfl rfl (Heap.storeRecord_status _ pointer _)
      next none =>
        cases step
        exact Workers.moves_unmade exec front none
  | awaitStable pointer =>
    rw [pc, State.execStep, Option.ite_none_right_eq_some] at step
    obtain ⟨-, moved⟩ := step
    cases moved
    exact Workers.moves_goto _
  | loadRecord pointer =>
    rw [pc] at step mine
    cases step
    exact Workers.moves_returned exec front mine.1 _ _
  | storeStable pointer =>
    have pending := inv.storeStable_pending exec front pc
    rw [pc] at step
    cases step
    exact Workers.moves_storeStable exec front pending rfl _
  | unlock key =>
    rw [pc] at step
    cases step
  | _ =>
    rw [pc] at mine
    exact mine.elim

theorem Inv.step_moves {label : Label} (inv : Inv load state)
    (step : state.step load label = some after) :
    (state.view Value.heap).Moves load (after.view Value.heap) := by
  cases label with
  | worker worker =>
    rw [State.step, State.workerStep] at step
    split at step
    · cases step
      exact moves_setLocked ..
    · cases step
    · rename_i item rest front _
      cases phase : state.phase with
      | init =>
        simp only [phase] at step
        exact initStep_moves phase front ((inv.scheduled.item_facts front).2.2.2 phase) step
      | exec =>
        simp only [phase] at step
        exact inv.execStep_moves phase front step
  | barrier =>
    rw [State.step, Option.ite_none_right_eq_some] at step
    obtain ⟨⟨phase, -⟩, same⟩ := step
    cases same
    exact .barrier phase rfl rfl rfl rfl rfl
  | newEpoch =>
    rw [State.step, Option.ite_none_right_eq_some] at step
    obtain ⟨⟨phase, quiet⟩, same⟩ := step
    cases same
    exact Workers.moves_newEpoch sequential_assigns phase fun worker => (quiet worker).1

theorem run_lifecycle {trace : List Label}
    (run : Run (State.step load) always State.loaded trace state) :
    Inv load state ∧ (state.view Value.heap).Ok load :=
  run.invariant (fun state => Inv load state ∧ (state.view Value.heap).Ok load)
    ⟨loaded_inv load, Workers.loaded_lifecycle load fun _ _ => rfl⟩ fun _ _ _ ok _ taken =>
      ⟨step_inv ok.1 taken, ok.2.step (ok.1.step_moves taken)⟩

theorem Inv.waits (inv : Inv load state) (exec : state.phase = .exec)
    (front : state.todo worker = item :: rest) (blocked : state.workerStep worker = none) :
    ∃ earlier, Remains state.todo earlier ∧ earlier.turn.serial < item.turn.serial := by
  have mine := (pcOk_exec exec).mp (inv.pcs worker item rest front)
  cases pc : state.pc worker with
  | awaitStable pointer =>
    rw [pc] at mine
    obtain ⟨-, current, writer, greatest, rfl⟩ := mine
    have row := inv.rows item.op.key
    rw [exec] at row
    have version := row.versions (by have := inv.started worker item rest front; omega) writer
      (by rw [appended_exec, current]; exact greatest.1.1)
    refine ⟨itemOf writer ⟨.update, item.op.key⟩, ?_, greatest.1.2⟩
    by_contra finished
    have stable := version.finished (.inr ⟨rfl, finished⟩)
    simp only [State.workerStep, pc, front, exec, State.execStep, stable, if_true] at blocked
    cases blocked
  | start =>
    simp only [State.workerStep, pc, front, exec, State.execStep] at blocked
    split at blocked <;> split at blocked <;> cases blocked
  | loadRecord pointer | storeStable pointer =>
    simp only [State.workerStep, pc, front, exec, State.execStep] at blocked
    cases blocked
  | unlock key =>
    simp only [State.workerStep, pc] at blocked
    cases blocked
  | _ =>
    rw [pc] at mine
    exact mine.elim

end Views

/-- Some worker that has something to do can go on, and no version is pending once
everything is done. -/
def State.Progresses (load : Workload) (state : State) : Prop :=
  ((∃ worker, state.todo worker ≠ []) →
    ∃ worker after, state.todo worker ≠ [] ∧ state.step load (.worker worker) = some after) ∧
  (state.Quiet → ∀ key, ∀ pointer < (state.rows key).heap.next,
    ((state.rows key).heap.versions pointer).status = .stable)

theorem run_progresses {load : Workload} {state : State} {trace : List Label}
    (run : Run (State.step load) always State.loaded trace state) (exec : state.phase = .exec) :
    state.Progresses load := by
  obtain ⟨inv, ok⟩ := run_lifecycle run
  refine ⟨fun ⟨worker, unfinished⟩ => ?_, fun quiet key pointer bound =>
    ok.all_stable exec (fun worker => (quiet worker).1) bound⟩
  obtain ⟨item, member⟩ := List.exists_mem_of_ne_nil _ unfinished
  have waits (worker : Worker) (item : Item Operation) (rest : List (Item Operation))
      (front : state.todo worker = item :: rest) : (∃ after, state.workerStep worker = some after) ∨
        ∃ earlier, Remains state.todo earlier ∧ earlier.turn.serial < item.turn.serial := by
    cases moves : state.workerStep worker with
    | some after => exact .inl ⟨after, rfl⟩
    | none => exact .inr (inv.waits exec front moves)
  obtain ⟨mover, left, after, taken⟩ :=
    Worklist.exists_enabled (ok.ordered exec) waits ⟨worker, member⟩
  exact ⟨mover, after, left, taken⟩

end TpccRunner.Serval
