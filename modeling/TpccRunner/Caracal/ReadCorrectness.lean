import TpccRunner.Caracal.Phases

/-!
# What the reads of Caracal return

In every run of fewer than 2^32 epochs a read returns the version of the greatest
writer before it, and the collection has deleted nothing that a transaction of
the current epoch must read.  From epoch 2^32 on the epoch no longer fits the
upper half of a global id and the order of the ids is lost.
-/

set_option autoImplicit false

namespace TpccRunner.Caracal

open TpccRunner.Utils TpccRunner.Lib

section Epochs
variable {load : Workload} {state after : State} {maxSlots : Nat}

theorem step_epoch_le {label : Label} (step : state.step maxSlots load label = some after) :
    state.epoch ≤ after.epoch := by
  cases transition_of_step step with
  | initializes _ _ _ move =>
    cases move with
    | appendsContended =>
      simp only [State.appendContended]
      split <;> exact le_rfl
    | _ => exact le_rfl
  | executes _ _ _ move => cases move <;> exact le_rfl
  | flushes _ move => cases move <;> exact le_rfl
  | newEpoch => exact Nat.le_succ _
  | _ => exact le_rfl

theorem run_inv {trace : List Label}
    (run : Run (State.step maxSlots load) always State.loaded trace state)
    (fits : state.epoch < 2 ^ 32) : Inv load state := by
  have both := run.invariant
    (fun state => BuffersOk state ∧ (state.epoch < 2 ^ 32 → Inv load state))
    ⟨loaded_buffersOk, fun _ => loaded_inv load⟩
    fun before label next inv _ taken => ⟨step_buffersOk inv.1 taken, fun nextFits =>
      have beforeFits := (step_epoch_le taken).trans_lt nextFits
      step_inv (inv.2 beforeFits) inv.1 beforeFits taken⟩
  exact both.2 fits

theorem Inv.keepsReadable (inv : Inv load state) : state.KeepsReadable load := by
  intro key serial found greatest pointer version
  have row := inv.rows key
  cases found with
  | none =>
    obtain rfl : 0 = pointer := Option.some.inj version
    refine @RowInv.readable load key state.epoch state.phase (state.rows key) _ _ _ row serial
      (toLex (0, 0)) ⟨.inl rfl, lex_lt.mpr (.inl (Nat.succ_pos _)), fun other same init => ?_⟩ ?_
    · have zero : 0 = state.epoch := congrArg (fun at' => (ofLex at').1) same
      have := inv.positive init
      omega
    · exact fun other writer below => absurd (greatest other writer) (not_le.mpr below)
  | some last =>
    have known : state.pending (ofLex last).1 (ofLex last).2 key = some pointer := version
    obtain ⟨⟨writer, below⟩, upper⟩ := greatest
    have made : last ∈ Made load key state.epoch state.phase (state.Left key) := by
      refine ⟨.inr writer, below.trans (lex_lt.mpr (.inl (Nat.lt_succ_self _))), ?_⟩
      rintro other rfl init isLeft
      have unmade := row.versions.unmade state.epoch other (.inr ⟨rfl, init, isLeft⟩)
      have : some pointer = none := known.symm.trans unmade
      cases this
    have same := (row.versions.version last made).known writer.1
    obtain rfl := Option.some.inj (known.symm.trans same)
    exact row.readable made fun other otherWriter otherBelow => upper ⟨otherWriter, otherBelow⟩

/-- In every run of fewer than 2^32 epochs, every read returned the version of the
greatest writer before it, and nothing a transaction of the epoch must read has
been deleted. -/
theorem reads_correct_of_epoch_fits {trace : List Label}
    (run : Run (State.step maxSlots load) always State.loaded trace state)
    (fits : state.epoch < 2 ^ 32) :
    (∀ event ∈ state.reads, event.Correct load) ∧ state.KeepsReadable load :=
  ⟨(run_inv run fits).events, (run_inv run fits).keepsReadable⟩

end Epochs

/-! ## A row that is written in epoch 1 and read much later -/

def writeThenRead : Workload := fun epoch =>
  { rwSet := fun serial =>
      if epoch = 1 ∧ serial = 0 then [⟨.update, 0⟩]
      else if (epoch = 2 ∨ epoch = 2 ^ 32) ∧ serial = 1 then [⟨.read, 0⟩] else []
    distinctKeys := fun serial => by split_ifs <;> simp }

def writeEpoch : List Label :=
  [.newEpoch] ++ List.replicate 4 (.worker (workerOf 0)) ++ [.barrier] ++
    List.replicate 2 (.worker (workerOf 0))

def readEpoch : List Label := [.newEpoch, .barrier] ++ List.replicate 3 (.worker (workerOf 1))

/-- In epoch 2 the reader gets the version of epoch 1. -/
theorem read_nextEpoch_correct :
    ∃ state, Run (State.step 4 writeThenRead) always State.loaded (writeEpoch ++ readEpoch) state ∧
      state.epoch < 2 ^ 32 ∧ (∃ event ∈ state.reads, event.record = some (.written 1 0)) ∧
      (∀ event ∈ state.reads, event.Correct writeThenRead) ∧
      state.KeepsReadable writeThenRead := by
  have reached : (exec (State.step 4 writeThenRead) State.loaded (writeEpoch ++ readEpoch)).map
      (fun state => (state.epoch, state.reads)) =
        some (2, [⟨2, 1, 0, some (.written 1 0)⟩]) := by
    decide +kernel
  obtain ⟨state, success, summary⟩ := Option.map_eq_some_iff.mp reached
  obtain ⟨epoch, reads⟩ := Prod.mk.inj summary
  have run := Run.of_exec success
  have fits : state.epoch < 2 ^ 32 := by omega
  exact ⟨state, run, fits, ⟨_, by rw [reads]; exact List.mem_singleton_self _, rfl⟩,
    reads_correct_of_epoch_fits run fits⟩

section Idle
variable {load : Workload} {maxSlots : Nat}

theorem idle_worklists {epoch : Nat} (idle : ∀ serial, load.rwSet epoch serial = []) :
    initializationPhase load epoch = (fun _ => []) ∧ executionPhase load epoch = fun _ => [] := by
  have none (worker : Worker) : load.operations roundRobinAssignment epoch worker = [] := by
    simp [Workload.operations, perTransaction, idle]
  exact ⟨funext fun worker => by simp [initializationPhase, Workload.updates, none],
    funext none⟩

theorem idle_epochs {state : State} (exec : state.phase = .exec) (quiet : state.Quiet)
    (count : Nat) (idle : ∀ epoch, state.epoch < epoch → epoch ≤ state.epoch + count →
      ∀ serial, load.rwSet epoch serial = []) :
    ∃ trace, Run (State.step maxSlots load) always state trace
      { state with epoch := state.epoch + count } := by
  induction count with
  | zero => exact ⟨[], .nil⟩
  | succ count ih =>
    obtain ⟨trace, run⟩ := ih fun epoch more upTo => idle epoch more (by omega)
    obtain ⟨noInit, noExec⟩ := idle_worklists (idle (state.epoch + count + 1) (by omega) (by omega))
    have empty : state.todo = fun _ => [] := funext fun worker => (quiet worker).1
    have opened : State.step maxSlots load { state with epoch := state.epoch + count } .newEpoch =
        some { state with epoch := state.epoch + count + 1, phase := .init } := by
      rw [State.step, if_pos ⟨exec, quiet⟩]
      simp only [noInit, empty]
    have closed : State.step maxSlots load
        { state with epoch := state.epoch + count + 1, phase := .init } .barrier =
        some { state with epoch := state.epoch + (count + 1) } := by
      rw [State.step, if_pos ⟨rfl, quiet⟩]
      simp only [noExec, empty, ← exec]
      rfl
    exact ⟨_, (run.snoc trivial opened).snoc trivial closed⟩

end Idle

/-- After 2^32 epochs the reader gets the loaded version. -/
theorem read_overflowEpoch_stale :
    ∃ trace state, Run (State.step 4 writeThenRead) always State.loaded trace state ∧
      ∃ event ∈ state.reads, ¬ event.Correct writeThenRead := by
  have reached : ((exec (State.step 4 writeThenRead) State.loaded (writeEpoch ++ readEpoch)).bind
      fun state => (exec (State.step 4 writeThenRead)
        { state with epoch := state.epoch + (2 ^ 32 - 3) } readEpoch).map fun final =>
          (decide (state.phase = .exec ∧ state.Quiet ∧ state.epoch = 2), final.reads)) =
        some (true, [⟨2 ^ 32, 1, 0, some .loaded⟩, ⟨2, 1, 0, some (.written 1 0)⟩]) := by
    decide +kernel
  obtain ⟨early, first, rest⟩ := Option.bind_eq_some_iff.mp reached
  obtain ⟨final, last, summary⟩ := Option.map_eq_some_iff.mp rest
  obtain ⟨quiet, reads⟩ := Prod.mk.inj summary
  rw [decide_eq_true_eq] at quiet
  obtain ⟨exec, quiet, epoch⟩ := quiet
  obtain ⟨trace, wait⟩ := @idle_epochs writeThenRead 4 early exec quiet (2 ^ 32 - 3)
    fun at' more upTo serial => by
      have notFirst : ¬ (at' = 1 ∧ serial = 0) := by omega
      have notRead : ¬ ((at' = 2 ∨ at' = 2 ^ 32) ∧ serial = 1) := by omega
      simp only [Workload.rwSet, writeThenRead, if_neg notFirst, if_neg notRead]
  refine ⟨_, final, ((Run.of_exec first).trans wait).trans (Run.of_exec last),
    ⟨2 ^ 32, 1, 0, some .loaded⟩, by rw [reads]; exact List.mem_cons_self, ?_⟩
  rintro ⟨found, greatest, content⟩
  have written : (toLex (1, 0) : Nat ×ₗ Nat) ∈ writeThenRead.allWriters 0 :=
    mem_allWriters.mpr ⟨le_rfl, by norm_num, by simp [Workload.rwSet, writeThenRead]⟩
  cases found with
  | none =>
    have before : 2 ^ 32 < 1 ∨ 2 ^ 32 = 1 ∧ 1 ≤ 0 := lex_le.mp (greatest _ written)
    omega
  | some last => simp [recordOf] at content

end TpccRunner.Caracal
