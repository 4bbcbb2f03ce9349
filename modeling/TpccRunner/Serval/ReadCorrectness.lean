import TpccRunner.Serval.Execution

/-!
# What the reads of Serval return

A read finds the version of the greatest writer before it exactly when its row is
written in the epoch of the read, or was never written before.  `read` takes the
master of a row that its own epoch does not write, and the master is brought up
to date only by the next epoch that does.
-/

set_option autoImplicit false

namespace TpccRunner.Serval

open TpccRunner.Utils TpccRunner.Lib

section Events
variable {load : Workload} {event : ReadEvent}

theorem EventOk.correct_iff (ok : EventOk load event) :
    event.Correct load ↔ Fresh load event := by
  rcases ok with ⟨written, correct⟩ | ⟨last, older, lastWritten, since, record, final, returned⟩
  · exact ⟨fun _ => .inl written, fun _ => correct⟩
  · have unwritten : load.writers event.key event.epoch = ∅ := since _ older le_rfl
    have noneSmaller : ∀ other ∈ load.writers event.key event.epoch, event.serial ≤ other := by
      simp [unwritten]
    by_cases never : last = 0
    · -- the row is as it was loaded
      subst never
      have quiet (epoch : Nat) (positive : 1 ≤ epoch) (before : epoch < event.epoch) :
          load.writers event.key epoch = ∅ := since epoch positive before.le
      refine ⟨fun _ => .inr quiet, fun _ => ⟨none, none_of_unwritten quiet noneSmaller, ?_⟩⟩
      rw [returned, final.loaded_of_zero]
      rfl
    · have positive : 1 ≤ last := by omega
      have writers := lastWritten positive
      constructor
      · rintro ⟨found, greatest, content⟩
        obtain ⟨writer, isLast⟩ := exists_last_writer writers
        have expected := greatest_of_last positive isLast older
          (fun between more before => since between more before.le) noneSmaller
        rw [greatest.unique expected, returned] at content
        exact absurd (Option.some.inj content) final.ne_written
      · rintro (written | quiet)
        · exact absurd unwritten written.ne_empty
        · exact absurd (quiet last positive older) writers.ne_empty

end Events

theorem run_inv {load : Workload} {trace : List Label} {state : State}
    (run : Run (State.step load) always State.loaded trace state) : Inv load state :=
  run.invariant (Inv load) (loaded_inv load) fun _ _ _ inv _ taken => step_inv inv taken

/-- In every run, a read returned the version of the greatest writer before it if
and only if its key is written in its epoch or was never written before. -/
theorem read_correct_iff_fresh {load : Workload} {trace : List Label} {state : State}
    (run : Run (State.step load) always State.loaded trace state) {event : ReadEvent}
    (read : event ∈ state.reads) : event.Correct load ↔ Fresh load event :=
  ((run_inv run).events event read).correct_iff

/-! ## A row that is written in one epoch and read in the next -/

def writeThenRead : Workload := fun epoch =>
  { rwSet := fun serial =>
      if epoch = 1 ∧ serial = 0 then [⟨.update, 0⟩]
      else if (epoch = 1 ∨ epoch = 2) ∧ serial = 1 then [⟨.read, 0⟩] else []
    distinctKeys := fun serial => by split_ifs <;> simp }

def firstEpoch : List Label :=
  [.newEpoch] ++ List.replicate 7 (.worker (workerOf 0)) ++
    [.barrier] ++ [0, 0, 1, 1, 1].map fun id => .worker (workerOf id)

def secondEpoch : List Label := [.newEpoch, .barrier, .worker (workerOf 1), .worker (workerOf 1)]

theorem mem_writers_writeThenRead {epoch serial : Nat} :
    serial ∈ writeThenRead.writers 0 epoch ↔ epoch = 1 ∧ serial = 0 := by
  simp only [Workload.writers, Workload.rwSet, writeThenRead, Set.mem_ofPred_eq]
  split_ifs with first second <;> simp <;> omega

theorem read_nextEpoch_stale :
    ∃ state, Run (State.step writeThenRead) always State.loaded (firstEpoch ++ secondEpoch) state ∧
      ∃ event ∈ state.reads, ¬ event.Correct writeThenRead := by
  have reached : (exec (State.step writeThenRead) State.loaded (firstEpoch ++ secondEpoch)).map
      Workers.reads = some [⟨2, 1, 0, some .loaded⟩, ⟨1, 1, 0, some (.written 1 0)⟩] := by
    decide +kernel
  obtain ⟨state, success, reads⟩ := Option.map_eq_some_iff.mp reached
  refine ⟨state, Run.of_exec success, ⟨2, 1, 0, some .loaded⟩, by simp [reads], ?_⟩
  rintro ⟨found, greatest, content⟩
  have written : (toLex (1, 0) : Nat ×ₗ Nat) ∈ writeThenRead.allWriters 0 :=
    mem_allWriters.mpr ⟨le_rfl, mem_writers_writeThenRead.mpr ⟨rfl, rfl⟩⟩
  cases found with
  | none => exact absurd (greatest _ written) (by decide)
  | some last => simp [recordOf] at content

/-- In the epoch that writes the key the reader gets the version of the epoch. -/
theorem read_sameEpoch_correct :
    ∃ state, Run (State.step writeThenRead) always State.loaded firstEpoch state ∧
      ∃ event ∈ state.reads, Fresh writeThenRead event ∧ event.Correct writeThenRead := by
  have reached : (exec (State.step writeThenRead) State.loaded firstEpoch).map Workers.reads =
      some [⟨1, 1, 0, some (.written 1 0)⟩] := by
    decide +kernel
  obtain ⟨state, success, reads⟩ := Option.map_eq_some_iff.mp reached
  have run := Run.of_exec success
  have member : (⟨1, 1, 0, some (.written 1 0)⟩ : ReadEvent) ∈ state.reads := by simp [reads]
  have fresh : Fresh writeThenRead ⟨1, 1, 0, some (.written 1 0)⟩ :=
    .inl ⟨0, mem_writers_writeThenRead.mpr ⟨rfl, rfl⟩⟩
  exact ⟨state, run, _, member, fresh, (read_correct_iff_fresh run member).mpr fresh⟩

end TpccRunner.Serval
