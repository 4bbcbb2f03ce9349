import TpccRunner.Caracal.ReadCorrectness

/-!
# What the initialization phase of Caracal leaves

When every worker has finalized its buffers, the array of a row holds the version
of every writer of the epoch and what it held before, of which only the greatest
if the epoch writes the row.  On the way no buffer is appended to when it is full,
and no row buffer is installed twice.
-/

set_option autoImplicit false

namespace TpccRunner.Caracal

open TpccRunner.Utils TpccRunner.Lib
open SortedVector (Ascending)

/-! ## Buffers have room -/

/-- Every buffer of a worker has room, but the one that it is about to flush. -/
def RoomIn (maxSlots : Nat) (pc : Pc) (slots : Nat → Slots) : Prop :=
  ∀ buffer, (∀ key, pc.flushing ≠ some (key, buffer)) → (slots buffer).length < maxSlots

def HasRoom (maxSlots : Nat) (state : State) : Prop :=
  ∀ worker, RoomIn maxSlots (state.pc worker) fun buffer => state.own.buffers buffer worker

section Room
variable {load : Workload} {state after : State} {maxSlots : Nat} {worker : Worker}
  {item : Item Operation} {rest : List (Item Operation)}

structure KeepsBuffers (worker : Worker) (state after : State) : Prop where
  buffers : after.own.buffers = state.own.buffers
  others : ∀ other, other ≠ worker → after.pc other = state.pc other
  flushing : (after.pc worker).flushing = (state.pc worker).flushing

theorem HasRoom.keep (room : HasRoom maxSlots state) (keeps : KeepsBuffers worker state after) :
    HasRoom maxSlots after := by
  intro other
  rw [keeps.buffers]
  by_cases same : other = worker
  · subst same
    intro buffer notFlushed
    rw [keeps.flushing] at notFlushed
    exact room other buffer notFlushed
  · rw [keeps.others other same]
    exact room other

theorem HasRoom.change (room : HasRoom maxSlots state) (others : OthersSame worker state after)
    (mine : RoomIn maxSlots (after.pc worker) fun buffer => after.own.buffers buffer worker) :
    HasRoom maxSlots after := by
  intro other
  by_cases same : other = worker
  · subst same
    exact mine
  · have slots : (fun buffer => after.own.buffers buffer other) =
        fun buffer => state.own.buffers buffer other := funext (others.slots other same)
    rw [others.pc other same, slots]
    exact room other

theorem KeepsBuffers.of_goto {base : State} {pc : Pc}
    (buffers : base.own.buffers = state.own.buffers) (pcs : base.pc = state.pc)
    (flushing : pc.flushing = (state.pc worker).flushing) :
    KeepsBuffers worker state (base.goto worker pc) :=
  ⟨buffers, fun other differs => (Function.update_of_ne differs ..).trans (congrFun pcs other),
    by rw [goto_pc, flushing]⟩

theorem HasRoom.flush (room : HasRoom maxSlots state) (positive : 1 ≤ maxSlots)
    {key buffer : Nat} {pc : Pc}
    (target : ∀ other, (state.pc worker).flushing = some other → other.2 = buffer) :
    HasRoom maxSlots ((state.flush worker key buffer).goto worker pc) := by
  refine room.change ((((OthersSame.refl ..).setRow ..).setBuffer ..).goto _) ?_
  intro other _
  have slots := congrFun (setBuffer_slots (state.setRow key ((state.rows key).batchAppend
    (state.own.buffers buffer worker) state.epoch)) buffer worker []) other
  refine (congrArg (fun slots : Slots => slots.length < maxSlots) slots).mpr ?_
  by_cases same : other = buffer
  · subst same
    rw [Function.update_self]
    exact positive
  · rw [Function.update_of_ne same]
    refine room worker other fun otherKey flushed => same ?_
    exact target (otherKey, other) flushed

theorem HasRoom.appendContended (room : HasRoom maxSlots state) {buffer : Nat}
    (pc : state.pc worker = .contended buffer) :
    HasRoom maxSlots (state.appendContended maxSlots worker item rest buffer) := by
  have before (other : Nat) : (state.own.buffers other worker).length < maxSlots := by
    refine room worker other fun key => ?_
    rw [pc]
    simp [Pc.flushing]
  have slots := setBuffer_slots state buffer worker (PerCoreBuffer.appendable maxSlots
    (state.own.buffers buffer worker) (state.rows item.op.key).heap.next state.epoch
    item.turn.serial).1
  simp only [State.appendContended]
  split
  next hasRoom =>
    refine room.change ((((OthersSame.refl ..).setBuffer ..).setAppended _).appended' ..) ?_
    intro other _
    refine (congrArg (fun slots => (slots other).length < maxSlots) slots).mpr ?_
    by_cases same : other = buffer
    · subst same
      rw [Function.update_self]
      simpa [PerCoreBuffer.appendable] using hasRoom
    · rw [Function.update_of_ne same]
      exact before other
  next full =>
    refine room.change (((OthersSame.refl ..).setBuffer ..).appended' ..) ?_
    intro other notFlushed
    rw [appended_pc] at notFlushed
    refine (congrArg (fun slots => (slots other).length < maxSlots) slots).mpr ?_
    have differs : other ≠ buffer := by
      rintro rfl
      exact notFlushed item.op.key rfl
    rw [Function.update_of_ne differs]
    exact before other

theorem step_hasRoom {label : Label} (room : HasRoom maxSlots state) (positive : 1 ≤ maxSlots)
    (step : state.step maxSlots load label = some after) : HasRoom maxSlots after := by
  cases transition_of_step step with
  | initializes _ _ at' move =>
    cases move with
    | appendsContended => exact room.appendContended at'
    | _ => exact room.keep (.of_goto rfl rfl (by rw [at']; rfl))
  | @executes worker item rest _ _ _ _ at' move =>
    cases move with
    | misses | loads =>
      have keeps : KeepsBuffers worker state ((state.setTodo worker rest).goto worker .start) :=
        .of_goto rfl rfl (by simp [at', Pc.flushing])
      exact room.keep ⟨keeps.buffers, keeps.others, keeps.flushing⟩
    | unmade => exact @HasRoom.keep state _ maxSlots worker room ⟨rfl, fun _ _ => rfl, rfl⟩
    | _ => exact room.keep (.of_goto rfl rfl (by rw [at']; rfl))
  | flushes at' move =>
    cases move with
    | batchAppend | finalAppend => exact room.flush positive (by simp [at', Pc.flushing])
    | _ => exact room.keep (.of_goto rfl rfl (by rw [at']; rfl))
  | finalizes _ at' => exact room.keep (.of_goto rfl rfl (by rw [at']; rfl))
  | skips | barrier | newEpoch => exact room

theorem run_hasRoom {trace : List Label} (positive : 1 ≤ maxSlots)
    (run : Run (State.step maxSlots load) always State.loaded trace state) :
    HasRoom maxSlots state :=
  run.invariant (HasRoom maxSlots) (fun _ _ _ => positive) fun _ _ _ room _ taken =>
    step_hasRoom room positive taken

end Room

theorem run_buffersOk {load : Workload} {state : State} {maxSlots : Nat} {trace : List Label}
    (run : Run (State.step maxSlots load) always State.loaded trace state) : BuffersOk state :=
  run.invariant BuffersOk loaded_buffersOk fun _ _ _ ok _ taken => step_buffersOk ok taken

/-! ## The end of the phase -/

/-- The version of a transaction, as `Operation::pending_` has it; (0,0) is the loaded one. -/
def State.versionAt (state : State) (key : Nat) (at' : Nat ×ₗ Nat) : Option Nat :=
  if (ofLex at').1 = 0 then some 0 else state.pending (ofLex at').1 (ofLex at').2 key

structure ArrayComplete (load : Workload) (state : State) (key : Nat) : Prop where
  ascending : Ascending (state.rows key).globalArray
  entries : ∀ id version, (id, version) ∈ (state.rows key).globalArray ↔
    ∃ at' ∈ Kept load key state.epoch, id = globalId at' ∧
      state.versionAt key at' = some version

/-- No buffer is full when a version is appended to it, no two rows have the same
buffer, and at the end of the initialization phase all buffers are empty and all
arrays complete. -/
structure InitializationOk (maxSlots : Nat) (load : Workload) (state : State) : Prop where
  room : ∀ worker buffer, state.pc worker = .contended buffer →
    (state.own.buffers buffer worker).length < maxSlots
  unshared : ∀ one two buffer, (state.rows one).rowBuffer = some buffer →
    (state.rows two).rowBuffer = some buffer → one = two
  buffers : state.phase = .init → state.Quiet → ∀ buffer core, state.own.buffers buffer core = []
  /-- The epoch has 32 bits of a global id. -/
  arrays : state.epoch < 2 ^ 32 → state.phase = .init → state.Quiet →
    ∀ key, ArrayComplete load state key

section End
variable {load : Workload} {state : State}

theorem BuffersOk.empty (ok : BuffersOk state) (quiet : state.Quiet) (buffer : Nat)
    (core : Worker) : state.own.buffers buffer core = [] := by
  by_cases owned : ∃ key, state.rowBuffer key = some buffer
  · obtain ⟨key, installed⟩ := owned
    obtain ⟨-, pc, appended⟩ := quiet core
    by_contra nonempty
    have flushed := (ok.workers core).flushed key buffer installed nonempty
    rw [pc, appended] at flushed
    rcases flushed with member | flushing
    · cases member
    · cases flushing
  · exact ok.unowned buffer (fun key installed => owned ⟨key, installed⟩) core

theorem Inv.arrayComplete (inv : Inv load state) (ok : BuffersOk state)
    (quiet : state.Quiet) (key : Nat) : ArrayComplete load state key := by
  have row := inv.rows key
  have done (serial : Nat) : ¬ state.Left key serial :=
    Worklist.not_remains_of_empty (fun worker => (quiet worker).1) _
  have all : InArray load key state.epoch state.phase
      (fun epoch serial => state.pending epoch serial key) (state.Left key) (state.slots key) =
      load.writers key state.epoch := by
    ext serial
    refine ⟨And.left, fun writer => ⟨writer, fun _ => done serial, fun core => ?_⟩⟩
    have empty : state.slots key core = [] := by
      rw [State.slots]
      split
      · exact ok.empty quiet _ core
      · rfl
    simp [empty]
  obtain ⟨present, holds, presentOk, -⟩ := row.array
  have kept := presentOk.eq_kept fun _ => all
  subst kept
  refine ⟨holds.ascending, fun id version => ?_⟩
  rw [holds.entries]
  refine exists_congr fun at' => and_congr_right fun member => ?_
  have known : state.versionAt key at' = some (pointerOf
      (fun epoch serial => state.pending epoch serial key) at') := by
    obtain ⟨isVersion, below⟩ := presentOk.version at' member
    have made := (row.versions.version at' ⟨isVersion, below, fun serial _ _ => done serial⟩).known
    rw [State.versionAt]
    split
    next zero => rw [pointerOf, if_pos zero]
    next positive => exact made (by omega)
  rw [known, Option.some.injEq, Prod.mk.injEq, eq_comm (a := version)]

/-- In every run, with room for at least one slot in a buffer, nothing is lost or
duplicated by the initialization phase. -/
theorem initialization_complete {maxSlots : Nat} {trace : List Label} (positive : 1 ≤ maxSlots)
    (run : Run (State.step maxSlots load) always State.loaded trace state) :
    InitializationOk maxSlots load state where
  room := fun worker buffer pc => by
    refine run_hasRoom positive run worker buffer fun key => ?_
    rw [pc]
    simp [Pc.flushing]
  unshared := (run_buffersOk run).unique
  buffers := fun _ quiet => (run_buffersOk run).empty quiet
  arrays := fun fits _ quiet => (run_inv run fits).arrayComplete (run_buffersOk run) quiet

end End

/-! ## A row with a full buffer, and one in the first epoch that does not fit -/

/-- Transactions 0, 1 and 65 update key 0 in epoch 1; worker 1 runs the last two. -/
def threeWriters : Workload := fun epoch =>
  { rwSet := fun serial =>
      if epoch = 1 ∧ (serial = 0 ∨ serial = 1 ∨ serial = 65) then [⟨.update, 0⟩] else []
    distinctKeys := fun serial => by split_ifs <;> simp }

/-- Worker 1 finds the array locked, installs a buffer, flushes it when its two
slots are full and finalizes it. -/
def fullBuffer : List Label :=
  [.newEpoch] ++ ([0, 0, 1, 1, 1, 1, 1, 0, 0, 1, 1, 1, 1, 1].map fun id => .worker (workerOf id)) ++
    [.finalize (workerOf 1) 0, .worker (workerOf 1), .worker (workerOf 1)]

theorem fullBuffer_initialized :
    ∃ state, Run (State.step 2 threeWriters) always State.loaded fullBuffer state ∧
      state.phase = .init ∧ state.Quiet ∧ state.epoch = 1 ∧
      ((state.rows 0).globalArray.map Prod.fst = [0, 2 ^ 32, 2 ^ 32 + 1, 2 ^ 32 + 65]) ∧
      InitializationOk 2 threeWriters state := by
  have reached : (exec (State.step 2 threeWriters) State.loaded fullBuffer).map (fun state =>
      (decide (state.phase = .init ∧ state.Quiet ∧ state.epoch = 1),
        (state.rows 0).globalArray.map Prod.fst)) =
        some (true, [0, 2 ^ 32, 2 ^ 32 + 1, 2 ^ 32 + 65]) := by
    decide +kernel
  obtain ⟨state, success, summary⟩ := Option.map_eq_some_iff.mp reached
  obtain ⟨ended, ids⟩ := Prod.mk.inj summary
  rw [decide_eq_true_eq] at ended
  obtain ⟨phase, quiet, epoch⟩ := ended
  have run := Run.of_exec success
  exact ⟨state, run, phase, quiet, epoch, ids,
    initialization_complete (by decide) run⟩

def lateWriter : Workload := fun epoch =>
  { rwSet := fun serial => if epoch = 2 ^ 32 ∧ serial = 0 then [⟨.update, 0⟩] else []
    distinctKeys := fun serial => by split_ifs <;> simp }

/-- The new version gets the id of the loaded one. -/
theorem overflowEpoch_duplicateId :
    ∃ trace state, Run (State.step 4 lateWriter) always State.loaded trace state ∧
      state.phase = .init ∧ state.Quiet ∧ ¬ Ascending (state.rows 0).globalArray := by
  have reached : (exec (State.step 4 lateWriter)
      { State.loaded with epoch := State.loaded.epoch + (2 ^ 32 - 1) }
      ([.newEpoch] ++ List.replicate 4 (.worker 0))).map (fun state =>
        (decide (state.phase = .init ∧ state.Quiet), (state.rows 0).globalArray)) =
        some (true, [(0, 0), (0, 1)]) := by
    decide +kernel
  obtain ⟨state, success, summary⟩ := Option.map_eq_some_iff.mp reached
  obtain ⟨ended, array⟩ := Prod.mk.inj summary
  rw [decide_eq_true_eq] at ended
  have quiet : State.loaded.Quiet := fun _ => ⟨rfl, rfl, rfl⟩
  obtain ⟨trace, wait⟩ := @idle_epochs lateWriter 4 State.loaded rfl quiet (2 ^ 32 - 1)
    fun at' _ upTo serial => by
      have zero : State.loaded.epoch = 0 := rfl
      have early : ¬ (at' = 2 ^ 32 ∧ serial = 0) := by omega
      simp only [Workload.rwSet, lateWriter, if_neg early]
  refine ⟨_, state, wait.trans (Run.of_exec success), ended.1, ended.2, fun ascending => ?_⟩
  rw [array] at ascending
  exact absurd (List.pairwise_cons.mp ascending).1 (by simp)

end TpccRunner.Caracal
