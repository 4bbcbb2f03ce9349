import TpccRunner.ServalRc.Awaited
import TpccRunner.ServalRc.RowRuns

/-!
# Reads, barriers and progress of Serval_RC

A read returns the version of the greatest writer before it in its epoch, every
row is clean when an epoch ends, and the execution phase never gets stuck: the
transaction with the smallest serial id among those that come next can always
go on, since the writer it waits for comes before it.
-/

set_option autoImplicit false

namespace TpccRunner.ServalRc

open TpccRunner.Utils TpccRunner.Lib

/-! ## What a read returns -/

/-- In every run, a read that returns has the record of the greatest writer
before it in its epoch, or that of the master at the beginning of the epoch. -/
theorem returnRead_record {state : State} {trace : List Label}
    (run : Run State.step always State.loaded trace state) {worker : Worker} {reader : Nat}
    {record : Option Record} (returns : state.pc worker = .returnRead reader record) :
    (∀ writer, IsGreatest {other ∈ state.writers | other < reader} writer →
      record = some (.written state.epoch writer)) ∧
    ((∀ other ∈ state.writers, ¬ other < reader) → record = state.startVersion.record) := by
  have right : ReadRight state reader record := by
    rcases run_inv run with inv | inv | ⟨slots, inv⟩
    · rw [inv.idle worker] at returns
      cases returns
    · rw [inv.idle worker] at returns
      cases returns
    · have ok := inv.pcs worker
      rwa [returns] at ok
  rcases right with ⟨writer, greatest, same⟩ | ⟨none, same⟩
  · refine ⟨fun other isGreatest => ?_, fun none => absurd greatest.1.2 (none _ greatest.1.1)⟩
    rw [same, isGreatest.unique greatest]
  · refine ⟨fun writer isGreatest => ?_, fun _ => same⟩
    exact absurd isGreatest.1.2 (not_lt.mpr (none writer isGreatest.1.1))

def readUpdateRead : RowWorkload where
  ops serial := if serial = 1 then [.update] else if serial < 3 then [.read] else []
  distinct serial := by split_ifs <;> simp

def readAfterUpdate : List Label :=
  [.newEpoch readUpdateRead, .worker (workerOf 0), .barrier, .worker (workerOf 0),
    .worker (workerOf 0), .barrier] ++
    [1, 1, 1, 2, 2, 2].map fun id => .worker (workerOf id)

theorem readAfterUpdate_record :
    ∃ state, Run State.step always State.loaded readAfterUpdate state ∧
      state.pc 2 = .returnRead 2 (some (.written 1 1)) ∧
      ((∀ writer, IsGreatest {other ∈ state.writers | other < 2} writer →
        some (.written 1 1) = some (Record.written state.epoch writer)) ∧
      ((∀ other ∈ state.writers, ¬ other < 2) →
        some (.written 1 1) = state.startVersion.record)) := by
  have reached : (exec State.step State.loaded readAfterUpdate).map (fun state => state.pc 2) =
      some (.returnRead 2 (some (.written 1 1))) := by
    decide +kernel
  obtain ⟨state, success, returns⟩ := Option.map_eq_some_iff.mp reached
  have run := Run.of_exec success
  exact ⟨state, run, returns, returnRead_record run returns⟩

/-! ## The end of an epoch -/

section Database
variable {db : Database} {trace : List Database.Label}

structure Memory.Clean (mem : Memory) : Prop where
  refCnt : mem.row.refCnt = 0
  coreBitmap : mem.row.coreBitmap = 0
  txBitmaps : mem.row.txBitmaps = []
  placeholders : mem.row.placeholders = []
  master : (mem.versions mem.row.master).status = .stable

/-- At the end of every epoch of every run, every row is clean. -/
theorem epochEnd_clean (run : Run Database.step always Database.loaded trace db)
    (phase : db.phase = .exec) (quiet : db.Quiet) (key : Nat) : (db.rows key).Clean := by
  obtain ⟨rowTrace, history, rowRun⟩ := run_rowOn run key
  have rowQuiet := quiet.rowOn key history
  obtain ⟨slots, inv, -⟩ := run_serving rowRun phase
  obtain ⟨refCnt, ⟨coreBitmap, txBitmaps⟩, placeholders⟩ := inv.clean rowQuiet
  obtain ⟨-, stable, -⟩ := inv.master_stable rowQuiet
  exact ⟨refCnt, coreBitmap, txBitmaps, placeholders, stable⟩

/-! ## Progress -/

theorem Database.blocked_read {worker : Worker} {item : Item Operation}
    {rest : List (Item Operation)} (phase : db.phase = .exec)
    (atNext : db.pc worker = .next) (front : db.todo worker = item :: rest)
    (blocked : db.workerStep worker = none) :
    item.op.ope = .read ∧ ((db.rows item.op.key).versions
      (db.pending item.turn.serial item.op.key)).status ≠ .stable := by
  simp only [Database.workerStep, atNext, front, if_pos phase, Database.beginOperation] at blocked
  cases ope : item.op.ope with
  | read =>
    rw [ope] at blocked
    exact ⟨rfl, by simpa using blocked⟩
  | update =>
    rw [ope] at blocked
    simp only at blocked
    split at blocked <;> cases blocked

/-- With nobody in the middle of an operation, a version that a reader waits for
belongs to an earlier transaction that is still in a worklist. -/
theorem Database.awaited_writer (run : Run Database.step always Database.loaded trace db)
    (phase : db.phase = .exec) (idle : ∀ worker, db.pc worker = .next) {worker : Worker}
    {item : Item Operation} {rest : List (Item Operation)}
    (front : db.todo worker = item :: rest) (isRead : item.op.ope = .read)
    (pending : ((db.rows item.op.key).versions
      (db.pending item.turn.serial item.op.key)).status ≠ .stable) :
    ∃ other, ∃ earlier ∈ db.todo other, earlier.turn.serial < item.turn.serial := by
  obtain ⟨rowTrace, history, rowRun⟩ := run_rowOn run item.op.key
  obtain ⟨slots, inv, awaited⟩ := run_serving rowRun phase
  have rowFront : (db.rowOn item.op.key history).todo worker = _ :=
    (itemsOn_update_same front rfl).1
  obtain ⟨bound, -, member, -⟩ := inv.todo.head rowFront
  have reader : item.turn.serial ∈ (db.rowOn item.op.key history).readers := by
    refine ⟨bound, ?_⟩
    rw [← isRead]
    exact member
  rcases inv.placed.given _ reader with ⟨slot, slotMem, greatest, same⟩ | ⟨-, same⟩
  · rcases awaited slot slotMem with stable | left | filling
    · rw [← same] at stable
      exact absurd stable pending
    · obtain ⟨other, otherMem⟩ := left
      obtain ⟨earlier, earlierMem, shape⟩ := List.mem_map.mp otherMem
      refine ⟨other, earlier, (List.mem_filter.mp earlierMem).1, ?_⟩
      have serial : earlier.turn.serial = slot.1 := congrArg (·.turn.serial) shape
      rw [serial]
      exact greatest.1.2
    · have nobody : (db.rowOn item.op.key history).pc (remainderOwner slot.1) = .next :=
        Database.pcOn_of_next (idle _) _
      rw [Filling, nobody] at filling
      rcases filling with storing | storing <;> cases storing
  · have stable : (((db.rowOn item.op.key history).mem.versions
        ((db.rowOn item.op.key history).pending item.turn.serial))).status = .stable := by
      rw [same, inv.startKept]
      exact inv.startStable
    exact absurd stable pending

theorem Database.busy_steps (inOrder : db.InOrder) {worker : Worker}
    (busy : db.pc worker ≠ .next) : ∃ after, db.workerStep worker = some after := by
  unfold Database.workerStep
  cases atPc : db.pc worker with
  | next => exact absurd atPc busy
  | decrement record =>
    obtain ⟨item, rest, front, -⟩ := inOrder.reading worker (.inr ⟨record, atPc⟩)
    rw [front]
    exact ⟨_, rfl⟩
  | loadRecord pointer => exact ⟨_, rfl⟩
  | returnRead serial record => exact ⟨_, rfl⟩
  | storeRecord serial pointer => exact ⟨_, rfl⟩
  | storeStable serial pointer => exact ⟨_, rfl⟩

/-- With nobody in the middle of an operation but some operation to do, some
worker can begin one. -/
theorem Database.exists_step (run : Run Database.step always Database.loaded trace db)
    (phase : db.phase = .exec) (idle : ∀ worker, db.pc worker = .next) {worker : Worker}
    {item : Item Operation} (member : item ∈ db.todo worker) :
    ∃ mover after, db.workerStep mover = some after := by
  -- the transaction that a blocked reader waits for has a smaller serial id
  have waits (worker : Worker) (item : Item Operation) (rest : List (Item Operation))
      (front : db.todo worker = item :: rest) : (∃ after, db.workerStep worker = some after) ∨
        ∃ earlier, Worklist.Remains db.todo earlier ∧ earlier.turn.serial < item.turn.serial := by
    cases taken : db.workerStep worker with
    | some after => exact .inl ⟨after, rfl⟩
    | none =>
      obtain ⟨isRead, pending⟩ := Database.blocked_read phase (idle worker) front taken
      obtain ⟨other, earlier, earlierMem, less⟩ :=
        Database.awaited_writer run phase idle front isRead pending
      exact .inr ⟨earlier, ⟨other, earlierMem⟩, less⟩
  obtain ⟨mover, -, moves⟩ :=
    Worklist.exists_enabled (run_inOrder run).ascending waits ⟨worker, member⟩
  exact ⟨mover, moves⟩

/-- In every state of the execution phase in which some worker has an operation
to finish, some worker can take its next step. -/
theorem execution_not_stuck (run : Run Database.step always Database.loaded trace db)
    (phase : db.phase = .exec) {worker : Worker}
    (unfinished : db.todo worker ≠ [] ∨ db.pc worker ≠ .next) :
    ∃ mover after, db.step (.worker mover) = some after := by
  by_cases idle : ∀ other, db.pc other = .next
  · rcases unfinished with left | busy
    · obtain ⟨item, member⟩ := List.exists_mem_of_ne_nil _ left
      exact Database.exists_step run phase idle member
    · exact absurd (idle worker) busy
  · obtain ⟨mover, busy⟩ := not_forall.mp idle
    obtain ⟨after, taken⟩ := Database.busy_steps (run_inOrder run) busy
    exact ⟨mover, after, taken⟩

end Database

/-! ## Two transactions on two rows -/

def writerAndReader : Transactions where
  rwSet serial :=
    if serial = 0 then [⟨.update, 0⟩, ⟨.update, 1⟩]
    else if serial = 1 then [⟨.read, 1⟩, ⟨.read, 0⟩] else []
  distinctKeys serial := by split_ifs <;> simp

def registration : List Database.Label :=
  [.newEpoch writerAndReader] ++ List.replicate 2 (.worker (workerOf 0)) ++ [.barrier] ++
    List.replicate 2 (.worker (workerOf 0)) ++ [.barrier]

def execution : List Database.Label :=
  List.replicate 6 (.worker (workerOf 0)) ++ List.replicate 8 (.worker (workerOf 1))

theorem registration_not_stuck :
    ∃ db, Run Database.step always Database.loaded registration db ∧
      db.workerStep 1 = none ∧ ∃ mover after, db.step (.worker mover) = some after := by
  have reached : (exec Database.step Database.loaded registration).map (fun db =>
      (decide (db.phase = .exec), decide (db.todo 1 = []), (db.workerStep 1).isNone)) =
        some (true, false, true) := by
    decide +kernel
  obtain ⟨db, success, summary⟩ := Option.map_eq_some_iff.mp reached
  simp only [Prod.mk.injEq, decide_eq_true_eq, decide_eq_false_iff_not, Option.isNone_iff_eq_none]
    at summary
  obtain ⟨phase, left, waits⟩ := summary
  have run := Run.of_exec success
  exact ⟨db, run, waits, execution_not_stuck run phase (.inl left)⟩

theorem execution_clean :
    ∃ db, Run Database.step always Database.loaded (registration ++ execution) db ∧
      (db.rows 1).versions (db.rows 1).row.master = ⟨some (.written 1 0), .stable⟩ ∧
      (db.rows 1).Clean := by
  have reached : (exec Database.step Database.loaded (registration ++ execution)).map (fun db =>
      (decide (db.phase = .exec ∧ db.Quiet), (db.rows 1).versions (db.rows 1).row.master)) =
        some (true, ⟨some (.written 1 0), .stable⟩) := by
    decide +kernel
  obtain ⟨db, success, summary⟩ := Option.map_eq_some_iff.mp reached
  simp only [Prod.mk.injEq, decide_eq_true_eq] at summary
  obtain ⟨⟨phase, quiet⟩, master⟩ := summary
  have run := Run.of_exec success
  exact ⟨db, run, master, epochEnd_clean run phase quiet 1⟩

end TpccRunner.ServalRc
