import TpccRunner.Serval.Initialization

/-!
# The execution phase of Serval

A reader takes the version of the greatest smaller writer of its epoch once that
is stable, or the master; a writer fills the version it appended.
-/

set_option autoImplicit false

namespace TpccRunner.Serval

open TpccRunner.Utils TpccRunner.Lib

section Exec
variable {load : Workload} {state after : State} {worker : Worker} {item : Item Operation}
  {rest : List (Item Operation)}

theorem pcOk_exec {epoch : Nat} {phase : Phase} {val : Value} {pending : Nat → Nat → Option Nat}
    {pc : Pc} (exec : phase = .exec) :
    PcOk load epoch phase val pending item pc ↔ ExecPc load epoch val pending item pc := by
  rw [exec]
  exact Iff.rfl

theorem ExecPc.setVersion {epoch : Nat} {val : Value} {pending : Nat → Nat → Option Nat} {pc : Pc}
    (ok : ExecPc load epoch val pending item pc) {pointer : Nat} {version : Version}
    (status : (val.heap.versions pointer).status = .stable → version.status = .stable)
    (record : item.turn.serial ∈ load.writers item.op.key epoch →
      pointer = pointerOf val pending item.turn.serial →
      (val.heap.versions pointer).record = some (.written epoch item.turn.serial) →
      version.record = some (.written epoch item.turn.serial)) :
    ExecPc load epoch { val with heap := val.heap.setVersion pointer version } pending item pc := by
  cases pc with
  | loadRecord target =>
    obtain ⟨read, ⟨current, writer, greatest, rfl, stable⟩ | fromMaster⟩ := ok
    · refine ⟨read, .inl ⟨current, writer, greatest, rfl, ?_⟩⟩
      show ((val.heap.setVersion pointer version).versions (pointerOf val pending writer)).status
        = _
      by_cases same : pointerOf val pending writer = pointer
      · rw [same, Heap.setVersion_self]
        exact status (same ▸ stable)
      · rwa [Heap.setVersion_of_ne _ _ same]
    · exact ⟨read, .inr fromMaster⟩
  | storeStable target =>
    obtain ⟨current, update, isWriter, rfl, filled⟩ := ok
    refine ⟨current, update, isWriter, rfl, ?_⟩
    show ((val.heap.setVersion pointer version).versions
      (pointerOf val pending item.turn.serial)).record = _
    by_cases same : pointerOf val pending item.turn.serial = pointer
    · rw [same, Heap.setVersion_self]
      exact record isWriter same.symm (same ▸ filled)
    · rwa [Heap.setVersion_of_ne _ _ same]
  | _ => exact ok

theorem RowInv.select {key epoch reader : Nat} {val : Value} {pending : Nat → Nat → Option Nat}
    {left : Nat → Prop} (inv : RowInv load key epoch .exec val pending left) (started : 1 ≤ epoch)
    (bound : reader < 4096) :
    ∃ found, GreatestBelow (load.writers key epoch) reader found ∧
      (found.isSome → val.epoch = epoch) ∧
      val.selectVersion epoch (reader / 64) reader =
        some (found.elim (val.master, false) fun writer =>
          (pointerOf val pending writer, true)) := by
  by_cases current : val.epoch = epoch
  · have holds := inv.holds (by omega)
    rw [appended_exec] at holds
    obtain ⟨found, greatest, selected⟩ := holds.select (inv.written (by omega)) bound
    rw [current] at greatest selected
    exact ⟨found, greatest, fun _ => current, selected⟩
  · have none := inv.since epoch (lt_of_le_of_ne inv.epoch_le current) (.inr ⟨rfl, rfl⟩)
    refine ⟨.none, ?_, fun impossible => (by cases impossible), ?_⟩
    · rw [none]
      exact fun _ impossible => impossible.elim
    · rw [Value.selectVersion, if_pos current]
      rfl

theorem RowInv.read_event {epoch : Nat} {val : Value} {pending : Nat → Nat → Option Nat}
    {left : Nat → Prop} (inv : RowInv load item.op.key epoch .exec val pending left)
    (started : 1 ≤ epoch) {pointer : Nat}
    (ok : ExecPc load epoch val pending item (.loadRecord pointer)) :
    EventOk load ⟨epoch, item.turn.serial, item.op.key, (val.heap.versions pointer).record⟩ := by
  obtain ⟨-, ⟨current, writer, greatest, rfl, stable⟩ | ⟨rfl, greatest⟩⟩ := ok
  · have isWriter : writer ∈ load.writers item.op.key epoch := greatest.1.1
    have version := inv.versions (by omega) writer (by rwa [appended_exec, current])
    refine .inl ⟨⟨writer, isWriter⟩, _, greatestBelow_of_writer started greatest, ?_⟩
    rw [version.written stable, current]
    rfl
  · obtain ⟨-, record, final, content⟩ := inv.master
    rw [content]
    rcases inv.epoch_le.lt_or_eq with older | current
    · refine .inr ⟨val.epoch, older, inv.written, fun later more upTo => ?_, record, final, rfl⟩
      exact inv.since later more (upTo.lt_or_eq.imp_right fun same => ⟨same, rfl⟩)
    · obtain ⟨found, before, rfl⟩ := final
      rw [current] at before
      refine .inl ⟨current ▸ inv.written (by omega), found, ?_, rfl⟩
      exact greatestBelow_of_finalBefore before greatest

theorem Inv.returned (inv : Inv load state) (front : state.todo worker = item :: rest)
    (read : item.op.ope = .read) {record : Option Record}
    (event : EventOk load ⟨state.epoch, item.turn.serial, item.op.key, record⟩) :
    Inv load (state.returned worker item rest record .start) := by
  refine inv.touch (Workers.changes_returned front) ?_ (fun _ _ _ => pcOk_start _)
    (fun _ _ _ ok => ok) ?_
  · rw [inv.scheduled.left_pop_read front rfl read]
    exact inv.rows item.op.key
  · intro other member
    rcases List.mem_cons.mp member with rfl | old
    · exact event
    · exact inv.events other old

theorem Inv.read_start (inv : Inv load state) (exec : state.phase = .exec)
    (front : state.todo worker = item :: rest) (read : item.op.ope = .read)
    (step : state.execStep worker item rest .start = some after) : Inv load after := by
  obtain ⟨bound, shape, -, -⟩ := inv.scheduled.item_facts front
  have core : item.turn.core = item.turn.serial / 64 := congrArg (·.turn.core) shape
  have row := inv.rows item.op.key
  rw [exec] at row
  obtain ⟨found, greatest, current, selected⟩ :=
    row.select (inv.started worker item rest front) bound
  simp only [State.execStep, read, core, selected] at step
  cases found with
  | none =>
    cases step
    exact inv.goto front ((pcOk_exec exec).mpr ⟨read, .inr ⟨rfl, greatest⟩⟩)
  | some writer =>
    cases step
    exact inv.goto front ((pcOk_exec exec).mpr ⟨read, current rfl, writer, greatest, rfl⟩)

theorem Inv.update_start (inv : Inv load state) (exec : state.phase = .exec)
    (front : state.todo worker = item :: rest) (update : item.op.ope = .update)
    (step : state.execStep worker item rest .start = some after) : Inv load after := by
  have writer := inv.scheduled.writer front update
  have started := inv.started worker item rest front
  have row := inv.rows item.op.key
  rw [exec] at row
  have current := row.current_of_writer writer
  have member : item.turn.serial ∈ Appended load item.op.key state.epoch .exec
      (state.rows item.op.key) (state.Left item.op.key) := by rwa [appended_exec, current]
  have known := (row.versions (by omega) _ member).known
  rw [current] at known
  simp only [State.execStep, update, known] at step
  cases step
  have isLeft := inv.scheduled.left_head front update
  have newRow := row.setVersion (by rwa [current]) (by omega)
    { (state.rows item.op.key).heap.versions (pointerOf (state.rows item.op.key)
        (fun epoch serial => state.pending epoch serial item.op.key) item.turn.serial) with
      record := some (.written state.epoch item.turn.serial) }
    (fun _ _ => Iff.rfl) (fun _ => by rw [current])
    (fun cases => cases.elim (fun less => absurd current less.ne) fun done => absurd isLeft done)
  refine inv.setRow front (by rw [exec]; exact newRow) ((pcOk_exec exec).mpr ?_)
    fun other pc sameKey ok => ?_
  · refine ⟨current, update, writer, rfl, ?_⟩
    exact congrArg Version.record (Heap.setVersion_self ..)
  · rw [pcOk_exec exec] at ok ⊢
    refine ok.setVersion (fun stable => stable) fun isWriter same filled => ?_
    rw [sameKey] at isWriter
    have equal := row.distinct _ member _ (by rwa [appended_exec, current]) (by omega) same
    rw [equal]

theorem Inv.storeStable (inv : Inv load state) (exec : state.phase = .exec)
    (front : state.todo worker = item :: rest) {pointer : Nat}
    (mine : ExecPc load state.epoch (state.rows item.op.key)
      (fun epoch serial => state.pending epoch serial item.op.key) item (.storeStable pointer))
    (step : state.execStep worker item rest (.storeStable pointer) = some after) :
    Inv load after := by
  obtain ⟨current, update, writer, rfl, filled⟩ := mine
  have started := inv.started worker item rest front
  have row := inv.rows item.op.key
  rw [exec] at row
  cases step
  refine inv.touch (Workers.changes_done front) ?_ (fun _ _ _ => pcOk_start _) ?_ inv.events
  · rw [exec]
    refine row.setVersion (by rwa [current]) (by omega)
      { (state.rows item.op.key).heap.versions (pointerOf (state.rows item.op.key)
          (fun epoch serial => state.pending epoch serial item.op.key) item.turn.serial) with
        status := .stable } (fun other differs => ?_) (fun _ => by rw [current]; exact filled)
      (fun _ => rfl)
    exact (inv.scheduled.left_pop_update front rfl update).trans (and_iff_left differs)
  · intro other pc _ ok
    rw [pcOk_exec exec] at ok ⊢
    exact ok.setVersion (fun _ => rfl) fun _ _ content => content

theorem Inv.execStep (inv : Inv load state) (exec : state.phase = .exec)
    (front : state.todo worker = item :: rest)
    (step : state.execStep worker item rest (state.pc worker) = some after) : Inv load after := by
  have mine := (pcOk_exec exec).mp (inv.pcs worker item rest front)
  cases pc : state.pc worker with
  | start =>
    rw [pc] at step
    cases ope : item.op.ope with
    | read => exact inv.read_start exec front ope step
    | update => exact inv.update_start exec front ope step
  | awaitStable pointer =>
    rw [pc] at mine step
    obtain ⟨read, current, writer, greatest, rfl⟩ := mine
    rw [State.execStep, Option.ite_none_right_eq_some] at step
    obtain ⟨stable, moved⟩ := step
    cases moved
    exact inv.goto front
      ((pcOk_exec exec).mpr ⟨read, .inl ⟨current, writer, greatest, rfl, stable⟩⟩)
  | loadRecord pointer =>
    rw [pc] at mine step
    cases step
    have row := inv.rows item.op.key
    rw [exec] at row
    exact inv.returned front mine.1 (row.read_event (inv.started worker item rest front) mine)
  | storeStable pointer =>
    rw [pc] at mine step
    exact inv.storeStable exec front mine step
  | unlock key =>
    rw [pc] at step
    cases step
  | _ =>
    rw [pc] at mine
    exact mine.elim

end Exec

/-! ## Every step -/

theorem step_inv {load : Workload} {state after : State} {label : Label} (inv : Inv load state)
    (step : state.step load label = some after) : Inv load after := by
  cases label with
  | worker worker =>
    rw [State.step, State.workerStep] at step
    split at step
    · cases step
      exact inv.unlockFinished worker _
    · cases step
    · rename_i item rest front _
      cases phase : state.phase with
      | init =>
        simp only [phase] at step
        exact inv.initStep phase front step
      | exec =>
        simp only [phase] at step
        exact inv.execStep phase front step
  | barrier =>
    rw [State.step, Option.ite_none_right_eq_some] at step
    obtain ⟨⟨phase, quiet⟩, same⟩ := step
    cases same
    have nothing := Worklist.not_remains_of_empty fun worker => (quiet worker).1
    refine ⟨fun key => ?_, ⟨⟨_, sequential_assigns⟩, fun _ => List.suffix_rfl⟩,
      fun impossible => (by cases impossible), fun _ _ _ _ => inv.positive phase,
      fun worker item rest front => ?_, inv.events⟩
    · have row := inv.rows key
      rw [phase] at row
      exact row.barrier (fun _ => nothing _) fun _ => remains_operations roundRobin_assigns
    · rw [(quiet worker).2]
      exact pcOk_start _
  | newEpoch =>
    rw [State.step, Option.ite_none_right_eq_some] at step
    obtain ⟨⟨phase, quiet⟩, same⟩ := step
    cases same
    have nothing := Worklist.not_remains_of_empty fun worker => (quiet worker).1
    refine ⟨fun key => ?_, ⟨⟨_, sequential_assigns⟩, fun _ => List.suffix_rfl⟩,
      fun _ => Nat.succ_pos _, fun _ _ _ _ => Nat.succ_pos _,
      fun worker item rest front => ?_, inv.events⟩
    · have row := inv.rows key
      rw [phase] at row
      exact row.newEpoch (fun _ => nothing _) fun _ => remains_updates sequential_assigns
    · rw [(quiet worker).2]
      exact pcOk_start _

end TpccRunner.Serval
