import TpccRunner.Serval.Invariant

/-!
# The initialization phase of Serval

Every step of `append_pending_version` keeps the invariant.  The array of a core
is filled by the one worker that runs the transactions of its block, in the order
of their serial ids, so an append to it goes to the end.
-/

set_option autoImplicit false

namespace TpccRunner.Serval

open TpccRunner.Utils TpccRunner.Lib
open Worklist (Proper Remains Suffixes)

section Init
variable {load : Workload} {state after : State} {worker : Worker} {item : Item Operation}
  {rest : List (Item Operation)}

theorem pcOk_init {epoch : Nat} {phase : Phase} {val : Value} {pending : Nat → Nat → Option Nat}
    {pc : Pc} (init : phase = .init) :
    PcOk load epoch phase val pending item pc ↔ InitPc epoch val pc := by
  rw [init]
  exact Iff.rfl

theorem InitPc.mono {epoch : Nat} {val val' : Value} {pc : Pc} (ok : InitPc epoch val pc)
    (sameEpoch : val.epoch = epoch → val'.epoch = epoch)
    (region : val.epoch = epoch → val.rowRegion.isSome → val'.rowRegion.isSome) :
    InitPc epoch val' pc := by
  cases pc with
  | guardUnlock | tryLock | locked | waitLoad | waitTryLock | waitLocked => exact sameEpoch ok
  | waitUnlock | contended => exact ⟨sameEpoch ok.1, region ok.1 ok.2⟩
  | _ => exact ok

theorem Inv.appended_below (inv : Inv load state) (front : state.todo worker = item :: rest)
    (init : state.phase = .init) (current : (state.rows item.op.key).epoch = state.epoch)
    {other : Nat}
    (member : other ∈ Appended load item.op.key state.epoch state.phase (state.rows item.op.key)
      (state.Left item.op.key)) (sameCore : other / 64 = item.turn.serial / 64) :
    other < item.turn.serial := by
  obtain ⟨-, -, -, update⟩ := inv.scheduled.item_facts front
  obtain ⟨writer, done⟩ := member
  have notLeft := done init current
  rw [current] at writer
  have suffixes := inv.scheduled.suffixes
  rw [Workers.full, init] at suffixes
  have headOwner : blockOwner item.turn.serial = worker :=
    ((mem_updates sequential_assigns).mp ((suffixes worker).subset (by simp [front]))).2.2.1
  have otherItem : itemOf other ⟨.update, item.op.key⟩ ∈
      initializationPhase load state.epoch worker := by
    refine (mem_updates sequential_assigns).mpr ⟨writer.1, rfl, ?_, writer.2, rfl⟩
    rw [← headOwner]
    simp only [itemOf, blockOwner, sameCore]
  have ordered := updates_ascending sequential_assigns load state.epoch worker
  have le : other ≤ item.turn.serial :=
    suffixes.done_before ordered otherItem (fun inTodo => notLeft ⟨worker, inTodo⟩) front
  refine lt_of_le_of_ne le fun same => ?_
  subst same
  exact notLeft (inv.scheduled.left_head front (update init))

theorem Inv.append (inv : Inv load state) (front : state.todo worker = item :: rest)
    (init : state.phase = .init) (current : (state.rows item.op.key).epoch = state.epoch)
    {val : Value} {pc : Pc} (idle : pc = .start ∨ ∃ key, pc = .unlock key)
    (sameEpoch : val.epoch = (state.rows item.op.key).epoch)
    (sameMaster : val.master = (state.rows item.op.key).master)
    (next : val.heap.next = (state.rows item.op.key).heap.next + 1)
    (versions : val.heap.versions = Function.update (state.rows item.op.key).heap.versions
      (state.rows item.op.key).heap.next {})
    (region : (state.rows item.op.key).rowRegion.isSome → val.rowRegion.isSome)
    (holds : ∀ pointer : Nat → Nat, pointer item.turn.serial = (state.rows item.op.key).heap.next →
      RowHolds (state.rows item.op.key) (Appended load item.op.key state.epoch state.phase
        (state.rows item.op.key) (state.Left item.op.key)) pointer →
      RowHolds val (insert item.turn.serial (Appended load item.op.key state.epoch state.phase
        (state.rows item.op.key) (state.Left item.op.key))) pointer) :
    Inv load (state.appended Value.heap worker item rest val pc) := by
  obtain ⟨-, -, -, update⟩ := inv.scheduled.item_facts front
  have started := inv.started worker item rest front
  have row := inv.rows item.op.key
  have isLeft := inv.scheduled.left_head front (update init)
  refine inv.touch (Workers.changes_appended front) ?_ (fun _ _ _ => ?_) ?_ inv.events
  · rw [init] at row holds ⊢
    refine row.append current started (inv.scheduled.writer front (update init)) sameEpoch
      sameMaster next versions (fun other => inv.scheduled.left_pop_update front rfl (update init))
      (fun epoch other => ?_) fun pointer new old => ?_
    · simp [Workers.appended, Workers.setPending, Workers.setRow, Workers.setTodo, Workers.goto]
    · refine holds pointer new ((row.holds (by omega)).congr fun other member => ?_)
      refine (old other ?_).symm
      rintro rfl
      exact member.2 rfl current isLeft
  · rcases idle with rfl | ⟨key, rfl⟩
    · exact pcOk_start _
    · exact pcOk_unlock _ key
  · intro other pc _ ok
    rw [pcOk_init init] at ok ⊢
    exact ok.mono (fun same => sameEpoch.trans same) fun _ => region

theorem Inv.appendContended (inv : Inv load state) (front : state.todo worker = item :: rest)
    (init : state.phase = .init) (current : (state.rows item.op.key).epoch = state.epoch)
    {region : RowRegion} (contended : (state.rows item.op.key).rowRegion = some region) {pc : Pc}
    (idle : pc = .start ∨ ∃ key, pc = .unlock key) :
    Inv load (state.appended Value.heap worker item rest
      ((state.rows item.op.key).appendToContendedRow region item.turn.core item.turn.serial)
      pc) := by
  obtain ⟨bound, shape, -, -⟩ := inv.scheduled.item_facts front
  have core : item.turn.core = item.turn.serial / 64 := congrArg (·.turn.core) shape
  refine inv.append front init current idle rfl rfl rfl rfl (fun _ => rfl)
    fun pointer new holds => ?_
  rw [core]
  exact holds.appendContended contended bound
    (fun _ member sameCore => inv.appended_below front init current member sameCore) new

theorem Inv.appendUncontended (inv : Inv load state) (front : state.todo worker = item :: rest)
    (init : state.phase = .init) (current : (state.rows item.op.key).epoch = state.epoch)
    (uncontended : (state.rows item.op.key).rowRegion = none) {pc : Pc}
    (idle : pc = .start ∨ ∃ key, pc = .unlock key) :
    Inv load (state.appended Value.heap worker item rest
      ((state.rows item.op.key).appendToUncontendedRow item.turn.serial) pc) := by
  obtain ⟨-, -, -, update⟩ := inv.scheduled.item_facts front
  refine inv.append front init current idle rfl rfl rfl rfl (fun some => some)
    fun pointer new holds => ?_
  exact holds.appendUncontended uncontended
    (fun member => member.2 init current (inv.scheduled.left_head front (update init))) new

theorem Inv.setOwn (inv : Inv load state) (own : RegionController) : Inv load { state with own } :=
  ⟨inv.rows, inv.scheduled.congr rfl rfl rfl, inv.positive, inv.started, inv.pcs, inv.events⟩

theorem Inv.initStep (inv : Inv load state) (init : state.phase = .init)
    (front : state.todo worker = item :: rest)
    (step : state.initStep worker item rest (state.pc worker) = some after) : Inv load after := by
  obtain ⟨-, -, -, update⟩ := inv.scheduled.item_facts front
  have row := inv.rows item.op.key
  have started := inv.started worker item rest front
  have mine := (pcOk_init init).mp (inv.pcs worker item rest front)
  cases pc : state.pc worker with
  | start =>
    rw [pc, State.initStep] at step
    split at step
    · cases step
      exact inv.goto front ((pcOk_init init).mpr trivial)
    · cases step
      have epochLe := row.epoch_le
      exact inv.goto front ((pcOk_init init).mpr (show (state.rows item.op.key).epoch = _ by omega))
  | guardTryLock =>
    rw [pc, State.initStep] at step
    cases step
    exact inv.tryLockRow front ((pcOk_init init).mpr trivial) ((pcOk_init init).mpr trivial)
  | guardLocked =>
    rw [pc, State.initStep] at step
    split at step
    · cases step
      rename_i older
      rw [init] at row
      have newRow := row.initialize older ⟨_, inv.scheduled.writer front (update init)⟩
      have newEpoch : ((state.rows item.op.key).initializeTheRow state.epoch).epoch =
          state.epoch := rfl
      refine inv.setRow front (by rw [init]; exact newRow) ((pcOk_init init).mpr newEpoch)
        fun other pc _ ok => ?_
      rw [pcOk_init init] at ok ⊢
      exact ok.mono (fun same => absurd same older.ne) fun same => absurd same older.ne
    · cases step
      have epochLe := row.epoch_le
      exact inv.goto front ((pcOk_init init).mpr (show (state.rows item.op.key).epoch = _ by omega))
  | guardUnlock =>
    rw [pc] at mine step
    cases step
    exact inv.unlockRow front ((pcOk_init init).mpr mine)
  | tryLock =>
    rw [pc] at mine step
    cases step
    exact inv.tryLockRow front ((pcOk_init init).mpr mine) ((pcOk_init init).mpr mine)
  | locked =>
    rw [pc] at mine step
    simp only [State.initStep] at step
    split at step
    · cases step
      rename_i contended
      exact inv.appendContended front init mine contended (.inr ⟨_, rfl⟩)
    · cases step
      rename_i uncontended
      exact inv.appendUncontended front init mine uncontended (.inr ⟨_, rfl⟩)
  | waitLoad =>
    rw [pc] at mine step
    simp only [State.initStep] at step
    split at step
    · cases step
      rename_i contended
      exact inv.goto front ((pcOk_init init).mpr ⟨mine, contended⟩)
    · cases step
      exact inv.goto front ((pcOk_init init).mpr mine)
  | waitTryLock =>
    rw [pc] at mine step
    cases step
    exact inv.tryLockRow front ((pcOk_init init).mpr mine) ((pcOk_init init).mpr mine)
  | waitLocked =>
    rw [pc] at mine step
    simp only [State.initStep] at step
    split at step
    · cases step
      rename_i contended
      exact inv.goto front ((pcOk_init init).mpr ⟨mine, contended⟩)
    · split at step
      · cases step
        rename_i uncontended _
        have installed := row.install (by rw [mine]; exact started) (by simpa using uncontended)
        have moved : Inv load ((state.setRow item.op.key
            (state.rows item.op.key).installRegion).goto worker .waitUnlock) := by
          refine inv.setRow front installed ((pcOk_init init).mpr ⟨mine, rfl⟩)
            fun other pc _ ok => ?_
          rw [pcOk_init init] at ok ⊢
          exact ok.mono (fun same => same) fun _ _ => rfl
        exact moved.setOwn _
      · cases step
  | waitUnlock =>
    rw [pc] at mine step
    cases step
    exact inv.unlockRow front ((pcOk_init init).mpr mine)
  | contended =>
    rw [pc] at mine step
    simp only [State.initStep] at step
    split at step
    · cases step
      rename_i contended
      exact inv.appendContended front init mine.1 contended (.inl rfl)
    · cases step
  | unlock key =>
    rw [pc] at step
    cases step
  | awaitStable pointer | loadRecord pointer | storeStable pointer =>
    rw [pc] at mine
    exact mine.elim

end Init

end TpccRunner.Serval
