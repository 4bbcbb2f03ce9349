import TpccRunner.ServalRc.Awaited
import TpccRunner.ServalRc.Progress

/-!
# Deleted versions of Serval_RC

`gc_master` is the only place that deletes a version and its record, and it deletes the
master of the beginning of the epoch: the last reader does when it promotes a placeholder,
or the final writer of an epoch without readers.  A reader gives back its reference before
it returns, so the record it returns may be gone by then.
-/

set_option autoImplicit false

namespace TpccRunner.ServalRc

open TpccRunner.Utils TpccRunner.Lib

structure Reclaimed (state : State) (slots : List (Nat × Nat)) : Prop where
  bounded : ∀ pointer ∈ state.mem.freed, pointer < state.mem.next
  master : state.mem.row.master ∉ state.mem.freed
  start : state.startMaster ∈ state.mem.freed ↔ state.mem.row.master ≠ state.startMaster
  slots : ∀ slot ∈ slots, slot.2 ∉ state.mem.freed

inductive Memory.Reclaims (slots : List (Nat × Nat)) (mem after : Memory) : Prop
  | keeps (freed : after.freed = mem.freed) (master : after.row.master = mem.row.master)
      (next : mem.next ≤ after.next)
  | replaces (freed : after.freed = mem.row.master :: mem.freed)
      (new : after.row.master = mem.next ∧ after.next = mem.next + 1 ∨
        (∃ slot ∈ slots, after.row.master = slot.2) ∧ after.next = mem.next)

section Steps
variable {state after : State} {slots : List (Nat × Nat)} {worker : Worker} {item : Item Ope}

theorem Reclaimed.step (reclaimed : Reclaimed state slots) (inv : Executing state slots)
    (startMaster : after.startMaster = state.startMaster)
    (reclaims : state.mem.Reclaims slots after.mem)
    (original : after.mem.freed ≠ state.mem.freed → state.mem.row.master = state.startMaster) :
    Reclaimed after slots := by
  cases reclaims with
  | keeps freed master next =>
    refine ⟨fun pointer member => ?_, ?_, ?_, ?_⟩
    · rw [freed] at member
      exact (reclaimed.bounded pointer member).trans_le next
    · rw [freed, master]
      exact reclaimed.master
    · rw [freed, master, startMaster]
      exact reclaimed.start
    · rw [freed]
      exact reclaimed.slots
  | replaces freed new =>
    have isStart : state.mem.row.master = state.startMaster := by
      apply original
      rw [freed]
      exact List.cons_ne_self _ _
    have next : state.mem.next ≤ after.mem.next := by
      rcases new with ⟨-, next⟩ | ⟨-, next⟩ <;> omega
    have newMaster : after.mem.row.master ≠ state.startMaster ∧
        after.mem.row.master ∉ state.mem.freed := by
      rcases new with ⟨fresh, -⟩ | ⟨⟨slot, member, promoted⟩, -⟩
      · rw [fresh]
        exact ⟨inv.start.ne', fun again => lt_irrefl _ (reclaimed.bounded _ again)⟩
      · rw [promoted]
        exact ⟨(inv.placed.bounded slot member).2, reclaimed.slots slot member⟩
    refine ⟨fun pointer member => ?_, ?_, ?_, fun slot member => ?_⟩
    · rw [freed, isStart] at member
      rcases List.mem_cons.mp member with rfl | old
      · exact inv.start.trans_le next
      · exact (reclaimed.bounded pointer old).trans_le next
    · rw [freed, isStart, List.mem_cons, not_or]
      exact newMaster
    · rw [freed, isStart, startMaster]
      exact iff_of_true List.mem_cons_self newMaster.1
    · rw [freed, isStart, List.mem_cons, not_or]
      exact ⟨(inv.placed.bounded slot member).2, reclaimed.slots slot member⟩

theorem decrementRefCnt_reclaims {mem : Memory} (placeholders : mem.row.placeholders = slots) :
    mem.Reclaims slots mem.decrementRefCnt := by
  rw [Memory.decrementRefCnt]
  simp only
  split
  · rw [Memory.gcAndUpdateMaster]
    cases last : mem.row.placeholders.getLast? with
    | none =>
      exact .keeps rfl rfl le_rfl
    | some slot =>
      exact .replaces rfl (.inr ⟨⟨slot, placeholders ▸ List.mem_of_getLast? last, rfl⟩, rfl⟩)
  · exact .keeps rfl rfl le_rfl

theorem Executing.identify_reclaims (inv : Executing state slots)
    {found : Option Nat} {mem : Memory}
    (result :
      state.mem.identifyWriteVersion item.turn.core (item.turn.serial % 64) = (found, mem)) :
    state.mem.Reclaims slots mem ∧
      (mem.freed ≠ state.mem.freed → state.mem.row.master = state.startMaster) := by
  have unchanged (same : mem = state.mem) : state.mem.Reclaims slots mem ∧
      (mem.freed ≠ state.mem.freed → state.mem.row.master = state.startMaster) := by
    subst same
    exact ⟨.keeps rfl rfl le_rfl, fun differs => absurd rfl differs⟩
  by_cases busy : state.mem.row.refCnt = 0
  · by_cases readers : state.readers = ∅
    · have row := inv.unread readers
      cases calls : state.identified with
      | cons first others =>
        have cleared := row.cleared first (by rw [calls]; rfl)
        rw [identifyWriteVersion_cleared busy cleared, Prod.mk.injEq] at result
        exact unchanged result.2.symm
      | nil =>
        obtain ⟨registered, master⟩ := row.before calls
        obtain ⟨final, notFinal⟩ := @identifyWriteVersion_first _ _ busy registered item.turn.core _
          (Nat.mod_lt item.turn.serial (by decide))
        by_cases greatest :
            IsGreatest state.writers (serialId (item.turn.core, item.turn.serial % 64))
        · rw [final greatest, Prod.mk.injEq] at result
          obtain ⟨-, rfl⟩ := result
          exact ⟨.replaces rfl (.inl ⟨rfl, rfl⟩), fun _ => master⟩
        · rw [notFinal greatest, Prod.mk.injEq] at result
          obtain ⟨-, rfl⟩ := result
          exact ⟨.keeps rfl rfl le_rfl, fun differs => absurd rfl differs⟩
    · rw [identifyWriteVersion_cleared busy ((inv.read readers).drained busy).1,
        Prod.mk.injEq] at result
      exact unchanged result.2.symm
  · rw [identifyWriteVersion_busy busy, Prod.mk.injEq] at result
    exact unchanged result.2.symm

def Returning (state : State) : Prop :=
  ∀ worker reader record, state.pc worker = .returnRead reader record → reader ∈ state.readers

theorem Returning.setPc (returning : Returning state) {pc : Pc}
    (readers : after.readers = state.readers)
    (moved : after.pc = Function.update state.pc worker pc)
    (mine : ∀ reader record, pc = .returnRead reader record → reader ∈ state.readers) :
    Returning after := by
  intro other reader record returns
  rw [readers]
  rw [moved] at returns
  by_cases same : other = worker
  · rw [same, Function.update_self] at returns
    exact mine reader record returns
  · rw [Function.update_of_ne same] at returns
    exact returning other reader record returns

theorem Executing.reclaimed_workerStep (inv : Executing state slots)
    (reclaimed : Reclaimed state slots) (returning : Returning state)
    (taken : state.workerStep worker = some after) :
    Reclaimed after slots ∧ Returning after := by
  have stays {pc : Pc} (same : after.mem.freed = state.mem.freed)
      (master : after.mem.row.master = state.mem.row.master)
      (next : after.mem.next = state.mem.next) (start : after.startMaster = state.startMaster)
      (readers : after.readers = state.readers)
      (moved : after.pc = Function.update state.pc worker pc)
      (mine : ∀ reader record, pc ≠ .returnRead reader record) :
      Reclaimed after slots ∧ Returning after :=
    ⟨reclaimed.step inv start (.keeps same master next.ge) fun differs => absurd same differs,
      returning.setPc readers moved fun _ _ returns => absurd returns (mine _ _)⟩
  unfold State.workerStep at taken
  split at taken
  next => cases taken
  next item rest atNext front =>
    rw [if_pos inv.phase] at taken
    cases ope : item.op with
    | read =>
      simp only [State.beginOperation, ope] at taken
      obtain ⟨-, rfl⟩ := Option.ite_some_none_eq_some.mp taken
      exact stays rfl rfl rfl rfl rfl rfl (by simp)
    | update =>
      rcases result : state.mem.identifyWriteVersion item.turn.core (item.turn.serial % 64) with
        ⟨found, mem⟩
      obtain ⟨reclaims, original⟩ := inv.identify_reclaims result
      simp only [State.beginOperation, ope, result] at taken
      cases found with
      | none =>
        cases taken
        exact ⟨reclaimed.step inv rfl reclaims original, returning⟩
      | some pointer =>
        cases taken
        exact ⟨reclaimed.step inv rfl reclaims original,
          returning.setPc rfl rfl fun _ _ impossible => by cases impossible⟩
  next pointer atLoad =>
    cases taken
    exact stays rfl rfl rfl rfl rfl rfl (by simp)
  next record item rest atDecrement front =>
    cases taken
    have ok := inv.pcs worker
    rw [atDecrement] at ok
    obtain ⟨reader, tail, front', -⟩ := ok
    obtain ⟨bound, -, member, -⟩ := inv.todo.head front'
    obtain ⟨rfl, -⟩ := List.cons_eq_cons.mp (front.symm.trans front')
    have isReader : reader ∈ state.readers := ⟨bound, member⟩
    have waiting : state.Left reader .read := Worklist.remains_head front'
    have positive : state.mem.row.refCnt ≠ 0 := by
      rw [inv.count]
      refine ((Set.ncard_pos ((readers_finite state).subset fun _ inside => inside.1)).mpr ?_).ne'
      exact ⟨reader, isReader, waiting⟩
    obtain ⟨-, placeholders, master⟩ := (inv.read (Set.Nonempty.ne_empty ⟨reader, isReader⟩)).busy
      positive
    exact ⟨reclaimed.step inv rfl (decrementRefCnt_reclaims placeholders) fun _ => master,
      returning.setPc rfl rfl fun _ _ same => by
        cases same
        exact isReader⟩
  next => cases taken
  next atReturn =>
    cases taken
    exact stays rfl rfl rfl rfl rfl rfl (by simp)
  next serial pointer atStore =>
    cases taken
    exact stays rfl rfl rfl rfl rfl rfl (by simp)
  next serial pointer atStore =>
    cases taken
    exact stays rfl rfl rfl rfl rfl rfl (by simp)

end Steps

/-! ## Whole runs -/

section Runs
variable {state after : State}

/-- In the registration phases the placeholders are those that the row has so far. -/
def Reclaiming (state : State) : Prop :=
  Returning state ∧
    ((Registering state ∨ Placing state) ∧ Reclaimed state state.mem.row.placeholders ∨
      ∃ slots, Executing state slots ∧ Reclaimed state slots)

theorem Reclaimed.append {slots slots' : List (Nat × Nat)} (reclaimed : Reclaimed state slots)
    (freed : after.mem.freed = state.mem.freed)
    (master : after.mem.row.master = state.mem.row.master)
    (start : after.startMaster = state.startMaster) (next : state.mem.next ≤ after.mem.next)
    (added : ∀ slot ∈ slots', slot ∈ slots ∨ slot.2 = state.mem.next) :
    Reclaimed after slots' := by
  refine ⟨fun pointer member => ?_, ?_, ?_, fun slot member => ?_⟩
  · rw [freed] at member
    exact (reclaimed.bounded pointer member).trans_le next
  · rw [freed, master]
    exact reclaimed.master
  · rw [freed, master, start]
    exact reclaimed.start
  · rw [freed]
    rcases added slot member with old | new
    · exact reclaimed.slots slot old
    · rw [new]
      exact fun again => lt_irrefl _ (reclaimed.bounded _ again)

theorem Registering.reclaimed {worker : Worker} {item : Item Ope} {rest : List (Item Ope)}
    (inv : Registering state) (reclaimed : Reclaimed state state.mem.row.placeholders) :
    Reclaimed (state.register worker item rest)
      (state.register worker item rest).mem.row.placeholders := by
  obtain ⟨-, placeholders, master⟩ :=
    updateBitmap_frame state.mem.row item.turn.core (item.turn.serial % 64)
  rw [State.register, inv.phase]
  refine reclaimed.append rfl master rfl le_rfl fun slot member => .inl ?_
  rwa [← placeholders]

theorem Placing.reclaimed {worker : Worker} {item : Item Ope} {rest : List (Item Ope)}
    (inv : Placing state) (front : state.todo worker = item :: rest)
    (reclaimed : Reclaimed state state.mem.row.placeholders) :
    Reclaimed (state.register worker item rest)
      (state.register worker item rest).mem.row.placeholders := by
  obtain ⟨bound, shape, -⟩ := inv.todo.head front
  have core : item.turn.core = item.turn.serial / 64 := congrArg (·.turn.core) shape
  have counted : Registered { state.mem.row with refCnt := state.mem.row.refCnt + 1 }
      state.writers := inv.registered.congr rfl rfl
  have cases := @doAppendPendingVersion_cases
    { state.mem with row := { state.mem.row with refCnt := state.mem.row.refCnt + 1 } }
    state.writers item.turn.serial counted bound
  rw [State.register, inv.phase]
  simp only [Memory.appendPendingVersion, core]
  rcases cases with ⟨-, result⟩ | ⟨writer, -, ⟨version, -, result⟩ | ⟨-, result⟩⟩
  · rw [result]
    exact reclaimed.append rfl rfl rfl le_rfl fun slot member => .inl member
  · rw [result]
    exact reclaimed.append rfl rfl rfl le_rfl fun slot member => .inl member
  · rw [result]
    refine reclaimed.append rfl rfl rfl (Nat.le_succ _) fun slot member => ?_
    rcases SortedVector.mem_insertUpper.mp member with rfl | old
    · exact .inr rfl
    · exact .inl old

theorem returning_of_idle (idle : ∀ worker, state.pc worker = .next) : Returning state := by
  intro worker reader record returns
  rw [idle worker] at returns
  cases returns

theorem step_reclaiming {label : Label} (reclaiming : Reclaiming state)
    (taken : state.step label = some after) : Reclaiming after := by
  obtain ⟨returning, cases⟩ := reclaiming
  cases label with
  | worker worker =>
    rcases cases with ⟨inv | inv, reclaimed⟩ | ⟨slots, inv, reclaimed⟩
    · obtain ⟨item, rest, front, rfl⟩ :=
        workerStep_registers inv.idle (by simp [inv.phase]) taken
      have registered := inv.register front
      exact ⟨returning_of_idle registered.idle, .inl ⟨.inl registered, inv.reclaimed reclaimed⟩⟩
    · obtain ⟨item, rest, front, rfl⟩ :=
        workerStep_registers inv.idle (by simp [inv.phase]) taken
      have placed := inv.register front
      exact ⟨returning_of_idle placed.idle, .inl ⟨.inr placed, inv.reclaimed front reclaimed⟩⟩
    · obtain ⟨kept, still⟩ := inv.reclaimed_workerStep reclaimed returning taken
      exact ⟨still, .inr ⟨slots, inv.workerStep taken, kept⟩⟩
  | barrier =>
    simp only [State.step] at taken
    obtain ⟨quiet, taken⟩ := Option.ite_none_right_eq_some.mp taken
    rcases cases with ⟨inv | inv, reclaimed⟩ | ⟨slots, inv, reclaimed⟩ <;>
      rw [inv.phase] at taken <;> cases taken
    · exact ⟨returning_of_idle inv.idle, .inl ⟨.inr (inv.barrier quiet),
        reclaimed.append rfl rfl rfl le_rfl fun slot member => .inl member⟩⟩
    · exact ⟨returning_of_idle inv.idle, .inr ⟨_, inv.barrier quiet,
        reclaimed.append rfl rfl rfl le_rfl fun slot member => .inl member⟩⟩
  | newEpoch workload =>
    simp only [State.step] at taken
    obtain ⟨⟨phase, quiet⟩, rfl⟩ := Option.ite_some_none_eq_some.mp taken
    rcases cases with ⟨inv | inv, reclaimed⟩ | ⟨slots, inv, reclaimed⟩
    · rw [inv.phase] at phase
      cases phase
    · rw [inv.phase] at phase
      cases phase
    · obtain ⟨-, -, placeholders⟩ := inv.clean quiet
      refine ⟨returning_of_idle fun worker => (quiet worker).2,
        .inl ⟨.inl (inv.newEpoch quiet workload), reclaimed.bounded, reclaimed.master, ?_, ?_⟩⟩
      · exact iff_of_false reclaimed.master fun differs => differs rfl
      · intro slot member
        rw [show _ = [] from placeholders] at member
        cases member

theorem loaded_reclaiming : Reclaiming State.loaded := by
  refine ⟨returning_of_idle fun _ => rfl, .inr ⟨[], loaded_executing, ?_, ?_, ?_, ?_⟩⟩
  · simp [State.loaded]
  · simp [State.loaded]
  · simp [State.loaded]
  · simp

theorem run_reclaiming {trace : List Label}
    (run : Run State.step always State.loaded trace state) : Reclaiming state :=
  run.invariant Reclaiming loaded_reclaiming fun _ _ _ reclaiming _ taken =>
    step_reclaiming reclaiming taken

/-- The placeholders of an epoch with readers are promoted once the last of them is done. -/
theorem Executing.master_replaced_iff {slots : List (Nat × Nat)} (inv : Executing state slots)
    (readers : state.readers ≠ ∅) :
    state.mem.row.master ≠ state.startMaster ↔ slots ≠ [] ∧ state.mem.row.refCnt = 0 := by
  by_cases busy : state.mem.row.refCnt = 0
  · rw [((inv.read readers).drained busy).2.2, promoted]
    cases last : slots.getLast? with
    | none => simp [List.getLast?_eq_none_iff.mp last]
    | some slot =>
      have member := List.mem_of_getLast? last
      exact iff_of_true (inv.placed.bounded slot member).2 ⟨List.ne_nil_of_mem member, busy⟩
  · rw [((inv.read readers).busy busy).2.2]
    exact iff_of_false (fun differs => differs rfl) fun both => busy both.2

/-- A reference is given back when the read leaves the worklist. -/
theorem Executing.refCnt_eq_zero_iff {slots : List (Nat × Nat)} (inv : Executing state slots) :
    state.mem.row.refCnt = 0 ↔ ∀ other ∈ state.readers, ¬ state.Left other .read := by
  rw [inv.count, Set.ncard_eq_zero ((readers_finite state).subset fun _ inside => inside.1),
    Set.eq_empty_iff_forall_notMem]
  exact forall_congr' fun other => not_and

end Runs

/-- A read that is about to return holds a deleted record exactly when no writer of the
epoch comes before it, some reader of the row does see a writer, and every reader of the row
has called `decrement_ref_cnt`. -/
theorem returnRead_deleted_iff {state : State} {trace : List Label}
    (run : Run State.step always State.loaded trace state) {worker : Worker} {reader : Nat}
    {record : Option Record} (returns : state.pc worker = .returnRead reader record) :
    state.pending reader ∈ state.mem.freed ↔
      (∀ writer ∈ state.writers, ¬ writer < reader) ∧
      (∃ other ∈ state.readers, ∃ writer ∈ state.writers, writer < other) ∧
      ∀ other ∈ state.readers, ¬ state.Left other .read := by
  obtain ⟨returning, ⟨inv | inv, -⟩ | ⟨slots, inv, reclaimed⟩⟩ := run_reclaiming run
  · rw [inv.idle worker] at returns
    cases returns
  · rw [inv.idle worker] at returns
    cases returns
  have isReader := returning worker reader record returns
  have readers : state.readers ≠ ∅ := Set.Nonempty.ne_empty ⟨reader, isReader⟩
  have seen : slots ≠ [] ↔ ∃ other ∈ state.readers, ∃ writer ∈ state.writers, writer < other := by
    constructor
    · intro nonempty
      obtain ⟨slot, member⟩ := List.exists_mem_of_ne_nil slots nonempty
      obtain ⟨other, otherMem, greatest⟩ := (inv.placed.ids slot.1).mp ⟨slot.2, member⟩
      exact ⟨other, otherMem, slot.1, greatest.1.1, greatest.1.2⟩
    · rintro ⟨other, otherMem, writer, isWriter, less⟩ rfl
      rcases inv.placed.given other otherMem with ⟨slot, member, -⟩ | ⟨none, -⟩
      · cases member
      · exact absurd (none writer isWriter) (not_le.mpr less)
  rcases inv.placed.given reader isReader with ⟨slot, member, greatest, given⟩ | ⟨none, given⟩
  · rw [given]
    exact iff_of_false (reclaimed.slots slot member) fun all =>
      all.1 slot.1 greatest.1.1 greatest.1.2
  · rw [given, reclaimed.start, inv.master_replaced_iff readers, seen, inv.refCnt_eq_zero_iff]
    exact (and_iff_right fun writer isWriter => not_lt.mpr (none writer isWriter)).symm

def oldReaderLast : List Label :=
  [.newEpoch readUpdateRead, .worker (workerOf 0), .barrier, .worker (workerOf 0),
    .worker (workerOf 0), .barrier] ++
    [1, 1, 1, 2, 2, 2, 2, 0, 0, 0].map fun id => .worker (workerOf id)

/-- The reader of the old master is the last one; its own decrement deletes what it read. -/
theorem oldReaderLast_deleted :
    ∃ state, Run State.step always State.loaded oldReaderLast state ∧
      state.pc 0 = .returnRead 0 (some .loaded) ∧ state.pending 0 ∈ state.mem.freed := by
  have reached : (exec State.step State.loaded oldReaderLast).map (fun state =>
      (state.pc 0, decide (state.pending 0 ∈ state.mem.freed))) =
        some (.returnRead 0 (some .loaded), true) := by
    decide +kernel
  obtain ⟨state, success, summary⟩ := Option.map_eq_some_iff.mp reached
  simp only [Prod.mk.injEq, decide_eq_true_eq] at summary
  exact ⟨state, Run.of_exec success, summary⟩

/-- The second reader returns while the first one has still to read; a writer comes before
it, too. -/
theorem readAfterUpdate_live :
    ∃ state, Run State.step always State.loaded readAfterUpdate state ∧
      state.pc 2 = .returnRead 2 (some (.written 1 1)) ∧ state.pending 2 ∉ state.mem.freed := by
  have reached : (exec State.step State.loaded readAfterUpdate).map (fun state =>
      (state.pc 2, state.workload.ops 0, state.todo 0)) =
        some (.returnRead 2 (some (.written 1 1)), [.read], [itemOf 0 .read]) := by
    decide +kernel
  obtain ⟨state, success, summary⟩ := Option.map_eq_some_iff.mp reached
  simp only [Prod.mk.injEq] at summary
  obtain ⟨returns, reads, left⟩ := summary
  have run := Run.of_exec success
  refine ⟨state, run, returns, fun deleted => ?_⟩
  have dropped := ((returnRead_deleted_iff run returns).mp deleted).2.2
  exact dropped 0 ⟨by decide, by simp [reads]⟩ ⟨0, by simp [left]⟩

end TpccRunner.ServalRc
