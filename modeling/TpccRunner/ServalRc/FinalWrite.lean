import TpccRunner.ServalRc.Execution

/-!
# What is left of an epoch in the master

The three phase invariants hold along every run.  At the end of an epoch they
say which version is the master, and so exactly when the final write of the
epoch survives.
-/

set_option autoImplicit false

namespace TpccRunner.ServalRc

open TpccRunner.Utils TpccRunner.Lib

/-! ## From phase to phase -/

section Barriers
variable {state : State}

theorem loaded_executing : Executing State.loaded [] := by
  have noReaders : State.loaded.readers = ∅ := by simp [State.readers, State.loaded]
  have noWriters : State.loaded.writers = ∅ := by simp [State.writers, State.loaded]
  have noItem := @Worklist.not_remains_of_empty _ _ State.loaded.todo fun _ => rfl
  exact {
    start := Nat.zero_lt_one
    startKept := rfl
    startStable := rfl
    startOld := by simp [State.loaded]
    phase := rfl
    todo := ⟨⟨by simp [State.loaded], by simp [State.loaded]⟩,
      fun item remains => absurd remains (noItem item)⟩
    count := by
      rw [noReaders]
      simp only [Set.mem_empty_iff_false, false_and, Set.ofPred_false, Set.ncard_empty]
      rfl
    placed := by
      rw [noReaders]
      exact placed_nil
    contents := by simp
    unread := fun _ => {
      placeholders := rfl
      before := fun _ => by
        rw [noWriters]
        exact ⟨registered_empty rfl rfl, rfl⟩
      cleared := by simp [State.loaded]
      final := by simp [State.loaded]
      lost := by simp [State.loaded] }
    read := fun some => absurd noReaders some
    pcs := fun _ => trivial
    doneReads := by simp [noReaders]
    called := by simp [noWriters]
    callers := by simp [State.loaded] }

theorem Placing.barrier (inv : Placing state) (quiet : state.Quiet) :
    Executing { state with phase := .exec, todo := State.executionPhase state.workload.ops }
      state.mem.row.placeholders := by
  have none := Worklist.not_remains_of_empty fun worker => (quiet worker).1
  have asked : {reader ∈ state.readers | ¬ state.Left reader .read} = state.readers := by
    ext reader
    simp only [Set.mem_ofPred_eq, and_iff_left_iff_imp]
    exact fun _ => none _
  have toRead : {reader ∈ state.readers | Worklist.Remains
      (State.executionPhase state.workload.ops) (itemOf reader .read)} = state.readers := by
    ext reader
    simp only [Set.mem_ofPred_eq, and_iff_left_iff_imp]
    exact fun member => executionPhase_remains member.1 member.2
  have count := inv.count
  have placed := inv.placed
  rw [asked] at count placed
  refine {
      start := inv.start
      startKept := inv.startKept
      startStable := inv.startStable
      startOld := inv.startOld
      phase := rfl
      todo := executionPhase_todoOk state.workload
      count := count.trans (congrArg Set.ncard toRead).symm
      placed := placed
      contents := fun slot slotMem isStable => ?_
      unread := fun noReader => ?_
      read := fun some => ⟨fun _ => ⟨inv.registered, rfl, inv.master⟩, fun drained => ?_⟩
      pcs := fun worker => ?_
      doneReads := fun reader member notLeft =>
        absurd (executionPhase_remains member.1 member.2) notLeft
      called := fun writer member => .inl (executionPhase_remains member.1 member.2)
      callers := ?_ }
  · have blank := inv.blank slot slotMem
    simp only [blank] at isStable
    cases isStable
  · refine ⟨?_, fun _ => ⟨inv.registered, inv.master⟩, ?_, ?_, ?_⟩
    · rw [List.eq_nil_iff_forall_not_mem]
      rintro ⟨writer, pointer⟩ member
      obtain ⟨reader, readerMem, -⟩ := (placed.ids writer).mp ⟨pointer, member⟩
      exact Set.notMem_empty reader (noReader ▸ readerMem)
    all_goals simp [inv.fresh]
  · rw [count] at drained
    exact absurd ((Set.ncard_eq_zero (readers_finite state)).mp drained) some
  · have := inv.idle worker
    simp only [this]
    trivial
  · simp [inv.fresh]

end Barriers

/-! ## The end of an epoch -/

inductive Outcome (state : State) : Prop
  | kept {last : Nat} (greatest : IsGreatest state.writers last)
      (reached : state.FinalWriteReached) (bound : state.mem.row.master < state.mem.next)
      (version : state.mem.versions state.mem.row.master =
        ⟨some (.written state.epoch last), .stable⟩)
  | untouched (none : state.writers = ∅) (master : state.mem.row.master = state.startMaster)
  | dropped (some : state.writers.Nonempty) (missed : ¬ state.FinalWriteReached)
      (master : state.mem.row.master = state.startMaster)
  | outdated {writer : Nat} (isWriter : writer ∈ state.writers)
      (notLast : ¬ IsGreatest state.writers writer) (missed : ¬ state.FinalWriteReached)
      (bound : state.mem.row.master < state.mem.next)
      (version : state.mem.versions state.mem.row.master =
        ⟨some (.written state.epoch writer), .stable⟩)

section End
variable {state : State} {slots : List (Nat × Nat)}

theorem exists_greatest_writer (some : state.writers.Nonempty) :
    ∃ last, IsGreatest state.writers last := by
  have finite := writers_finite state
  obtain ⟨last, member, upper⟩ := Set.exists_max_image state.writers id finite some
  exact ⟨last, member, upper⟩

/-- Without readers, the first caller decides. -/
theorem Executing.outcome_unread (inv : Executing state slots) (quiet : state.Quiet)
    (none : state.readers = ∅) : Outcome state := by
  have noItem := Worklist.not_remains_of_empty fun worker => (quiet worker).1
  have row := inv.unread none
  cases calls : state.identified with
  | nil =>
    refine .untouched (Set.eq_empty_iff_forall_notMem.mpr fun writer member => ?_)
      (row.before calls).2
    rcases inv.called writer member with left | done
    · exact noItem _ left
    · simp [calls] at done
  | cons first others =>
    have head : first ∈ state.identified.head? := by rw [calls]; rfl
    have firstWriter := inv.callers first (by simp [calls])
    by_cases greatest : IsGreatest state.writers first
    · obtain ⟨bound, -, storing | storing | version⟩ := row.final first head greatest
      · rw [(quiet _).2] at storing
        cases storing
      · rw [(quiet _).2] at storing
        cases storing
      · exact .kept greatest (.inr (.inr ⟨none, first, head, greatest⟩)) bound version
    · refine .dropped ⟨first, firstWriter⟩ ?_ (row.lost first head greatest)
      rintro (noWriter | ⟨reader, member, -⟩ | ⟨-, other, otherHead, otherGreatest⟩)
      · rw [noWriter] at firstWriter
        exact firstWriter
      · rw [none] at member
        exact member
      · rw [calls] at otherHead
        cases otherHead
        exact greatest otherGreatest

theorem Executing.refCnt_of_quiet (inv : Executing state slots) (quiet : state.Quiet) :
    state.mem.row.refCnt = 0 := by
  have noItem := Worklist.not_remains_of_empty fun worker => (quiet worker).1
  rw [inv.count, Set.ncard_eq_zero ((readers_finite state).subset fun _ member => member.1)]
  exact Set.eq_empty_iff_forall_notMem.mpr fun reader member => noItem _ member.2

/-- With readers, the last placeholder decides. -/
theorem Executing.outcome_read (inv : Executing state slots) (quiet : state.Quiet)
    (readers : state.readers ≠ ∅) : Outcome state := by
  have noItem := Worklist.not_remains_of_empty fun worker => (quiet worker).1
  have free := inv.refCnt_of_quiet quiet
  have master := ((inv.read readers).drained free).2.2
  have reaches (reached : state.FinalWriteReached) {last : Nat}
      (greatest : IsGreatest state.writers last) : ∃ pointer, (last, pointer) ∈ slots := by
    rw [inv.placed.ids]
    rcases reached with noWriter | ⟨reader, member, above⟩ | ⟨none, -⟩
    · rw [noWriter] at greatest
      exact absurd greatest.1 (Set.notMem_empty last)
    · exact ⟨reader, member, ⟨⟨greatest.1, above last greatest.1⟩,
        fun other below => greatest.2 below.1⟩⟩
    · exact absurd none readers
  cases lastSlot : slots.getLast? with
  | none =>
    rw [promoted, lastSlot] at master
    rcases Set.eq_empty_or_nonempty state.writers with noWriter | writers
    · exact .untouched noWriter master
    · refine .dropped writers (fun reached => ?_) master
      obtain ⟨last, greatest⟩ := exists_greatest_writer writers
      obtain ⟨pointer, member⟩ := reaches reached greatest
      rw [List.getLast?_eq_none_iff.mp lastSlot] at member
      cases member
  | some slot =>
    rw [promoted, lastSlot] at master
    change state.mem.row.master = slot.2 at master
    have slotMem := List.mem_of_getLast? lastSlot
    obtain ⟨reader, readerMem, greatestBelow⟩ := (inv.placed.ids slot.1).mp ⟨slot.2, slotMem⟩
    have stable : (state.mem.versions slot.2).status = .stable := by
      have done := inv.doneReads reader readerMem (noItem _)
      rcases inv.placed.given reader readerMem with ⟨other, otherMem, otherBelow, same⟩ | ⟨no, -⟩
      · have id : other.1 = slot.1 := by simpa using otherBelow.unique greatestBelow
        rw [inv.placed.ascending.eq_of_id otherMem slotMem id] at same
        rwa [same] at done
      · cases no.unique greatestBelow
    have bound : state.mem.row.master < state.mem.next := by
      rw [master]
      exact (inv.placed.bounded slot slotMem).1
    have version : state.mem.versions state.mem.row.master =
        ⟨some (.written state.epoch slot.1), .stable⟩ := by
      rw [master, ← inv.contents slot slotMem stable, ← stable]
    by_cases greatest : IsGreatest state.writers slot.1
    · exact .kept greatest (.inr (.inl ⟨reader, readerMem, fun writer member =>
        (greatest.2 member).trans_lt greatestBelow.1.2⟩)) bound version
    · refine .outdated greatestBelow.1.1 greatest (fun reached => greatest ?_) bound version
      obtain ⟨last, isLast⟩ := exists_greatest_writer ⟨slot.1, greatestBelow.1.1⟩
      obtain ⟨pointer, member⟩ := reaches reached isLast
      have := inv.placed.ascending.le_getLast lastSlot member
      rwa [le_antisymm (isLast.2 greatestBelow.1.1) this]

theorem Executing.outcome (inv : Executing state slots) (quiet : state.Quiet) : Outcome state := by
  by_cases none : state.readers = ∅
  · exact inv.outcome_unread quiet none
  · exact inv.outcome_read quiet none

theorem Executing.clean (inv : Executing state slots) (quiet : state.Quiet) :
    state.mem.row.refCnt = 0 ∧ state.mem.row.Cleared ∧ state.mem.row.placeholders = [] := by
  have noItem := Worklist.not_remains_of_empty fun worker => (quiet worker).1
  have free := inv.refCnt_of_quiet quiet
  refine ⟨free, ?_⟩
  by_cases none : state.readers = ∅
  · have row := inv.unread none
    refine ⟨?_, row.placeholders⟩
    cases calls : state.identified with
    | nil =>
      obtain ⟨registered, -⟩ := row.before calls
      have noWriter : state.writers = ∅ :=
        Set.eq_empty_iff_forall_notMem.mpr fun writer member => by
          rcases inv.called writer member with left | done
          · exact noItem _ left
          · simp [calls] at done
      have cores := registered.coreBitmap_eq_zero.mpr noWriter
      obtain ⟨txs, -, ranks⟩ := registered
      refine ⟨cores, ?_⟩
      rw [ranks, positions_eq_empty.mpr cores, ranked_empty]
    | cons first others => exact row.cleared first (by rw [calls]; rfl)
  · obtain ⟨cleared, placeholders, -⟩ := (inv.read none).drained free
    exact ⟨cleared, placeholders⟩

theorem Executing.master_stable (inv : Executing state slots) (quiet : state.Quiet) :
    state.mem.row.master < state.mem.next ∧
      (state.mem.versions state.mem.row.master).status = .stable ∧
      ∀ epoch serial, (state.mem.versions state.mem.row.master).record =
        some (.written epoch serial) → epoch < state.epoch + 1 := by
  have cases : state.mem.row.master = state.startMaster ∨ state.mem.row.master < state.mem.next ∧
      ∃ writer, state.mem.versions state.mem.row.master =
        ⟨some (.written state.epoch writer), .stable⟩ := by
    cases inv.outcome quiet with
    | untouched _ master | dropped _ _ master => exact .inl master
    | kept _ _ bound version | outdated _ _ _ bound version => exact .inr ⟨bound, _, version⟩
  obtain same | ⟨bound, writer, version⟩ := cases
  · rw [same, inv.startKept]
    exact ⟨inv.start, inv.startStable,
      fun epoch serial written => (inv.startOld epoch serial written).trans (Nat.lt_succ_self _)⟩
  · rw [version]
    refine ⟨bound, rfl, fun epoch serial written => ?_⟩
    simp only [Option.some.injEq, Record.written.injEq] at written
    omega

theorem Executing.newEpoch (inv : Executing state slots) (quiet : state.Quiet)
    (workload : RowWorkload) : Registering { state with
      epoch := state.epoch + 1, workload, phase := .write, todo := State.writePhase workload.ops,
      startMaster := state.mem.row.master,
      startVersion := state.mem.versions state.mem.row.master, identified := [] } := by
  obtain ⟨refCnt, cleared, placeholders⟩ := inv.clean quiet
  obtain ⟨bound, stable, old⟩ := inv.master_stable quiet
  exact {
    start := bound
    startKept := rfl
    startStable := stable
    startOld := old
    phase := rfl
    idle := fun worker => (quiet worker).2
    todo := writePhase_todoOk workload
    registered := by
      convert registered_empty cleared.1 cleared.2 using 1
      exact Set.eq_empty_iff_forall_notMem.mpr fun writer member =>
        member.2 (writePhase_remains member.1.1 member.1.2)
    unread := ⟨refCnt, placeholders⟩
    master := rfl
    fresh := rfl }

end End

/-! ## Whole runs -/

def Inv (state : State) : Prop :=
  Registering state ∨ Placing state ∨ ∃ slots, Executing state slots

section Runs
variable {state after : State}

theorem Executing.beginOperation {slots : List (Nat × Nat)} (inv : Executing state slots)
    {worker : Worker} {item : Item Ope} {rest : List (Item Ope)} (atNext : state.pc worker = .next)
    (front : state.todo worker = item :: rest)
    (taken : state.beginOperation worker item rest = some after) : Executing after slots := by
  cases ope : item.op with
  | read =>
    simp only [State.beginOperation, ope] at taken
    obtain ⟨stable, rfl⟩ := Option.ite_some_none_eq_some.mp taken
    exact inv.beginRead atNext front ope stable
  | update =>
    rcases result : state.mem.identifyWriteVersion item.turn.core (item.turn.serial % 64) with
      ⟨found, mem⟩
    simp only [State.beginOperation, ope, result] at taken
    have call : Identifies state after worker item rest found := by
      cases found <;> cases taken <;>
        exact ⟨atNext, front, ope, ⟨rfl, rfl, rfl, rfl, rfl, rfl⟩, rfl, rfl, result, rfl⟩
    by_cases readers : state.readers = ∅
    · by_cases first : state.identified = []
      · exact inv.identify_first readers first call
      · exact inv.identify_later readers first call
    · exact inv.identify_read readers call

theorem Executing.workerStep {slots : List (Nat × Nat)} (inv : Executing state slots)
    {worker : Worker} (taken : state.workerStep worker = some after) : Executing after slots := by
  unfold State.workerStep at taken
  split at taken
  next => cases taken
  next item rest atNext front =>
    rw [if_pos inv.phase] at taken
    exact inv.beginOperation atNext front taken
  next pointer atLoad =>
    cases taken
    exact inv.loadRecord atLoad
  next record item rest atDecrement front =>
    cases taken
    exact inv.decrement atDecrement front ⟨rfl, rfl, rfl, rfl, rfl, rfl⟩ rfl rfl rfl rfl
  next => cases taken
  next atReturn =>
    cases taken
    exact inv.returnRead atReturn
  next atStore =>
    cases taken
    exact inv.storeRecord atStore ⟨rfl, rfl, rfl, rfl, rfl, rfl⟩ rfl rfl rfl rfl
  next atStore =>
    cases taken
    exact inv.storeStable atStore ⟨rfl, rfl, rfl, rfl, rfl, rfl⟩ rfl rfl rfl rfl

theorem workerStep_registers {worker : Worker} (idle : ∀ worker, state.pc worker = .next)
    (phase : state.phase ≠ .exec) (taken : state.workerStep worker = some after) :
    ∃ item rest, state.todo worker = item :: rest ∧ after = state.register worker item rest := by
  unfold State.workerStep at taken
  rw [idle worker] at taken
  cases front : state.todo worker with
  | nil =>
    rw [front] at taken
    cases taken
  | cons item rest =>
    rw [front] at taken
    simp only [if_neg phase, Option.some.injEq] at taken
    exact ⟨item, rest, rfl, taken.symm⟩

theorem step_inv {label : Label} (inv : Inv state) (taken : state.step label = some after) :
    Inv after := by
  cases label with
  | worker worker =>
    rcases inv with inv | inv | ⟨slots, inv⟩
    · obtain ⟨item, rest, front, rfl⟩ :=
        workerStep_registers inv.idle (by simp [inv.phase]) taken
      exact .inl (inv.register front)
    · obtain ⟨item, rest, front, rfl⟩ :=
        workerStep_registers inv.idle (by simp [inv.phase]) taken
      exact .inr (.inl (inv.register front))
    · exact .inr (.inr ⟨slots, inv.workerStep taken⟩)
  | barrier =>
    simp only [State.step] at taken
    split at taken
    next quiet =>
      rcases inv with inv | inv | ⟨slots, inv⟩ <;> rw [inv.phase] at taken <;> cases taken
      · exact .inr (.inl (inv.barrier quiet))
      · exact .inr (.inr ⟨_, inv.barrier quiet⟩)
    next => cases taken
  | newEpoch workload =>
    simp only [State.step] at taken
    obtain ⟨⟨phase, quiet⟩, rfl⟩ := Option.ite_some_none_eq_some.mp taken
    rcases inv with inv | inv | ⟨slots, inv⟩
    · rw [inv.phase] at phase
      cases phase
    · rw [inv.phase] at phase
      cases phase
    · exact .inl (inv.newEpoch quiet workload)

theorem run_inv {trace : List Label} (run : Run State.step always State.loaded trace state) :
    Inv state :=
  run.invariant Inv (.inr (.inr ⟨[], loaded_executing⟩)) fun _ _ _ inv _ taken =>
    step_inv inv taken

theorem Outcome.keeps_iff {slots : List (Nat × Nat)} (inv : Executing state slots)
    (outcome : Outcome state) : state.KeepsFinalWrite ↔ state.FinalWriteReached := by
  have notStart {writer : Nat} (master : state.mem.row.master = state.startMaster) :
      state.mem.versions state.mem.row.master ≠ ⟨some (.written state.epoch writer), .stable⟩ := by
    rw [master, inv.startKept]
    intro version
    exact absurd (inv.startOld state.epoch writer (congrArg Version.record version)) (lt_irrefl _)
  cases outcome with
  | kept greatest reached _ version =>
    refine iff_of_true ⟨fun none => ?_, fun last isLast => ?_⟩ reached
    · rw [none] at greatest
      exact absurd greatest.1 (Set.notMem_empty _)
    · rw [isLast.unique greatest, version]
  | untouched none master =>
    refine iff_of_true ⟨fun _ => ⟨master, ?_⟩, fun last isLast => ?_⟩ (.inl none)
    · rw [master, inv.startKept]
    · rw [none] at isLast
      exact absurd isLast.1 (Set.notMem_empty _)
  | dropped writers missed master =>
    refine iff_of_false (fun keeps => ?_) missed
    obtain ⟨last, greatest⟩ := exists_greatest_writer writers
    exact notStart master (keeps.2 last greatest)
  | outdated isWriter notLast missed _ version =>
    refine iff_of_false (fun keeps => ?_) missed
    obtain ⟨last, greatest⟩ := exists_greatest_writer ⟨_, isWriter⟩
    have same := version.symm.trans (keeps.2 last greatest)
    simp only [Version.mk.injEq, Option.some.injEq, Record.written.injEq, true_and,
      and_true] at same
    rw [same] at notLast
    exact notLast greatest

/-- At the end of every epoch of every run, the master is the final write of the
epoch exactly when some transaction reads the row after the last writer, or
nobody reads it and the last writer is the first to run, or nobody writes it. -/
theorem epochEnd_keepsFinalWrite_iff {trace : List Label}
    (run : Run State.step always State.loaded trace state) (ended : state.EpochEnd) :
    state.KeepsFinalWrite ↔ state.FinalWriteReached := by
  rcases run_inv run with inv | inv | ⟨slots, inv⟩
  · exact absurd (inv.phase.symm.trans ended.1) (by simp)
  · exact absurd (inv.phase.symm.trans ended.1) (by simp)
  · exact (inv.outcome ended.2).keeps_iff inv

end Runs

/-! ## Two writers and no reader -/

def twoWriters : RowWorkload where
  ops serial := if serial < 2 then [.update] else []
  distinct serial := by split <;> simp

def runInOrder (first second : Worker) : List Label :=
  [.newEpoch twoWriters] ++ List.replicate 2 (.worker (workerOf 0)) ++
    [.barrier, .barrier, .worker first, .worker second]

def State.listing (state : State) (ope : Ope) : List Nat :=
  (List.range 4096).filter (ope ∈ state.workload.ops ·)

theorem mem_writers_iff {state : State} {serial : Nat} :
    serial ∈ state.writers ↔ serial ∈ state.listing .update := by
  simp [State.listing, State.writers]

theorem mem_readers_iff {state : State} {serial : Nat} :
    serial ∈ state.readers ↔ serial ∈ state.listing .read := by
  simp [State.listing, State.readers]

theorem isGreatest_of_listing {state : State} (listing : state.listing .update = [0, 1]) :
    IsGreatest state.writers 1 := by
  refine ⟨mem_writers_iff.mpr (by simp [listing]), fun serial member => ?_⟩
  rw [mem_writers_iff, listing] at member
  simp only [List.mem_cons, List.not_mem_nil, or_false] at member
  omega

/-- Writer 0 runs first, clears the bitmaps without being the final writer, and
the final write of writer 1 is thrown away. -/
theorem runInOrder_losesFinalWrite :
    ∃ state, Run State.step always State.loaded (runInOrder 0 1) state ∧ state.EpochEnd ∧
      ¬ state.KeepsFinalWrite := by
  have reached : (exec State.step State.loaded (runInOrder 0 1)).map (fun state =>
      (decide (state.phase = .exec ∧ state.Quiet), state.mem.versions state.mem.row.master,
        state.listing .update)) = some (true, ⟨some .loaded, .stable⟩, [0, 1]) := by
    decide +kernel
  obtain ⟨state, success, summary⟩ := Option.map_eq_some_iff.mp reached
  simp only [Prod.mk.injEq, decide_eq_true_eq] at summary
  obtain ⟨ended, version, listing⟩ := summary
  refine ⟨state, Run.of_exec success, ended, fun keeps => ?_⟩
  have := keeps.2 1 (isGreatest_of_listing listing)
  rw [version] at this
  simp at this

/-- In the other order the final write is kept. -/
theorem runInOrder_keepsFinalWrite :
    ∃ state, Run State.step always State.loaded (runInOrder 1 0 ++ [.worker 1, .worker 1]) state ∧
      state.EpochEnd ∧ state.FinalWriteReached ∧ state.KeepsFinalWrite := by
  have reached : (exec State.step State.loaded (runInOrder 1 0 ++ [.worker 1, .worker 1])).map
      (fun state => (decide (state.phase = .exec ∧ state.Quiet), state.identified,
        state.listing .update, state.listing .read)) = some (true, [1, 0], [0, 1], []) := by
    decide +kernel
  obtain ⟨state, success, summary⟩ := Option.map_eq_some_iff.mp reached
  simp only [Prod.mk.injEq, decide_eq_true_eq] at summary
  obtain ⟨ended, identified, writers, readers⟩ := summary
  have unread : state.readers = ∅ := by
    ext serial
    simp [mem_readers_iff, readers]
  have final : state.FinalWriteReached :=
    .inr (.inr ⟨unread, 1, by rw [identified]; rfl, isGreatest_of_listing writers⟩)
  have run := Run.of_exec success
  exact ⟨state, run, ended, final, (epochEnd_keepsFinalWrite_iff run ended).mpr final⟩

end TpccRunner.ServalRc
