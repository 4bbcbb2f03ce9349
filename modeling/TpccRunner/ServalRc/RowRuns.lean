import TpccRunner.ServalRc.Database

/-!
# Every row of the database runs on its own

A step of the database is a step of the row it is on and no step of the others,
so in every run of the database each row goes through a run of its own.
-/

set_option autoImplicit false

namespace TpccRunner.ServalRc

open TpccRunner.Utils TpccRunner.Lib

inductive Database.Moves (db : Database) (worker : Worker) : Database → Prop
  | register {item : Item Operation} {rest : List (Item Operation)}
      (atNext : db.pc worker = .next) (front : db.todo worker = item :: rest)
      (phase : db.phase ≠ .exec) : Moves db worker (db.register worker item rest)
  | beginOperation {item : Item Operation} {rest : List (Item Operation)}
      {after : Database} (atNext : db.pc worker = .next) (front : db.todo worker = item :: rest)
      (phase : db.phase = .exec) (taken : db.beginOperation worker item rest = some after) :
      Moves db worker after
  | loadRecord {pointer : Nat} (atLoad : db.pc worker = .loadRecord pointer) :
      Moves db worker (db.goto worker (db.key worker)
        (.decrement ((db.rows (db.key worker)).versions pointer).record))
  | decrement {record : Option Record} {item : Item Operation}
      {rest : List (Item Operation)} (atDecrement : db.pc worker = .decrement record)
      (front : db.todo worker = item :: rest) :
      Moves db worker (((db.setRow (db.key worker)
        (db.rows (db.key worker)).decrementRefCnt).setTodo worker rest).goto worker (db.key worker)
        (.returnRead item.turn.serial record))
  | returnRead {serial : Nat} {record : Option Record}
      (atReturn : db.pc worker = .returnRead serial record) :
      Moves db worker (db.goto worker (db.key worker) .next)
  | storeRecord {serial pointer : Nat} (atStore : db.pc worker = .storeRecord serial pointer) :
      Moves db worker ((db.setRow (db.key worker) { db.rows (db.key worker) with
        toHeap := (db.rows (db.key worker)).storeRecord pointer (.written db.epoch serial) }).goto
          worker (db.key worker) (.storeStable serial pointer))
  | storeStable {serial pointer : Nat} (atStore : db.pc worker = .storeStable serial pointer) :
      Moves db worker ((db.setRow (db.key worker)
        { db.rows (db.key worker) with
          toHeap := (db.rows (db.key worker)).storeStable pointer }).goto worker (db.key worker)
        .next)

section Steps
variable {db after : Database} {worker : Worker} {key : Nat} {item : Item Operation}
  {rest : List (Item Operation)}

theorem Database.workerStep_moves (taken : db.workerStep worker = some after) :
    db.Moves worker after := by
  unfold Database.workerStep at taken
  simp only at taken
  split at taken
  next => cases taken
  next item rest atNext front =>
    split at taken
    next phase => exact .beginOperation atNext front phase taken
    next phase =>
      cases taken
      exact .register atNext front phase
  next pointer atLoad =>
    cases taken
    exact .loadRecord atLoad
  next record item rest atDecrement front =>
    cases taken
    exact .decrement atDecrement front
  next => cases taken
  next atReturn =>
    cases taken
    exact .returnRead atReturn
  next atStore =>
    cases taken
    exact .storeRecord atStore
  next atStore =>
    cases taken
    exact .storeStable atStore

/-! ## A step on one row -/

theorem Database.pcOn_goto_same (pc : Pc) :
    (db.goto worker key pc).pcOn key = Function.update (db.pcOn key) worker pc := by
  funext other
  by_cases same : other = worker
  · subst same
    simp [Database.pcOn, Database.goto]
  · simp [Database.pcOn, Database.goto, same]

theorem Database.pcOn_goto_other (pc : Pc) {other : Nat} (differs : other ≠ key)
    (idle : db.pc worker = .next ∨ db.key worker ≠ key) :
    (db.goto worker other pc).pcOn key = db.pcOn key := by
  funext another
  by_cases same : another = worker
  · subst same
    rcases idle with idle | away
    · simp [Database.pcOn, Database.goto, differs, idle]
    · simp [Database.pcOn, Database.goto, differs, away]
  · simp [Database.pcOn, Database.goto, same]

theorem itemsOn_update_same (front : db.todo worker = item :: rest) (same : item.op.key = key) :
    itemsOn key (db.todo worker) =
        ⟨item.turn, item.op.ope⟩ :: itemsOn key rest ∧
      (fun other => itemsOn key (Function.update db.todo worker rest other)) =
        Function.update (fun other => itemsOn key (db.todo other)) worker (itemsOn key rest) := by
  constructor
  · rw [front, itemsOn_cons_same same]
  · funext other
    by_cases here : other = worker
    · subst here
      simp
    · simp [here]

theorem itemsOn_update_other (front : db.todo worker = item :: rest) (differs : item.op.key ≠ key) :
    (fun other => itemsOn key (Function.update db.todo worker rest other)) =
      fun other => itemsOn key (db.todo other) := by
  funext other
  by_cases here : other = worker
  · subst here
    rw [Function.update_self, front, itemsOn_cons_other differs]
  · rw [Function.update_of_ne here]

theorem Database.pcOn_of_next (atNext : db.pc worker = .next) (key : Nat) :
    db.pcOn key worker = .next := by
  simp [Database.pcOn, atNext]

theorem Database.pcOn_self : db.pcOn (db.key worker) worker = db.pc worker := by
  simp [Database.pcOn]

/-- The states agree on the row when everything the row knows of is the same. -/
theorem Database.rowOn_eq {history : History} (rows : after.rows key = db.rows key)
    (epoch : after.epoch = db.epoch) (txs : after.txs = db.txs) (phase : after.phase = db.phase)
    (todo :
      (fun other => itemsOn key (after.todo other)) = fun other => itemsOn key (db.todo other))
    (pc : after.pcOn key = db.pcOn key)
    (pending : (fun serial => after.pending serial key) = fun serial => db.pending serial key) :
    after.rowOn key history = db.rowOn key history := by
  simp only [Database.rowOn, rows, epoch, txs, phase, todo, pc, pending]

theorem Database.register_rowOn (atNext : db.pc worker = .next)
    (front : db.todo worker = item :: rest) (phase : db.phase ≠ .exec) (key : Nat)
    (history : History) :
    (db.register worker item rest).rowOn key history = db.rowOn key history ∨
      (db.rowOn key history).workerStep worker =
        some ((db.register worker item rest).rowOn key history) := by
  by_cases same : item.op.key = key
  · right
    obtain ⟨todo, popped⟩ := itemsOn_update_same front same
    subst same
    have pcOn : (db.rowOn item.op.key history).pc worker = .next := Database.pcOn_of_next atNext _
    have todoOn : (db.rowOn item.op.key history).todo worker = _ := todo
    have notExec : (db.rowOn item.op.key history).phase ≠ .exec := phase
    rw [State.workerStep, pcOn, todoOn]
    simp only [if_neg notExec, Option.some.injEq]
    cases current : db.phase with
    | exec => exact absurd current phase
    | write =>
      simp only [State.register, Database.register, Database.rowOn, current, State.setTodo,
        Database.setRow, Database.setTodo, Function.update_self, popped]
      rfl
    | read =>
      simp only [State.register, Database.register, Database.rowOn, current, State.setTodo,
        Database.setRow, Database.setTodo, Database.setPending, Function.update_self, popped]
      congr 1
      funext serial
      simp [Function.update_apply]
  · left
    have other : key ≠ item.op.key := fun again => same again.symm
    cases current : db.phase with
    | exec => exact absurd current phase
    | write =>
      simp only [Database.register, current]
      exact Database.rowOn_eq (Function.update_of_ne other ..) rfl rfl rfl
        (itemsOn_update_other front same) rfl rfl
    | read =>
      simp only [Database.register, current]
      refine Database.rowOn_eq (Function.update_of_ne other ..) rfl rfl rfl
        (itemsOn_update_other front same) rfl ?_
      funext serial
      simp [Database.setPending, Database.setTodo, Database.setRow, other]

theorem Database.beginOperation_rowOn (atNext : db.pc worker = .next)
    (front : db.todo worker = item :: rest) (phase : db.phase = .exec)
    (taken : db.beginOperation worker item rest = some after) (key : Nat) (history : History) :
    after.rowOn key history = db.rowOn key history ∨
      ∃ history', (db.rowOn key history).workerStep worker = some (after.rowOn key history') := by
  have idle : db.pc worker = .next ∨ db.key worker ≠ key := .inl atNext
  by_cases same : item.op.key = key
  · right
    obtain ⟨todo, popped⟩ := itemsOn_update_same front same
    subst same
    have pcOn : (db.rowOn item.op.key history).pc worker = .next := Database.pcOn_of_next atNext _
    have todoOn : (db.rowOn item.op.key history).todo worker = _ := todo
    have exec : (db.rowOn item.op.key history).phase = .exec := phase
    rw [State.workerStep, pcOn, todoOn]
    simp only [if_pos exec]
    cases ope : item.op.ope with
    | read =>
      simp only [Database.beginOperation, ope] at taken
      obtain ⟨stable, rfl⟩ := Option.ite_some_none_eq_some.mp taken
      refine ⟨history, ?_⟩
      simp only [State.beginOperation]
      rw [if_pos (by exact stable), Option.some.injEq]
      simp only [Database.rowOn, Database.pcOn_goto_same]
      rfl
    | update =>
      rcases result : (db.rows item.op.key).identifyWriteVersion item.turn.core
        (item.turn.serial % 64) with ⟨found, mem⟩
      simp only [Database.beginOperation, ope, result] at taken
      refine ⟨{ history with identified := history.identified ++ [item.turn.serial] }, ?_⟩
      simp only [State.beginOperation, Database.rowOn, result]
      cases found with
      | none =>
        cases taken
        simp only [Database.setRow, Database.setTodo, State.setTodo, popped,
          Function.update_self]
        rfl
      | some pointer =>
        cases taken
        simp only [Database.pcOn_goto_same]
        simp only [Database.goto, Database.setRow, Database.setTodo, State.setTodo, State.setPc,
          popped, Function.update_self]
        rfl
  · left
    have other : key ≠ item.op.key := fun again => same again.symm
    cases ope : item.op.ope with
    | read =>
      simp only [Database.beginOperation, ope] at taken
      obtain ⟨stable, rfl⟩ := Option.ite_some_none_eq_some.mp taken
      exact Database.rowOn_eq rfl rfl rfl rfl rfl (Database.pcOn_goto_other _ same idle) rfl
    | update =>
      rcases result : (db.rows item.op.key).identifyWriteVersion item.turn.core
        (item.turn.serial % 64) with ⟨found, mem⟩
      simp only [Database.beginOperation, ope, result] at taken
      cases found with
      | none =>
        cases taken
        exact Database.rowOn_eq (Function.update_of_ne other ..) rfl rfl rfl
          (itemsOn_update_other front same) rfl rfl
      | some pointer =>
        cases taken
        exact Database.rowOn_eq (Function.update_of_ne other ..) rfl rfl rfl
          (itemsOn_update_other front same) (Database.pcOn_goto_other _ same idle) rfl

theorem Database.within_rowOn (mem : Memory) {pc : Pc}
    (moved : after = { db with rows := after.rows }.goto worker (db.key worker) pc)
    (rows : after.rows = Function.update db.rows (db.key worker) mem)
    (key : Nat) (history : History)
    (taken : ∀ row : State, row.mem = db.rows (db.key worker) → row.epoch = db.epoch →
      row.pc worker = db.pc worker →
      row.workerStep worker = some ({ row with mem }.setPc worker pc)) :
    after.rowOn key history = db.rowOn key history ∨
      ∃ history', (db.rowOn key history).workerStep worker = some (after.rowOn key history') := by
  by_cases same : db.key worker = key
  · subst same
    refine .inr ⟨history, ?_⟩
    rw [taken _ rfl rfl Database.pcOn_self, moved, rows]
    simp only [Database.rowOn, Database.pcOn_goto_same]
    simp only [Database.goto, Function.update_self]
    rfl
  · left
    rw [moved, rows]
    exact Database.rowOn_eq (Function.update_of_ne (Ne.symm same) ..) rfl rfl rfl rfl
      (Database.pcOn_goto_other _ same (.inr same)) rfl

theorem Database.Moves.rowOn (inOrder : db.InOrder) (moves : db.Moves worker after) (key : Nat)
    (history : History) :
    after.rowOn key history = db.rowOn key history ∨
      ∃ history', (db.rowOn key history).workerStep worker = some (after.rowOn key history') := by
  cases moves with
  | register atNext front phase =>
    rcases Database.register_rowOn atNext front phase key history with unchanged | taken
    · exact .inl unchanged
    · exact .inr ⟨history, taken⟩
  | beginOperation atNext front phase taken =>
    exact Database.beginOperation_rowOn atNext front phase taken key history
  | loadRecord atLoad =>
    apply Database.within_rowOn (db.rows (db.key worker))
    · rfl
    · exact (Function.update_eq_self ..).symm
    · intro row mem _ atPc
      rw [State.workerStep, atPc, atLoad, ← mem]
  | @decrement record item rest atDecrement front =>
    obtain ⟨head, tail, front', headKey⟩ := inOrder.reading worker (.inr ⟨record, atDecrement⟩)
    obtain ⟨rfl, rfl⟩ : item = head ∧ rest = tail := by
      rw [front] at front'
      exact List.cons_eq_cons.mp front'
    by_cases same : db.key worker = key
    · subst same
      refine .inr ⟨history, ?_⟩
      obtain ⟨todo, popped⟩ := itemsOn_update_same front headKey
      have pcOn : (db.rowOn (db.key worker) history).pc worker = _ :=
        Database.pcOn_self.trans atDecrement
      have todoOn : (db.rowOn (db.key worker) history).todo worker = _ := todo
      rw [State.workerStep, pcOn, todoOn]
      simp only [Database.rowOn, Database.pcOn_goto_same]
      simp only [Database.goto, Database.setRow, Database.setTodo, State.setTodo, State.setPc,
        popped, Function.update_self]
      rfl
    · exact .inl (Database.rowOn_eq (Function.update_of_ne (Ne.symm same) ..) rfl rfl rfl
        (itemsOn_update_other front (headKey.trans_ne same))
        (Database.pcOn_goto_other _ same (.inr same)) rfl)
  | returnRead atReturn =>
    apply Database.within_rowOn (db.rows (db.key worker))
    · rfl
    · exact (Function.update_eq_self ..).symm
    · intro row mem _ atPc
      rw [State.workerStep, atPc, atReturn, ← mem]
  | storeRecord atStore =>
    apply Database.within_rowOn
    · rfl
    · rfl
    · intro row mem epoch atPc
      rw [State.workerStep, atPc, atStore, mem, epoch]
  | storeStable atStore =>
    apply Database.within_rowOn
    · rfl
    · rfl
    · intro row mem _ atPc
      rw [State.workerStep, atPc, atStore, mem]

/-! ## The order of operations -/

theorem Database.ascending_pop {todo : Worker → List (Item Operation)}
    (ascending : ∀ other, (todo other).Pairwise fun one two => one.turn.serial ≤ two.turn.serial)
    (front : todo worker = item :: rest) (other : Worker) :
    (Function.update todo worker rest other).Pairwise
      fun one two => one.turn.serial ≤ two.turn.serial := by
  by_cases same : other = worker
  · subst same
    have ordered := ascending other
    rw [front] at ordered
    rw [Function.update_self]
    exact (List.pairwise_cons.mp ordered).2
  · rw [Function.update_of_ne same]
    exact ascending other

theorem Database.InOrder.move (inOrder : db.InOrder) {pc : Pc}
    (ascending : ∀ other, (after.todo other).Pairwise
      fun one two => one.turn.serial ≤ two.turn.serial)
    (others : ∀ other, other ≠ worker → after.todo other = db.todo other ∧
      after.pc other = db.pc other ∧ after.key other = db.key other)
    (own : after.pc worker = pc)
    (reading : (∃ pointer, pc = .loadRecord pointer) ∨ (∃ record, pc = .decrement record) →
      ∃ item rest, after.todo worker = item :: rest ∧ item.op.key = after.key worker) :
    after.InOrder := by
  refine ⟨fun other => ?_, ascending⟩
  by_cases same : other = worker
  · subst same
    rw [own]
    exact reading
  · obtain ⟨todo, atPc, key⟩ := others other same
    rw [todo, atPc, key]
    exact inOrder.reading other

theorem Database.Moves.inOrder (inOrder : db.InOrder) (moves : db.Moves worker after) :
    after.InOrder := by
  cases moves with
  | @register item rest atNext front phase =>
    have todo : (db.register worker item rest).todo = Function.update db.todo worker rest := by
      unfold Database.register
      cases db.phase <;> rfl
    have stays : (db.register worker item rest).pc = db.pc ∧
        (db.register worker item rest).key = db.key := by
      unfold Database.register
      cases db.phase <;> exact ⟨rfl, rfl⟩
    refine inOrder.move (fun other => ?_) (fun other differs => ?_)
      ((congrFun stays.1 worker).trans atNext) (by simp)
    · rw [todo]
      exact Database.ascending_pop inOrder.ascending front other
    · rw [todo, stays.1, stays.2]
      exact ⟨Function.update_of_ne differs .., rfl, rfl⟩
  | @beginOperation item rest _ atNext front phase taken =>
    cases ope : item.op.ope with
    | read =>
      simp only [Database.beginOperation, ope] at taken
      obtain ⟨stable, rfl⟩ := Option.ite_some_none_eq_some.mp taken
      exact inOrder.move inOrder.ascending
        (fun other differs => ⟨rfl, Function.update_of_ne differs ..,
          Function.update_of_ne differs ..⟩)
        (Function.update_self ..) fun _ => ⟨item, rest, front, by simp [Database.goto]⟩
    | update =>
      rcases result : (db.rows item.op.key).identifyWriteVersion item.turn.core
        (item.turn.serial % 64) with ⟨found, mem⟩
      simp only [Database.beginOperation, ope, result] at taken
      cases found with
      | none =>
        cases taken
        exact inOrder.move (Database.ascending_pop inOrder.ascending front)
          (fun other differs => ⟨Function.update_of_ne differs .., rfl, rfl⟩) atNext (by simp)
      | some pointer =>
        cases taken
        exact inOrder.move (Database.ascending_pop inOrder.ascending front)
          (fun other differs => ⟨Function.update_of_ne differs ..,
            Function.update_of_ne differs .., Function.update_of_ne differs ..⟩)
          (Function.update_self ..) (by simp)
  | @loadRecord pointer atLoad =>
    obtain ⟨item, rest, front, headKey⟩ := inOrder.reading worker (.inl ⟨pointer, atLoad⟩)
    exact inOrder.move inOrder.ascending
      (fun other differs => ⟨rfl, Function.update_of_ne differs ..,
        Function.update_of_ne differs ..⟩)
      (Function.update_self ..)
      fun _ => ⟨item, rest, front, by simp [Database.goto, headKey]⟩
  | decrement atDecrement front =>
    exact inOrder.move (Database.ascending_pop inOrder.ascending front)
      (fun other differs => ⟨Function.update_of_ne differs .., Function.update_of_ne differs ..,
        Function.update_of_ne differs ..⟩)
      (Function.update_self ..) (by simp)
  | returnRead _ =>
    exact inOrder.move inOrder.ascending
      (fun other differs => ⟨rfl, Function.update_of_ne differs ..,
        Function.update_of_ne differs ..⟩)
      (Function.update_self ..) (by simp)
  | storeRecord _ =>
    exact inOrder.move inOrder.ascending
      (fun other differs => ⟨rfl, Function.update_of_ne differs ..,
        Function.update_of_ne differs ..⟩)
      (Function.update_self ..) (by simp)
  | storeStable _ =>
    exact inOrder.move inOrder.ascending
      (fun other differs => ⟨rfl, Function.update_of_ne differs ..,
        Function.update_of_ne differs ..⟩)
      (Function.update_self ..) (by simp)

end Steps

/-! ## Whole runs -/

section Runs
variable {db after : Database}

theorem phase_ascending {assignment : Worker → List Turn} {owner : Nat → Worker}
    (assigns : Assigns assignment owner) (txs : Transactions) (worker : Worker) :
    (perTransaction txs.rwSet (assignment worker)).Pairwise
      fun one two => one.turn.serial ≤ two.turn.serial :=
  perTransaction_ascending (assigns.ascending worker)

theorem Database.Quiet.inOrder (quiet : db.Quiet) (pcs : after.pc = db.pc)
    (ascending : ∀ worker, (after.todo worker).Pairwise
      fun one two => one.turn.serial ≤ two.turn.serial) : after.InOrder := by
  refine ⟨fun worker reading => ?_, ascending⟩
  rw [pcs, (quiet worker).2] at reading
  simp at reading

theorem Database.step_inOrder {label : Database.Label} (inOrder : db.InOrder)
    (taken : db.step label = some after) : after.InOrder := by
  cases label with
  | worker worker => exact (Database.workerStep_moves taken).inOrder inOrder
  | barrier =>
    simp only [Database.step] at taken
    obtain ⟨quiet, taken⟩ := Option.ite_none_right_eq_some.mp taken
    cases phase : db.phase <;> rw [phase] at taken <;> cases taken
    · exact quiet.inOrder rfl fun worker => (phase_ascending sequential_assigns _ worker).filter _
    · exact quiet.inOrder rfl fun worker => phase_ascending roundRobin_assigns _ worker
  | newEpoch txs =>
    simp only [Database.step] at taken
    obtain ⟨⟨-, quiet⟩, rfl⟩ := Option.ite_some_none_eq_some.mp taken
    exact quiet.inOrder rfl fun worker => (phase_ascending sequential_assigns _ worker).filter _

theorem Database.Quiet.rowOn (quiet : db.Quiet) (key : Nat) (history : History) :
    (db.rowOn key history).Quiet := by
  intro worker
  obtain ⟨empty, atNext⟩ := quiet worker
  refine ⟨?_, Database.pcOn_of_next atNext key⟩
  show itemsOn key (db.todo worker) = []
  rw [empty, itemsOn_nil]

theorem doWritePhase_itemsOn (txs : Transactions) (key : Nat) :
    (fun worker => itemsOn key (Database.doWritePhase txs worker)) =
      State.writePhase (RowWorkload.on key txs).ops := by
  funext worker
  exact (itemsOn_filter fun ope => ope = .update).trans
    (congrArg _ (itemsOn_perTransaction txs (sequentialAssignment worker)))

theorem doReadPhase_itemsOn (txs : Transactions) (key : Nat) :
    (fun worker => itemsOn key (Database.doReadPhase txs worker)) =
      State.readPhase (RowWorkload.on key txs).ops := by
  funext worker
  exact (itemsOn_filter fun ope => ope = .read).trans
    (congrArg _ (itemsOn_perTransaction txs (sequentialAssignment worker)))

theorem doExecutionPhase_itemsOn (txs : Transactions) (key : Nat) :
    (fun worker => itemsOn key (Database.doExecutionPhase txs worker)) =
      State.executionPhase (RowWorkload.on key txs).ops := by
  funext worker
  exact itemsOn_perTransaction txs _

/-- A step of the database is a step of the row, or none. -/
theorem Database.step_rowOn {label : Database.Label} (inOrder : db.InOrder)
    (taken : db.step label = some after) (key : Nat) (history : History) :
    after.rowOn key history = db.rowOn key history ∨
      ∃ rowLabel history',
        (db.rowOn key history).step rowLabel = some (after.rowOn key history') := by
  cases label with
  | worker worker =>
    rcases (Database.workerStep_moves taken).rowOn inOrder key history with
      unchanged | ⟨history', stepped⟩
    · exact .inl unchanged
    · exact .inr ⟨.worker worker, history', stepped⟩
  | barrier =>
    simp only [Database.step] at taken
    obtain ⟨quiet, taken⟩ := Option.ite_none_right_eq_some.mp taken
    refine .inr ⟨.barrier, history, ?_⟩
    rw [State.step, if_pos (quiet.rowOn key history)]
    cases phase : db.phase <;> rw [phase] at taken <;> cases taken
    · simp only [Database.rowOn, phase, doReadPhase_itemsOn]
      rfl
    · simp only [Database.rowOn, phase, doExecutionPhase_itemsOn]
      rfl
  | newEpoch txs =>
    simp only [Database.step] at taken
    obtain ⟨⟨phase, quiet⟩, rfl⟩ := Option.ite_some_none_eq_some.mp taken
    refine .inr ⟨.newEpoch (RowWorkload.on key txs),
      ⟨(db.rows key).row.master, (db.rows key).versions (db.rows key).row.master, []⟩, ?_⟩
    rw [State.step, if_pos ⟨phase, quiet.rowOn key history⟩]
    simp only [Database.rowOn, doWritePhase_itemsOn]
    rfl

theorem loaded_inOrder : Database.loaded.InOrder :=
  ⟨fun _ reading => by simp [Database.loaded] at reading, fun _ => List.Pairwise.nil⟩

theorem loaded_rowOn (key : Nat) :
    ∃ history, Database.loaded.rowOn key history = State.loaded := by
  refine ⟨⟨0, ⟨some .loaded, .stable⟩, []⟩, ?_⟩
  simp only [Database.rowOn, Database.loaded, State.loaded, itemsOn_nil]
  congr 1
  funext worker
  simp [Database.pcOn]

theorem run_inOrder {trace : List Database.Label}
    (run : Run Database.step always Database.loaded trace db) : db.InOrder :=
  run.invariant Database.InOrder loaded_inOrder fun _ _ _ inOrder _ taken =>
    Database.step_inOrder inOrder taken

/-- In every run of the database, every row goes through a run of its own. -/
theorem run_rowOn {trace : List Database.Label}
    (run : Run Database.step always Database.loaded trace db) (key : Nat) :
    ∃ rowTrace history, Run State.step always State.loaded rowTrace (db.rowOn key history) := by
  have simulated : ∃ rowTrace row, Run State.step always State.loaded rowTrace row ∧
      db.InOrder ∧ ∃ history, db.rowOn key history = row := by
    refine run.simulate (fun db row => db.InOrder ∧ ∃ history, db.rowOn key history = row)
      ⟨loaded_inOrder, loaded_rowOn key⟩ ?_
    rintro before label after row ⟨inOrder, history, rfl⟩ - taken
    have ordered := Database.step_inOrder inOrder taken
    rcases Database.step_rowOn inOrder taken key history with
      unchanged | ⟨rowLabel, history', stepped⟩
    · exact ⟨[], _, .nil, ordered, history, unchanged⟩
    · exact ⟨[rowLabel], _, .single trivial stepped, ordered, history', rfl⟩
  obtain ⟨rowTrace, row, rowRun, -, history, rfl⟩ := simulated
  exact ⟨rowTrace, history, rowRun⟩

end Runs

end TpccRunner.ServalRc
