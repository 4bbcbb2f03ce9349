import TpccRunner.Lib.StepSystem
import TpccRunner.Utils.Workers
import TpccRunner.Caracal.RowBuffer

/-!
# Caracal over the epochs

The 64 workers of `ycsb_caracal.cpp`.  In the initialization phase a worker
appends a pending version for every update of its transactions: to the version
array if it gets the array's lock, otherwise to the buffer of its own core in the
row buffer, which it installs if the row has none.  A full buffer goes to the
array as a batch; `finalize_batch_append_optimized` appends what is left, in any
order of the rows.  A step is one atomic access to shared state.
-/

set_option autoImplicit false

namespace TpccRunner.Caracal

open TpccRunner.Utils TpccRunner.Lib

inductive Pc where
  /-- `do_append_pending_version` loads `row_buffer_`, or an operation of the
  execution phase begins. -/
  | start
  | tryLock
  | locked
  /-- The version is in the array, the array still locked. -/
  | unlock (key : Nat)
  | fetchBuffer
  | installBuffer (buffer : Nat)
  | loadOtherBuffer (buffer : Nat)
  | contended (buffer : Nat)
  /-- The core's buffer is full: spins on the lock of the array. -/
  | batchLock (key buffer : Nat)
  | batchAppend (key buffer : Nat)
  | batchUnlock (key : Nat)
  | finalAppend (key buffer : Nat)
  | finalUnlock (key : Nat)
  | awaitStable (pointer : Nat)
  | loadRecord (pointer : Nat)
  | storeStable (pointer : Nat)
  deriving DecidableEq, Repr

/-- The row buffer controller, and what a worker remembers of its buffers. -/
structure RowBuffers where
  /-- The slots of the row buffers, by buffer and core; a worker's core is its own id. -/
  buffers : Nat → Worker → Slots := fun _ _ => []
  /-- `used_` of the row buffer controller. -/
  used : Nat := 0
  spareBuffer : Worker → Option Nat := fun _ => none
  /-- `appended_core_buffers_`, a row and its buffer. -/
  appendedCoreBuffers : Worker → List (Nat × Nat) := fun _ => []

abbrev State := Workers Value Pc RowBuffers

inductive Label where
  | worker (worker : Worker)
  /-- The iterator of `finalize_batch_append_optimized` is at the entry of the row. -/
  | finalize (worker : Worker) (key : Nat)
  | barrier
  | newEpoch
  deriving DecidableEq, Repr

def initializationPhase (load : Workload) (epoch : Nat) : Worker → List (Item Operation) :=
  load.updates roundRobinAssignment epoch

def executionPhase (load : Workload) (epoch : Nat) : Worker → List (Item Operation) :=
  load.operations roundRobinAssignment epoch

namespace State

/-- `insert_into_index`: one version with id (0,0). -/
def loadedRow : Value where
  globalArray := (GlobalVersionArray.append [] 0 0 0).1
  heap := { versions := fun _ => ⟨some .loaded, .stable⟩, next := 1 }

def loaded : State where
  rows _ := loadedRow
  own := {}
  pc _ := .start

def Quiet (state : State) : Prop :=
  ∀ worker, state.todo worker = [] ∧ state.pc worker = .start ∧
    state.own.appendedCoreBuffers worker = []

instance (state : State) : Decidable state.Quiet := inferInstanceAs (Decidable (∀ _, _))

def setBuffer (state : State) (buffer : Nat) (core : Worker) (slots : Slots) : State :=
  let cores := Function.update (state.own.buffers buffer) core slots
  { state with own.buffers := Function.update state.own.buffers buffer cores }

def setSpare (state : State) (worker : Worker) (spare : Option Nat) : State :=
  { state with own.spareBuffer := Function.update state.own.spareBuffer worker spare }

def setAppended (state : State) (worker : Worker) (entries : List (Nat × Nat)) : State :=
  { state with
    own.appendedCoreBuffers := Function.update state.own.appendedCoreBuffers worker entries }

def setLocked (state : State) (key : Nat) (locked : Bool) : State :=
  state.setRow key { state.rows key with locked }

/-- `unordered_map::insert` keeps an entry that is there. -/
def register (entries : List (Nat × Nat)) (key buffer : Nat) : List (Nat × Nat) :=
  if entries.any (·.1 = key) then entries else (key, buffer) :: entries

/-- `append_to_contented_row` up to the batch. -/
def appendContended (maxSlots : Nat) (state : State) (worker : Worker) (item : Item Operation)
    (rest : List (Item Operation)) (buffer : Nat) : State :=
  let val := state.rows item.op.key
  let (slots, room) := PerCoreBuffer.appendable maxSlots (state.own.buffers buffer worker)
    val.heap.next state.epoch item.turn.serial
  let state := state.setBuffer buffer worker slots
  if room then
    (state.setAppended worker
      (register (state.own.appendedCoreBuffers worker) item.op.key buffer)).appended Value.heap
      worker item rest val.createPendingVersion .start
  else
    state.appended Value.heap worker item rest val.createPendingVersion
      (.batchLock item.op.key buffer)

/-- One step of `do_append_pending_version`. -/
def initStep (maxSlots : Nat) (state : State) (worker : Worker) (item : Item Operation)
    (rest : List (Item Operation)) : Pc → Option State
  | .start =>
    match (state.rows item.op.key).rowBuffer with
    | some buffer => some (state.goto worker (.contended buffer))
    | none => some (state.goto worker .tryLock)
  | .tryLock =>
    if (state.rows item.op.key).locked then some (state.goto worker .fetchBuffer)
    else some ((state.setLocked item.op.key true).goto worker .locked)
  | .locked =>
    some (state.appended Value.heap worker item rest
      ((state.rows item.op.key).appendToUncontendedRow state.epoch item.turn.serial)
      (.unlock item.op.key))
  | .fetchBuffer =>
    match state.own.spareBuffer worker with
    | some buffer => some ((state.setSpare worker none).goto worker (.installBuffer buffer))
    | none =>
      if state.own.used < numRegions then
        some ({ state with own.used := state.own.used + 1 }.goto worker
          (.installBuffer state.own.used))
      else none  -- fetch_new_buffer throws
  | .installBuffer buffer =>
    match (state.rows item.op.key).rowBuffer with
    | none =>
      let val := { state.rows item.op.key with rowBuffer := some buffer }
      some ((state.setRow item.op.key val).goto worker (.contended buffer))
    | some _ => some (state.goto worker (.loadOtherBuffer buffer))
  | .loadOtherBuffer buffer =>
    match (state.rows item.op.key).rowBuffer with
    | some other => some ((state.setSpare worker (some buffer)).goto worker (.contended other))
    | none => none
  | .contended buffer => some (state.appendContended maxSlots worker item rest buffer)
  | _ => none

def execStep (state : State) (worker : Worker) (item : Item Operation)
    (rest : List (Item Operation)) : Pc → Option State
  | .start =>
    let val := state.rows item.op.key
    match item.op.ope with
    | .read =>
      match GlobalVersionArray.searchVisibleVersion val.globalArray state.epoch
          item.turn.serial with
      | some (_, version) => some (state.goto worker (.awaitStable version))
      | none => some (state.returned worker item rest none .start)
    | .update =>
      match state.pending state.epoch item.turn.serial item.op.key with
      | some pointer =>
        let filled := val.storeRecord pointer (.written state.epoch item.turn.serial)
        some ((state.setRow item.op.key filled).goto worker (.storeStable pointer))
      | none => some (state.setTodo worker rest)
  | .awaitStable pointer =>
    if ((state.rows item.op.key).heap.versions pointer).status = .stable then
      some (state.goto worker (.loadRecord pointer))
    else none
  | .loadRecord pointer =>
    some (state.returned worker item rest
      ((state.rows item.op.key).heap.versions pointer).record .start)
  | .storeStable pointer =>
    let val := (state.rows item.op.key).storeStable pointer
    some (((state.setRow item.op.key val).setTodo worker rest).goto worker .start)
  | _ => none

/-- `batch_append` and the clearing of the buffer, under the lock of the array. -/
def flush (state : State) (worker : Worker) (key buffer : Nat) : State :=
  State.setBuffer (state.setRow key ((state.rows key).batchAppend (state.own.buffers buffer worker)
    state.epoch)) buffer worker []

def workerStep (maxSlots : Nat) (state : State) (worker : Worker) : Option State :=
  match state.pc worker with
  | .unlock key => some ((state.setLocked key false).goto worker .start)
  | .batchLock key buffer =>
    if (state.rows key).locked then none
    else some ((state.setLocked key true).goto worker (.batchAppend key buffer))
  | .batchAppend key buffer =>
    some ((state.flush worker key buffer).goto worker (.batchUnlock key))
  | .batchUnlock key => some ((state.setLocked key false).goto worker .start)
  | .finalAppend key buffer =>
    some ((state.flush worker key buffer).goto worker (.finalUnlock key))
  | .finalUnlock key =>
    some (((state.setLocked key false).setAppended worker
      ((state.own.appendedCoreBuffers worker).filter (·.1 ≠ key))).goto worker .start)
  | pc =>
    match state.todo worker with
    | [] => none
    | item :: rest =>
      match state.phase with
      | .init => state.initStep maxSlots worker item rest pc
      | .exec => state.execStep worker item rest pc

/-- The iterator stands at the row's entry: `try_lock`, or go on to the next one. -/
def finalizeStep (state : State) (worker : Worker) (key : Nat) : Option State :=
  if state.phase = .init ∧ state.todo worker = [] ∧ state.pc worker = .start then
    match (state.own.appendedCoreBuffers worker).find? (·.1 = key) with
    | some (_, buffer) =>
      if (state.rows key).locked then some state
      else some ((state.setLocked key true).goto worker (.finalAppend key buffer))
    | none => none
  else none

def step (maxSlots : Nat) (load : Workload) (state : State) : Label → Option State
  | .worker worker => state.workerStep maxSlots worker
  | .finalize worker key => state.finalizeStep worker key
  | .barrier =>
    if state.phase = .init ∧ state.Quiet then
      some { state with phase := .exec, todo := executionPhase load state.epoch }
    else none
  | .newEpoch =>
    if state.phase = .exec ∧ state.Quiet then
      some { state with
        epoch := state.epoch + 1, phase := .init,
        todo := initializationPhase load (state.epoch + 1) }
    else none

end State

/-! ## The transitions -/

section Moves
variable (maxSlots : Nat) (load : Workload) (state : State) (worker : Worker)
  (item : Item Operation) (rest : List (Item Operation))

inductive Initializes : Pc → State → Prop
  | contended {buffer : Nat} (installed : (state.rows item.op.key).rowBuffer = some buffer) :
      Initializes .start (state.goto worker (.contended buffer))
  | uncontended : Initializes .start (state.goto worker .tryLock)
  | lockTaken : Initializes .tryLock (state.goto worker .fetchBuffer)
  | locks : Initializes .tryLock ((state.setLocked item.op.key true).goto worker .locked)
  | appends : Initializes .locked (state.appended Value.heap worker item rest
      ((state.rows item.op.key).appendToUncontendedRow state.epoch item.turn.serial)
      (.unlock item.op.key))
  | takesSpare {buffer : Nat} (spare : state.own.spareBuffer worker = some buffer) :
      Initializes .fetchBuffer
        ((state.setSpare worker none).goto worker (.installBuffer buffer))
  | fetches (noSpare : state.own.spareBuffer worker = none) : Initializes .fetchBuffer
      ({ state with own.used := state.own.used + 1 }.goto worker (.installBuffer state.own.used))
  | installs {buffer : Nat} (free : (state.rows item.op.key).rowBuffer = none) :
      Initializes (.installBuffer buffer)
        ((state.setRow item.op.key { state.rows item.op.key with rowBuffer := some buffer }).goto
          worker (.contended buffer))
  | beaten {buffer : Nat} :
      Initializes (.installBuffer buffer) (state.goto worker (.loadOtherBuffer buffer))
  | keepsSpare {buffer other : Nat}
      (installed : (state.rows item.op.key).rowBuffer = some other) :
      Initializes (.loadOtherBuffer buffer)
        ((state.setSpare worker (some buffer)).goto worker (.contended other))
  | appendsContended {buffer : Nat} : Initializes (.contended buffer)
      (state.appendContended maxSlots worker item rest buffer)

inductive Executes : Pc → State → Prop
  | finds {slot : Nat × Nat} (read : item.op.ope = .read)
      (found : GlobalVersionArray.searchVisibleVersion (state.rows item.op.key).globalArray
        state.epoch item.turn.serial = some slot) :
      Executes .start (state.goto worker (.awaitStable slot.2))
  | misses (read : item.op.ope = .read)
      (found : GlobalVersionArray.searchVisibleVersion (state.rows item.op.key).globalArray
        state.epoch item.turn.serial = none) :
      Executes .start (state.returned worker item rest none .start)
  | fills {pointer : Nat} (update : item.op.ope = .update)
      (made : state.pending state.epoch item.turn.serial item.op.key = some pointer) :
      Executes .start ((state.setRow item.op.key ((state.rows item.op.key).storeRecord pointer
        (.written state.epoch item.turn.serial))).goto worker (.storeStable pointer))
  | unmade (update : item.op.ope = .update)
      (made : state.pending state.epoch item.turn.serial item.op.key = none) :
      Executes .start (state.setTodo worker rest)
  | awaits {pointer : Nat}
      (stable : ((state.rows item.op.key).heap.versions pointer).status = .stable) :
      Executes (.awaitStable pointer) (state.goto worker (.loadRecord pointer))
  | loads {pointer : Nat} : Executes (.loadRecord pointer)
      (state.returned worker item rest ((state.rows item.op.key).heap.versions pointer).record
        .start)
  | stores {pointer : Nat} : Executes (.storeStable pointer)
      (((state.setRow item.op.key ((state.rows item.op.key).storeStable pointer)).setTodo worker
        rest).goto worker .start)

/-- The steps that are not about the first operation of the worker's list. -/
inductive Flushes : Pc → State → Prop
  | unlock {key : Nat} : Flushes (.unlock key) ((state.setLocked key false).goto worker .start)
  | batchLock {key buffer : Nat} : Flushes (.batchLock key buffer)
      ((state.setLocked key true).goto worker (.batchAppend key buffer))
  | batchAppend {key buffer : Nat} : Flushes (.batchAppend key buffer)
      ((state.flush worker key buffer).goto worker (.batchUnlock key))
  | batchUnlock {key : Nat} :
      Flushes (.batchUnlock key) ((state.setLocked key false).goto worker .start)
  | finalAppend {key buffer : Nat} : Flushes (.finalAppend key buffer)
      ((state.flush worker key buffer).goto worker (.finalUnlock key))
  | finalUnlock {key : Nat} : Flushes (.finalUnlock key)
      (((state.setLocked key false).setAppended worker
        ((state.own.appendedCoreBuffers worker).filter (·.1 ≠ key))).goto worker .start)

inductive Transition : State → Prop
  | initializes {worker : Worker} {item : Item Operation} {rest : List (Item Operation)} {pc : Pc}
      {after : State} (init : state.phase = .init) (front : state.todo worker = item :: rest)
      (at' : state.pc worker = pc) (move : Initializes maxSlots state worker item rest pc after) :
      Transition after
  | executes {worker : Worker} {item : Item Operation} {rest : List (Item Operation)} {pc : Pc}
      {after : State} (exec : state.phase = .exec) (front : state.todo worker = item :: rest)
      (at' : state.pc worker = pc) (move : Executes state worker item rest pc after) :
      Transition after
  | flushes {worker : Worker} {pc : Pc} {after : State} (at' : state.pc worker = pc)
      (move : Flushes state worker pc after) : Transition after
  | finalizes {worker : Worker} {key buffer : Nat} (init : state.phase = .init)
      (at' : state.pc worker = .start)
      (entry : (key, buffer) ∈ state.own.appendedCoreBuffers worker) :
      Transition ((state.setLocked key true).goto worker (.finalAppend key buffer))
  | skips : Transition state
  | barrier (init : state.phase = .init) (quiet : state.Quiet) :
      Transition { state with phase := .exec, todo := executionPhase load state.epoch }
  | newEpoch (exec : state.phase = .exec) (quiet : state.Quiet) : Transition
      { state with
        epoch := state.epoch + 1, phase := .init,
        todo := initializationPhase load (state.epoch + 1) }

end Moves

section Transitions
variable {maxSlots : Nat} {load : Workload} {state after : State} {worker : Worker}
  {item : Item Operation} {rest : List (Item Operation)} {pc : Pc}

theorem initializes_of_step (step : state.initStep maxSlots worker item rest pc = some after) :
    Initializes maxSlots state worker item rest pc after := by
  cases pc with
  | start =>
    simp only [State.initStep] at step
    split at step <;> cases step
    · exact .contended ‹_›
    · exact .uncontended
  | tryLock =>
    rw [State.initStep] at step
    split at step <;> cases step
    · exact .lockTaken
    · exact .locks
  | locked =>
    cases step
    exact .appends
  | fetchBuffer =>
    simp only [State.initStep] at step
    split at step
    · cases step
      exact .takesSpare ‹_›
    · split at step <;> cases step
      exact .fetches ‹_›
  | installBuffer buffer =>
    simp only [State.initStep] at step
    split at step <;> cases step
    · exact .installs ‹_›
    · exact .beaten
  | loadOtherBuffer buffer =>
    simp only [State.initStep] at step
    split at step <;> cases step
    exact .keepsSpare ‹_›
  | contended buffer =>
    cases step
    exact .appendsContended
  | _ => cases step

theorem executes_of_step (step : state.execStep worker item rest pc = some after) :
    Executes state worker item rest pc after := by
  cases pc with
  | start =>
    simp only [State.execStep] at step
    split at step
    · split at step <;> cases step
      · exact .finds ‹_› ‹_›
      · exact .misses ‹_› ‹_›
    · split at step <;> cases step
      · exact .fills ‹_› ‹_›
      · exact .unmade ‹_› ‹_›
  | awaitStable pointer =>
    rw [State.execStep] at step
    split at step <;> cases step
    exact .awaits ‹_›
  | loadRecord pointer =>
    cases step
    exact .loads
  | storeStable pointer =>
    cases step
    exact .stores
  | _ => cases step

theorem transition_of_workerStep (step : state.workerStep maxSlots worker = some after) :
    Transition maxSlots load state after := by
  cases pc : state.pc worker with (simp only [State.workerStep, pc] at step)
  | unlock key | batchAppend key buffer | batchUnlock key | finalAppend key buffer
  | finalUnlock key =>
    cases step
    exact .flushes pc (by constructor)
  | batchLock key buffer =>
    split at step <;> cases step
    exact .flushes pc .batchLock
  | _ =>
    split at step
    · cases step
    · split at step
      · exact .initializes ‹_› ‹_› pc (initializes_of_step step)
      · exact .executes ‹_› ‹_› pc (executes_of_step step)

theorem transition_of_step {label : Label} (step : state.step maxSlots load label = some after) :
    Transition maxSlots load state after := by
  cases label with
  | worker worker => exact transition_of_workerStep step
  | finalize worker key =>
    rw [State.step, State.finalizeStep, Option.ite_none_right_eq_some] at step
    obtain ⟨⟨init, -, atStart⟩, step⟩ := step
    split at step
    next found buffer entry =>
      obtain rfl : found = key := by simpa using List.find?_some entry
      split at step <;> cases step
      · exact .skips
      · exact .finalizes init atStart (List.mem_of_find?_eq_some entry)
    next => cases step
  | barrier =>
    rw [State.step] at step
    split at step <;> cases step
    exact .barrier (And.left ‹_›) (And.right ‹_›)
  | newEpoch =>
    rw [State.step] at step
    split at step <;> cases step
    exact .newEpoch (And.left ‹_›) (And.right ‹_›)

end Transitions

/-! ## What the collection must keep -/

/-- The version of a writer, once it is made; version 0 is the loaded one. -/
def State.versionOf (state : State) (key : Nat) : Option (Nat ×ₗ Nat) → Option Nat
  | none => some 0
  | some at' => state.pending (ofLex at').1 (ofLex at').2 key

/-- No version that a transaction of the current epoch must read has been deleted. -/
def State.KeepsReadable (load : Workload) (state : State) : Prop :=
  ∀ key serial found,
    GreatestBelow (load.allWriters key) (toLex (state.epoch, serial)) found →
      ∀ pointer ∈ state.versionOf key found, pointer ∉ (state.rows key).heap.freed

end TpccRunner.Caracal
