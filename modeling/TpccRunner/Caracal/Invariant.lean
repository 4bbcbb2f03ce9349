import TpccRunner.Caracal.Buffers

/-!
# The invariant of a run of Caracal

Every row keeps `RowInv` over the buffer that is installed in it, every worker of
the execution phase has found the version it must read, and every recorded read
was correct.  `Inv.touch` reduces a step to the row it changes.
-/

set_option autoImplicit false

namespace TpccRunner.Caracal

open TpccRunner.Utils TpccRunner.Lib

def State.slots (state : State) (key : Nat) (core : Worker) : Slots :=
  match state.rowBuffer key with
  | some buffer => state.own.buffers buffer core
  | none => []

def PcOk (load : Workload) (epoch : Nat) (phase : Phase) (heap : Heap)
    (pending : Nat → Nat → Option Nat) (item : Item Operation) : Pc → Prop
  | .awaitStable pointer => phase = .exec ∧ item.op.ope = .read ∧ ∃ last,
      IsGreatest {at' ∈ allVersions load item.op.key | at' < toLex (epoch, item.turn.serial)} last ∧
        pointer = pointerOf pending last
  | .loadRecord pointer => phase = .exec ∧ item.op.ope = .read ∧ ∃ last,
      IsGreatest {at' ∈ allVersions load item.op.key | at' < toLex (epoch, item.turn.serial)} last ∧
        pointer = pointerOf pending last ∧ (heap.versions pointer).status = .stable
  | .storeStable pointer => phase = .exec ∧ item.op.ope = .update ∧
      item.turn.serial ∈ load.writers item.op.key epoch ∧
      pointer = pointerOf pending (toLex (epoch, item.turn.serial)) ∧
      (heap.versions pointer).record = some (.written epoch item.turn.serial)
  | _ => True

def Pc.Executing : Pc → Prop
  | .awaitStable _ | .loadRecord _ | .storeStable _ => True
  | _ => False

theorem pcOk_of_notExecuting {load : Workload} {epoch : Nat} {phase : Phase} {heap : Heap}
    {pending : Nat → Nat → Option Nat} {item : Item Operation} {pc : Pc} (idle : ¬ pc.Executing) :
    PcOk load epoch phase heap pending item pc := by
  cases pc with
  | awaitStable | loadRecord | storeStable => exact absurd trivial idle
  | _ => trivial

theorem PcOk.notExecuting {load : Workload} {epoch : Nat} {heap : Heap}
    {pending : Nat → Nat → Option Nat} {item : Item Operation} {pc : Pc}
    (ok : PcOk load epoch .init heap pending item pc) : ¬ pc.Executing := by
  intro executing
  cases pc with
  | awaitStable | loadRecord | storeStable =>
    have impossible := ok.1
    cases impossible
  | _ => exact executing

structure Inv (load : Workload) (state : State) : Prop where
  rows : ∀ key, RowInv load key state.epoch state.phase
    (fun epoch serial => state.pending epoch serial key) (state.Left key) (state.rows key)
    (state.slots key)
  scheduled : state.Scheduled roundRobinAssignment load
  positive : state.phase = .init → 1 ≤ state.epoch
  started : ∀ worker, state.todo worker ≠ [] ∨ state.pc worker ≠ .start → 1 ≤ state.epoch
  pcs : ∀ worker item rest, state.todo worker = item :: rest →
    PcOk load state.epoch state.phase (state.rows item.op.key).heap
      (fun epoch serial => state.pending epoch serial item.op.key) item (state.pc worker)
  events : ∀ event ∈ state.reads, event.Correct load

theorem loaded_inv (load : Workload) : Inv load State.loaded where
  rows := fun key => by
    rw [Workers.left_empty fun _ => rfl]
    exact loadedRow_inv load key
  scheduled := ⟨⟨_, roundRobin_assigns⟩, fun _ => List.nil_suffix⟩
  positive := fun impossible => by cases impossible
  started := fun _ moved => by
    rcases moved with moved | moved <;> exact absurd rfl moved
  pcs := fun _ _ _ impossible => by cases impossible
  events := fun _ impossible => by cases impossible

section Frames
variable {load : Workload} {state after : State} {worker : Worker} {item : Item Operation}
  {rest : List (Item Operation)}

theorem Inv.touch (inv : Inv load state) {key : Nat} {val : Value} {pc : Pc}
    (changes : state.Changes after worker key val pc) (started : 1 ≤ state.epoch)
    (slots : ∀ other, other ≠ key → after.slots other = state.slots other)
    (row : RowInv load key state.epoch state.phase
      (fun epoch serial => after.pending epoch serial key) (after.Left key) val (after.slots key))
    (mine : ∀ item rest, after.todo worker = item :: rest →
      PcOk load state.epoch state.phase (after.rows item.op.key).heap
        (fun epoch serial => after.pending epoch serial item.op.key) item pc)
    (others : ∀ item pc, item.op.key = key →
      PcOk load state.epoch state.phase (state.rows key).heap
        (fun epoch serial => state.pending epoch serial key) item pc →
      PcOk load state.epoch state.phase val.heap
        (fun epoch serial => after.pending epoch serial key) item pc)
    (events : ∀ event ∈ after.reads, event.Correct load) : Inv load after where
  rows := fun other => by
    rw [changes.epoch, changes.phase, changes.rows]
    by_cases same : other = key
    · rwa [same, Function.update_self]
    · rw [Function.update_of_ne same, changes.left inv.scheduled same, changes.pending other same,
        slots other same]
      exact inv.rows other
  scheduled := changes.scheduled inv.scheduled
  positive := fun _ => changes.epoch ▸ started
  started := fun _ _ => changes.epoch ▸ started
  pcs := by
    rw [changes.epoch, changes.phase]
    exact changes.pcs (fun val => PcOk load state.epoch state.phase val.heap) inv.pcs mine others
  events := events

/-- Both phases assign the transactions round robin. -/
theorem Inv.owner (inv : Inv load state) (front : state.todo worker = item :: rest) :
    remainderOwner item.turn.serial = worker := by
  have member := inv.scheduled.mem_full front
  rw [Workers.full] at member
  cases phase : state.phase with
  | init =>
    simp only [phase] at member
    exact ((mem_updates roundRobin_assigns).mp member).2.2.1
  | exec =>
    simp only [phase] at member
    exact ((mem_operations roundRobin_assigns).mp member).2.2.1

theorem Inv.epoch_pos (inv : Inv load state) (front : state.todo worker = item :: rest) :
    1 ≤ state.epoch := inv.started worker (.inl (by simp [front]))

/-! ## Slots of the rows -/

theorem slots_of_untouched (same : Untouched worker state after) (key : Nat) :
    after.slots key = state.slots key := by
  funext core
  rw [State.slots, State.slots, same.rows, same.buffers]

theorem slots_setBuffer {key buffer : Nat} (at' : state.rowBuffer key = some buffer)
    (core : Worker) (slots : Slots) :
    (state.setBuffer buffer core slots).slots key =
      Function.update (state.slots key) core slots := by
  have at'' : (state.setBuffer buffer core slots).rowBuffer key = some buffer := at'
  funext other
  rw [State.slots, at'']
  by_cases same : other = core
  · subst same
    simp [State.setBuffer]
  · simp [State.setBuffer, same, State.slots, at']

theorem slots_setBuffer_of_ne {key buffer : Nat} (differs : state.rowBuffer key ≠ some buffer)
    (core : Worker) (slots : Slots) :
    (state.setBuffer buffer core slots).slots key = state.slots key := by
  funext other
  have same : (state.setBuffer buffer core slots).rowBuffer key = state.rowBuffer key := rfl
  rw [State.slots, State.slots, same]
  cases at' : state.rowBuffer key with
  | none => rfl
  | some third =>
    have : third ≠ buffer := by
      rintro rfl
      exact differs at'
    simp [State.setBuffer, this]

theorem slots_flush (state : State) (worker : Worker) (key buffer : Nat) (pc : Pc) (other : Nat) :
    State.slots ((state.flush worker key buffer).goto worker pc) other =
      (state.setBuffer buffer worker []).slots other := by
  have rowBuffer :
      State.rowBuffer ((state.flush worker key buffer).goto worker pc) = state.rowBuffer :=
    rowBuffer_setRow rfl
  funext core
  rw [State.slots, State.slots, rowBuffer]
  rfl

end Frames

end TpccRunner.Caracal
