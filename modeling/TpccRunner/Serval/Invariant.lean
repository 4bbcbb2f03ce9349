import TpccRunner.Serval.RowInvariant

/-!
# The invariant of a run of Serval

Every row keeps `RowInv`, every worker has what its position promises about the
row it works on, and every recorded read is as `EventOk` says.  A step changes
one row and the position of one worker; `Inv.touch` reduces it to that row.
-/

set_option autoImplicit false

namespace TpccRunner.Serval

open TpccRunner.Utils TpccRunner.Lib

/-! ## Positions and events -/

def InitPc (epoch : Nat) (val : Value) : Pc → Prop
  | .start | .guardTryLock | .guardLocked | .unlock _ => True
  | .guardUnlock | .tryLock | .locked | .waitLoad | .waitTryLock | .waitLocked => val.epoch = epoch
  | .waitUnlock | .contended => val.epoch = epoch ∧ val.rowRegion.isSome
  | .awaitStable _ | .loadRecord _ | .storeStable _ => False

def ExecPc (load : Workload) (epoch : Nat) (val : Value) (pending : Nat → Nat → Option Nat)
    (item : Item Operation) : Pc → Prop
  | .start | .unlock _ => True
  | .awaitStable pointer => item.op.ope = .read ∧ val.epoch = epoch ∧ ∃ writer,
      GreatestBelow (load.writers item.op.key epoch) item.turn.serial (some writer) ∧
        pointer = pointerOf val pending writer
  | .loadRecord pointer => item.op.ope = .read ∧
      ((val.epoch = epoch ∧ ∃ writer,
        GreatestBelow (load.writers item.op.key epoch) item.turn.serial (some writer) ∧
          pointer = pointerOf val pending writer ∧
          (val.heap.versions pointer).status = .stable) ∨
      pointer = val.master ∧
        GreatestBelow (load.writers item.op.key epoch) item.turn.serial none)
  | .storeStable pointer => val.epoch = epoch ∧ item.op.ope = .update ∧
      item.turn.serial ∈ load.writers item.op.key epoch ∧
      pointer = pointerOf val pending item.turn.serial ∧
      (val.heap.versions pointer).record = some (.written epoch item.turn.serial)
  | _ => False

def PcOk (load : Workload) (epoch : Nat) (phase : Phase) (val : Value)
    (pending : Nat → Nat → Option Nat) (item : Item Operation) (pc : Pc) : Prop :=
  match phase with
  | .init => InitPc epoch val pc
  | .exec => ExecPc load epoch val pending item pc

theorem pcOk_start {load : Workload} {epoch : Nat} (phase : Phase) {val : Value}
    {pending : Nat → Nat → Option Nat} {item : Item Operation} :
    PcOk load epoch phase val pending item .start := by
  cases phase <;> trivial

theorem pcOk_unlock {load : Workload} {epoch : Nat} (phase : Phase) {val : Value}
    {pending : Nat → Nat → Option Nat} {item : Item Operation} (key : Nat) :
    PcOk load epoch phase val pending item (.unlock key) := by
  cases phase <;> trivial

/-- A read in an epoch that writes the key is right; one in an epoch that does not
finds what was there before the epoch that wrote it last. -/
def EventOk (load : Workload) (event : ReadEvent) : Prop :=
  (load.writers event.key event.epoch).Nonempty ∧ event.Correct load ∨
  ∃ last < event.epoch, (1 ≤ last → (load.writers event.key last).Nonempty) ∧
    (∀ later, last < later → later ≤ event.epoch → load.writers event.key later = ∅) ∧
    ∃ record, FinalBefore load event.key last record ∧ event.record = some record

structure Inv (load : Workload) (state : State) : Prop where
  rows : ∀ key, RowInv load key state.epoch state.phase (state.rows key)
    (fun epoch serial => state.pending epoch serial key) (state.Left key)
  scheduled : state.Scheduled sequentialAssignment load
  positive : state.phase = .init → 1 ≤ state.epoch
  started : ∀ worker item rest, state.todo worker = item :: rest → 1 ≤ state.epoch
  pcs : ∀ worker item rest, state.todo worker = item :: rest →
    PcOk load state.epoch state.phase (state.rows item.op.key)
      (fun epoch serial => state.pending epoch serial item.op.key) item (state.pc worker)
  events : ∀ event ∈ state.reads, EventOk load event

theorem loaded_inv (load : Workload) : Inv load State.loaded where
  rows := fun key => by
    rw [Workers.left_empty fun _ => rfl]
    exact loadedRow_inv load key
  scheduled := ⟨⟨_, sequential_assigns⟩, fun _ => List.nil_suffix⟩
  positive := fun impossible => by cases impossible
  started := fun _ _ _ impossible => by cases impossible
  pcs := fun _ _ _ impossible => by cases impossible
  events := fun _ impossible => by cases impossible

/-! ## Steps that change one row -/

section Frames
variable {load : Workload} {state after : State} {worker : Worker} {item : Item Operation}
  {rest : List (Item Operation)}

theorem Inv.touch (inv : Inv load state) {key : Nat} {val : Value} {pc : Pc}
    (changes : state.Changes after worker key val pc)
    (row : RowInv load key state.epoch state.phase val
      (fun epoch serial => after.pending epoch serial key) (after.Left key))
    (mine : ∀ item rest, after.todo worker = item :: rest →
      PcOk load state.epoch state.phase (after.rows item.op.key)
        (fun epoch serial => after.pending epoch serial item.op.key) item pc)
    (others : ∀ item pc, item.op.key = key →
      PcOk load state.epoch state.phase (state.rows key)
        (fun epoch serial => state.pending epoch serial key) item pc →
      PcOk load state.epoch state.phase val
        (fun epoch serial => after.pending epoch serial key) item pc)
    (events : ∀ event ∈ after.reads, EventOk load event) : Inv load after where
  rows := fun other => by
    rw [changes.epoch, changes.phase, changes.rows]
    by_cases same : other = key
    · rwa [same, Function.update_self]
    · rw [Function.update_of_ne same, changes.left inv.scheduled same, changes.pending other same]
      exact inv.rows other
  scheduled := changes.scheduled inv.scheduled
  positive := by
    rw [changes.phase, changes.epoch]
    exact inv.positive
  started := fun other otherItem otherRest front => by
    rw [changes.epoch]
    by_cases same : other = worker
    · obtain sameTodo | ⟨_, _, before, -⟩ := changes.todo
      · exact inv.started other otherItem otherRest (sameTodo ▸ front)
      · exact inv.started worker _ _ before
    · exact inv.started other otherItem otherRest (changes.todo_other same ▸ front)
  pcs := by
    rw [changes.epoch, changes.phase]
    exact changes.pcs (PcOk load state.epoch state.phase) inv.pcs mine others
  events := events

/-! ## The steps all positions share -/

theorem Inv.goto (inv : Inv load state) (front : state.todo worker = item :: rest) {pc : Pc}
    (mine : PcOk load state.epoch state.phase (state.rows item.op.key)
      (fun epoch serial => state.pending epoch serial item.op.key) item pc) :
    Inv load (state.goto worker pc) := by
  refine inv.touch Workers.changes_goto (inv.rows item.op.key) (fun other otherRest same => ?_)
    (fun _ _ _ ok => ok) inv.events
  obtain ⟨rfl, -⟩ := List.cons.inj (front.symm.trans same)
  exact mine

theorem Inv.setRow (inv : Inv load state) (front : state.todo worker = item :: rest) {val : Value}
    {pc : Pc}
    (row : RowInv load item.op.key state.epoch state.phase val
      (fun epoch serial => state.pending epoch serial item.op.key) (state.Left item.op.key))
    (mine : PcOk load state.epoch state.phase val
      (fun epoch serial => state.pending epoch serial item.op.key) item pc)
    (others : ∀ other pc, other.op.key = item.op.key →
      PcOk load state.epoch state.phase (state.rows item.op.key)
        (fun epoch serial => state.pending epoch serial item.op.key) other pc →
      PcOk load state.epoch state.phase val
        (fun epoch serial => state.pending epoch serial item.op.key) other pc) :
    Inv load ((state.setRow item.op.key val).goto worker pc) := by
  refine inv.touch Workers.changes_setRow row (fun other otherRest same => ?_) others inv.events
  obtain ⟨rfl, -⟩ := List.cons.inj (front.symm.trans same)
  rw [show ((state.setRow item.op.key val).goto worker pc).rows item.op.key = val from
    Function.update_self ..]
  exact mine

theorem pcOk_locked {epoch : Nat} {phase : Phase} {val : Value} {locked : Bool}
    {pending : Nat → Nat → Option Nat} {pc : Pc} :
    PcOk load epoch phase { val with locked } pending item pc ↔
      PcOk load epoch phase val pending item pc := by
  cases phase <;> cases pc <;> exact Iff.rfl

theorem Inv.tryLockRow (inv : Inv load state) (front : state.todo worker = item :: rest)
    {success failure : Pc}
    (onSuccess : PcOk load state.epoch state.phase (state.rows item.op.key)
      (fun epoch serial => state.pending epoch serial item.op.key) item success)
    (onFailure : PcOk load state.epoch state.phase (state.rows item.op.key)
      (fun epoch serial => state.pending epoch serial item.op.key) item failure) :
    Inv load (state.tryLockRow worker item.op.key success failure) := by
  rw [State.tryLockRow]
  split
  · exact inv.goto front onFailure
  · exact inv.setRow front ((inv.rows _).setLocked true) (pcOk_locked.mpr onSuccess)
      fun _ _ _ ok => pcOk_locked.mpr ok

theorem Inv.unlockRow (inv : Inv load state) (front : state.todo worker = item :: rest) {pc : Pc}
    (mine : PcOk load state.epoch state.phase (state.rows item.op.key)
      (fun epoch serial => state.pending epoch serial item.op.key) item pc) :
    Inv load (state.unlockRow worker item.op.key pc) :=
  inv.setRow front ((inv.rows _).setLocked false) (pcOk_locked.mpr mine)
    fun _ _ _ ok => pcOk_locked.mpr ok

theorem Inv.unlockFinished (inv : Inv load state) (worker : Worker) (key : Nat) :
    Inv load (state.unlockRow worker key .start) :=
  inv.touch Workers.changes_setRow ((inv.rows key).setLocked false) (fun _ _ _ => pcOk_start _)
    (fun _ _ _ ok => pcOk_locked.mpr ok) inv.events

end Frames

end TpccRunner.Serval
