import TpccRunner.Utils.Workload

/-!
# The workers of Serval and Caracal

The drivers of both protocols run an epoch in two phases, in which a worker goes through
the operations of its transactions.  Rows, the positions inside an operation and what the
workers share besides the rows are the protocol's own.

`reads` is history: what the reads of the run have returned.
-/

set_option autoImplicit false

namespace TpccRunner.Utils

open TpccRunner.Lib
open Worklist (Proper Remains Suffixes)

structure Workers (Val Pc Own : Type) where
  rows : Nat → Val
  own : Own
  epoch : Nat := 0
  phase : Phase := .exec
  todo : Worker → List (Item Operation) := fun _ => []
  pc : Worker → Pc
  /-- `Operation::pending_`, by epoch, serial id and key. -/
  pending : Nat → Nat → Nat → Option Nat := fun _ _ _ => none
  reads : List ReadEvent := []

namespace Workers
variable {Val Pc Own : Type}

section Operations
variable (state : Workers Val Pc Own)

def goto (worker : Worker) (pc : Pc) : Workers Val Pc Own :=
  { state with pc := Function.update state.pc worker pc }

def setRow (key : Nat) (val : Val) : Workers Val Pc Own :=
  { state with rows := Function.update state.rows key val }

def setTodo (worker : Worker) (rest : List (Item Operation)) : Workers Val Pc Own :=
  { state with todo := Function.update state.todo worker rest }

def setPending (serial key pointer : Nat) : Workers Val Pc Own :=
  { state with pending := fun epoch other otherKey =>
      if epoch = state.epoch ∧ other = serial ∧ otherKey = key then some pointer
      else state.pending epoch other otherKey }

/-- `append_pending_version` has its version; the new version is the row's next one. -/
def appended (heap : Val → Heap) (worker : Worker) (item : Item Operation)
    (rest : List (Item Operation)) (val : Val) (pc : Pc) : Workers Val Pc Own :=
  (((state.setRow item.op.key val).setPending item.turn.serial item.op.key
    (heap (state.rows item.op.key)).next).setTodo worker rest).goto worker pc

def returned (worker : Worker) (item : Item Operation) (rest : List (Item Operation))
    (record : Option Record) (pc : Pc) : Workers Val Pc Own :=
  { (state.setTodo worker rest).goto worker pc with
    reads := ⟨state.epoch, item.turn.serial, item.op.key, record⟩ :: state.reads }

/-- The operations of the phase; both protocols execute in round-robin assignment. -/
def full (assignment : Worker → List Turn) (load : Workload) : Worker → List (Item Operation) :=
  match state.phase with
  | .init => load.updates assignment state.epoch
  | .exec => load.operations roundRobinAssignment state.epoch

/-- The transaction has still to update the key. -/
def Left (key serial : Nat) : Prop := Remains state.todo (itemOf serial ⟨.update, key⟩)

structure Scheduled (assignment : Worker → List Turn) (load : Workload) : Prop where
  assigns : ∃ owner, Assigns assignment owner
  suffixes : Suffixes state.todo (state.full assignment load)

end Operations

theorem left_empty {state : Workers Val Pc Own} (empty : ∀ worker, state.todo worker = [])
    (key : Nat) : state.Left key = fun _ => False := by
  funext serial
  exact eq_false (Worklist.not_remains_of_empty empty _)

section Schedules
variable {assignment : Worker → List Turn} {load : Workload} {state after : Workers Val Pc Own}
  {worker : Worker} {item : Item Operation} {rest : List (Item Operation)} {key serial : Nat}

theorem Scheduled.proper (scheduled : state.Scheduled assignment load) :
    ∃ owner, Proper owner state.todo := by
  obtain ⟨⟨owner, assigns⟩, suffixes⟩ := scheduled
  rw [full] at suffixes
  cases phase : state.phase with
  | init =>
    simp only [phase] at suffixes
    exact ⟨_, (proper_updates assigns load state.epoch).suffix suffixes⟩
  | exec =>
    simp only [phase] at suffixes
    exact ⟨_, (proper_operations roundRobin_assigns load state.epoch).suffix suffixes⟩

theorem Scheduled.mem_full (scheduled : state.Scheduled assignment load)
    (front : state.todo worker = item :: rest) : item ∈ state.full assignment load worker :=
  (scheduled.suffixes worker).subset (by simp [front])

theorem Scheduled.item_facts (scheduled : state.Scheduled assignment load)
    (front : state.todo worker = item :: rest) :
    item.turn.serial < 4096 ∧ item = itemOf item.turn.serial item.op ∧
      item.op ∈ load.rwSet state.epoch item.turn.serial ∧
      (state.phase = .init → item.op.ope = .update) := by
  have member := scheduled.mem_full front
  obtain ⟨owner, assigns⟩ := scheduled.assigns
  rw [full] at member
  cases phase : state.phase with
  | init =>
    simp only [phase] at member
    obtain ⟨bound, shape, -, known, update⟩ := (mem_updates assigns).mp member
    exact ⟨bound, shape, known, fun _ => update⟩
  | exec =>
    simp only [phase] at member
    obtain ⟨bound, shape, -, known⟩ := (mem_operations roundRobin_assigns).mp member
    exact ⟨bound, shape, known, fun impossible => by cases impossible⟩

theorem Scheduled.writer (scheduled : state.Scheduled assignment load)
    (front : state.todo worker = item :: rest) (update : item.op.ope = .update) :
    item.turn.serial ∈ load.writers item.op.key state.epoch := by
  obtain ⟨bound, -, known, -⟩ := scheduled.item_facts front
  obtain ⟨turn, ope, key⟩ := item
  cases update
  exact ⟨bound, known⟩

theorem Scheduled.congr (scheduled : state.Scheduled assignment load)
    (todo : after.todo = state.todo) (phase : after.phase = state.phase)
    (epoch : after.epoch = state.epoch) : after.Scheduled assignment load := by
  refine ⟨scheduled.assigns, ?_⟩
  rw [full, todo, phase, epoch]
  exact scheduled.suffixes

theorem Scheduled.pop (scheduled : state.Scheduled assignment load)
    (front : state.todo worker = item :: rest)
    (todo : after.todo = Function.update state.todo worker rest)
    (phase : after.phase = state.phase) (epoch : after.epoch = state.epoch) :
    after.Scheduled assignment load := by
  refine ⟨scheduled.assigns, ?_⟩
  rw [full, todo, phase, epoch]
  exact scheduled.suffixes.pop front

theorem Scheduled.left_head (scheduled : state.Scheduled assignment load)
    (front : state.todo worker = item :: rest) (update : item.op.ope = .update) :
    state.Left item.op.key item.turn.serial := by
  obtain ⟨-, shape, -, -⟩ := scheduled.item_facts front
  have same : itemOf item.turn.serial ⟨.update, item.op.key⟩ = item := by
    conv_rhs => rw [shape]
    rw [← update]
  rw [Left, same]
  exact Worklist.remains_head front

theorem Scheduled.left_pop (scheduled : state.Scheduled assignment load)
    (front : state.todo worker = item :: rest)
    (todo : after.todo = Function.update state.todo worker rest) :
    after.Left key serial ↔ state.Left key serial ∧ itemOf serial ⟨.update, key⟩ ≠ item := by
  obtain ⟨owner, proper⟩ := scheduled.proper
  rw [Left, Left, todo]
  exact proper.remains_pop front

theorem Scheduled.left_pop_update (scheduled : state.Scheduled assignment load)
    (front : state.todo worker = item :: rest)
    (todo : after.todo = Function.update state.todo worker rest) (update : item.op.ope = .update) :
    after.Left item.op.key serial ↔ state.Left item.op.key serial ∧ serial ≠ item.turn.serial := by
  obtain ⟨-, shape, -, -⟩ := scheduled.item_facts front
  rw [scheduled.left_pop front todo, shape, ne_eq, itemOf_inj, ← update]
  exact and_congr_right fun _ => not_congr (and_iff_left rfl)

theorem Scheduled.left_pop_read (scheduled : state.Scheduled assignment load)
    (front : state.todo worker = item :: rest)
    (todo : after.todo = Function.update state.todo worker rest) (read : item.op.ope = .read) :
    after.Left item.op.key = state.Left item.op.key := by
  funext serial
  refine propext ((scheduled.left_pop front todo).trans (and_iff_left fun same => ?_))
  have update := congrArg (·.op.ope) same
  rw [read] at update
  cases update

theorem Scheduled.left_pop_other (scheduled : state.Scheduled assignment load)
    (front : state.todo worker = item :: rest)
    (todo : after.todo = Function.update state.todo worker rest) (other : key ≠ item.op.key) :
    after.Left key = state.Left key := by
  funext serial
  refine propext ((scheduled.left_pop front todo).trans (and_iff_left ?_))
  rintro rfl
  exact other rfl

/-- A step of a worker moves it, perhaps past the operation it is at, and changes one row and
what is pending there. -/
structure Changes (state after : Workers Val Pc Own) (worker : Worker) (key : Nat) (val : Val)
    (pc : Pc) : Prop where
  epoch : after.epoch = state.epoch
  phase : after.phase = state.phase
  todo : after.todo = state.todo ∨ ∃ item rest, state.todo worker = item :: rest ∧
    item.op.key = key ∧ after.todo = Function.update state.todo worker rest
  pending : ∀ other, other ≠ key → (fun epoch serial => after.pending epoch serial other) =
    fun epoch serial => state.pending epoch serial other
  rows : after.rows = Function.update state.rows key val
  pc : after.pc = Function.update state.pc worker pc

section Changes
variable {val : Val} {pc : Pc}

theorem changes_goto : state.Changes (state.goto worker pc) worker key (state.rows key) pc :=
  ⟨rfl, rfl, .inl rfl, fun _ _ => rfl, (Function.update_eq_self _ _).symm, rfl⟩

theorem changes_setRow : state.Changes ((state.setRow key val).goto worker pc) worker key val pc :=
  ⟨rfl, rfl, .inl rfl, fun _ _ => rfl, rfl, rfl⟩

theorem changes_appended (front : state.todo worker = item :: rest) {own : Own}
    {heap : Val → Heap} :
    state.Changes ({ state with own }.appended heap worker item rest val pc) worker item.op.key val
      pc := by
  refine ⟨rfl, rfl, .inr ⟨item, rest, front, rfl, rfl⟩, fun other differs => ?_, rfl, rfl⟩
  funext epoch serial
  exact if_neg fun both => differs both.2.2

theorem changes_returned (front : state.todo worker = item :: rest) {record : Option Record} :
    state.Changes (state.returned worker item rest record pc) worker item.op.key
      (state.rows item.op.key) pc :=
  ⟨rfl, rfl, .inr ⟨item, rest, front, rfl, rfl⟩, fun _ _ => rfl,
    (Function.update_eq_self _ _).symm, rfl⟩

theorem changes_done (front : state.todo worker = item :: rest) :
    state.Changes (((state.setRow item.op.key val).setTodo worker rest).goto worker pc) worker
      item.op.key val pc :=
  ⟨rfl, rfl, .inr ⟨item, rest, front, rfl, rfl⟩, fun _ _ => rfl, rfl, rfl⟩

namespace Changes

theorem scheduled (changes : state.Changes after worker key val pc)
    (scheduled : state.Scheduled assignment load) : after.Scheduled assignment load := by
  obtain same | ⟨item, rest, front, -, popped⟩ := changes.todo
  · exact scheduled.congr same changes.phase changes.epoch
  · exact scheduled.pop front popped changes.phase changes.epoch

theorem left (changes : state.Changes after worker key val pc)
    (scheduled : state.Scheduled assignment load) {other : Nat} (differs : other ≠ key) :
    after.Left other = state.Left other := by
  obtain same | ⟨item, rest, front, rfl, popped⟩ := changes.todo
  · funext serial
    rw [Left, Left, same]
  · exact scheduled.left_pop_other front popped differs

theorem todo_other (changes : state.Changes after worker key val pc) {other : Worker}
    (differs : other ≠ worker) : after.todo other = state.todo other := by
  obtain same | ⟨item, rest, front, -, popped⟩ := changes.todo
  · rw [same]
  · rw [popped, Function.update_of_ne differs]

/-- What the workers know about the rows they are at. -/
theorem pcs (changes : state.Changes after worker key val pc)
    (ok : Val → (Nat → Nat → Option Nat) → Item Operation → Pc → Prop)
    (before : ∀ worker item rest, state.todo worker = item :: rest → ok (state.rows item.op.key)
      (fun epoch serial => state.pending epoch serial item.op.key) item (state.pc worker))
    (mine : ∀ item rest, after.todo worker = item :: rest → ok (after.rows item.op.key)
      (fun epoch serial => after.pending epoch serial item.op.key) item pc)
    (others : ∀ item pc, item.op.key = key →
      ok (state.rows key) (fun epoch serial => state.pending epoch serial key) item pc →
      ok val (fun epoch serial => after.pending epoch serial key) item pc) :
    ∀ worker item rest, after.todo worker = item :: rest → ok (after.rows item.op.key)
      (fun epoch serial => after.pending epoch serial item.op.key) item (after.pc worker) := by
  intro other item rest front
  rw [changes.pc]
  by_cases same : other = worker
  · subst same
    rw [Function.update_self]
    exact mine item rest front
  · have old := before other item rest (changes.todo_other same ▸ front)
    rw [Function.update_of_ne same, changes.rows]
    by_cases sameKey : item.op.key = key
    · rw [sameKey] at old ⊢
      rw [Function.update_self]
      exact others item _ sameKey old
    · rwa [Function.update_of_ne sameKey, changes.pending _ sameKey]

end Changes

end Changes

end Schedules

end Workers

end TpccRunner.Utils
