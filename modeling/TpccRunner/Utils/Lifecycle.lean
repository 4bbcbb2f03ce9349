import TpccRunner.Lib.StepSystem
import TpccRunner.Utils.Workers

/-!
# From a pending version to a stable one

Serval and Caracal keep their versions in different arrays, but make and fill them in the
same way: an update of the initialization phase makes a pending version and remembers it in
`pending_`, and the same update of the execution phase fills it.  `Lifecycle` is what both
have in common, and `Moves` says what a step may do to it.  A version that is not filled
yet is remembered by an update that is still to be done.
-/

set_option autoImplicit false

namespace TpccRunner.Utils

open TpccRunner.Lib
open Worklist (Proper Remains Suffixes)

structure Lifecycle where
  epoch : Nat
  phase : Phase
  todo : Worker → List (Item Operation)
  /-- `Operation::pending_`, by epoch, serial id and key. -/
  pending : Nat → Nat → Nat → Option Nat
  heaps : Nat → Heap

def Workers.view {Val Pc Own : Type} (heap : Val → Heap) (state : Workers Val Pc Own) :
    Lifecycle where
  epoch := state.epoch
  phase := state.phase
  todo := state.todo
  pending := state.pending
  heaps key := heap (state.rows key)

namespace Lifecycle

def status (view : Lifecycle) (key pointer : Nat) : VersionStatus :=
  ((view.heaps key).versions pointer).status

def Known (load : Workload) (epoch : Nat) (item : Item Operation) : Prop :=
  item.turn.serial < 4096 ∧ item = itemOf item.turn.serial item.op ∧
    item.op ∈ load.rwSet epoch item.turn.serial

theorem Known.update {load : Workload} {epoch : Nat} {item : Item Operation}
    (known : Known load epoch item) (update : item.op.ope = .update) :
    item = itemOf item.turn.serial ⟨.update, item.op.key⟩ ∧
      item.turn.serial ∈ load.writers item.op.key epoch := by
  obtain ⟨bound, shape, member⟩ := known
  have op : item.op = ⟨.update, item.op.key⟩ := by rw [← update]
  rw [op] at shape member
  exact ⟨shape, bound, member⟩

structure Creates (view after : Lifecycle) (worker : Worker) (item : Item Operation)
    (rest : List (Item Operation)) : Prop where
  front : view.todo worker = item :: rest
  init : view.phase = .init
  update : item.op.ope = .update
  epoch : after.epoch = view.epoch
  phase : after.phase = view.phase
  todo : after.todo = Function.update view.todo worker rest
  pending : ∀ epoch serial key, after.pending epoch serial key =
    if epoch = view.epoch ∧ serial = item.turn.serial ∧ key = item.op.key then
      some (view.heaps item.op.key).next
    else view.pending epoch serial key
  next : ∀ key, (after.heaps key).next =
    if key = item.op.key then (view.heaps key).next + 1 else (view.heaps key).next
  status : ∀ key pointer, pointer < (view.heaps key).next →
    after.status key pointer = view.status key pointer

structure Finishes (view after : Lifecycle) (worker : Worker) (item : Item Operation)
    (rest : List (Item Operation)) : Prop where
  front : view.todo worker = item :: rest
  exec : view.phase = .exec
  epoch : after.epoch = view.epoch
  phase : after.phase = view.phase
  todo : after.todo = Function.update view.todo worker rest
  pending : after.pending = view.pending
  next : ∀ key, (after.heaps key).next = (view.heaps key).next
  status : ∀ key pointer, view.status key pointer = .stable → after.status key pointer = .stable
  filled : item.op.ope = .update → ∀ pointer,
    view.pending view.epoch item.turn.serial item.op.key = some pointer →
      after.status item.op.key pointer = .stable

inductive Moves (load : Workload) (view after : Lifecycle) : Prop
  | keeps (epoch : after.epoch = view.epoch) (phase : after.phase = view.phase)
      (todo : after.todo = view.todo) (pending : after.pending = view.pending)
      (next : ∀ key, (after.heaps key).next = (view.heaps key).next)
      (status : ∀ key pointer, after.status key pointer = view.status key pointer)
  | creates {worker : Worker} {item : Item Operation} {rest : List (Item Operation)}
      (move : Creates view after worker item rest)
  | finishes {worker : Worker} {item : Item Operation} {rest : List (Item Operation)}
      (move : Finishes view after worker item rest)
  | barrier (init : view.phase = .init) (epoch : after.epoch = view.epoch)
      (phase : after.phase = .exec)
      (todo : after.todo = load.operations roundRobinAssignment view.epoch)
      (pending : after.pending = view.pending) (heaps : after.heaps = view.heaps)
  | newEpoch (exec : view.phase = .exec) (done : ∀ worker, view.todo worker = [])
      (epoch : after.epoch = view.epoch + 1) (phase : after.phase = .init)
      (proper : ∃ owner, Proper owner after.todo)
      (known : ∀ worker, ∀ item ∈ after.todo worker, Known load after.epoch item)
      (pending : after.pending = view.pending) (heaps : after.heaps = view.heaps)

structure Ok (load : Workload) (view : Lifecycle) : Prop where
  proper : ∃ owner, Proper owner view.todo
  known : ∀ worker, ∀ item ∈ view.todo worker, Known load view.epoch item
  suffixes : view.phase = .exec →
    Suffixes view.todo (load.operations roundRobinAssignment view.epoch)
  later : ∀ epoch serial key, view.epoch < epoch → view.pending epoch serial key = none
  unmade : view.phase = .init → ∀ serial key, Remains view.todo (itemOf serial ⟨.update, key⟩) →
    view.pending view.epoch serial key = none
  made : ∀ serial key pointer, view.pending view.epoch serial key = some pointer →
    serial ∈ load.writers key view.epoch ∧ pointer < (view.heaps key).next
  filled : ∀ key pointer, pointer < (view.heaps key).next →
    view.status key pointer = .stable ∨ ∃ serial,
      view.pending view.epoch serial key = some pointer ∧
        (view.phase = .init ∨ Remains view.todo (itemOf serial ⟨.update, key⟩))

section Steps
variable {load : Workload} {view after : Lifecycle} {worker : Worker} {item : Item Operation}
  {rest : List (Item Operation)}

theorem Ok.remains_pop (ok : Ok load view) (front : view.todo worker = item :: rest)
    (todo : after.todo = Function.update view.todo worker rest) (other : Item Operation) :
    Remains after.todo other ↔ Remains view.todo other ∧ other ≠ item := by
  obtain ⟨owner, proper⟩ := ok.proper
  rw [todo]
  exact proper.remains_pop front

theorem Ok.pop_todo (ok : Ok load view) (front : view.todo worker = item :: rest)
    (epoch : after.epoch = view.epoch)
    (todo : after.todo = Function.update view.todo worker rest) :
    (∃ owner, Proper owner after.todo) ∧
      ∀ other, ∀ entry ∈ after.todo other, Known load after.epoch entry := by
  obtain ⟨owner, proper⟩ := ok.proper
  refine ⟨⟨owner, todo ▸ proper.pop front⟩, fun other entry member => ?_⟩
  obtain ⟨third, still⟩ := ((ok.remains_pop front todo entry).mp ⟨other, member⟩).1
  exact epoch ▸ ok.known third entry still

theorem Ok.create (ok : Ok load view) (move : Creates view after worker item rest) :
    Ok load after := by
  obtain ⟨front, init, update, epoch, phase, todo, pending, next, status⟩ := move
  obtain ⟨proper, known⟩ := ok.pop_todo front epoch todo
  have mine := ok.known worker item (by simp [front])
  obtain ⟨shape, writer⟩ := mine.update update
  have noneYet : view.pending view.epoch item.turn.serial item.op.key = none := by
    apply ok.unmade init
    rw [← shape]
    exact Worklist.remains_head front
  have nextLe (key : Nat) : (view.heaps key).next ≤ (after.heaps key).next := by
    rw [next]
    split <;> omega
  refine ⟨proper, known, fun exec => ?_, fun other serial key later => ?_,
    fun _ serial key remains => ?_, fun serial key pointer made => ?_,
    fun key pointer bound => ?_⟩
  · rw [phase, init] at exec
    cases exec
  · rw [epoch] at later
    rw [pending, if_neg fun same => later.ne' same.1]
    exact ok.later other serial key later
  · obtain ⟨still, differs⟩ := (ok.remains_pop front todo _).mp remains
    rw [epoch, pending, if_neg]
    · exact ok.unmade init serial key still
    · rintro ⟨-, rfl, rfl⟩
      exact differs shape.symm
  · rw [epoch, pending] at made
    rw [epoch]
    split at made
    next same =>
      obtain ⟨-, rfl, rfl⟩ := same
      cases made
      exact ⟨writer, by rw [next, if_pos rfl]; exact Nat.lt_succ_self _⟩
    next =>
      obtain ⟨isWriter, old⟩ := ok.made serial key pointer made
      exact ⟨isWriter, old.trans_le (nextLe key)⟩
  · by_cases old : pointer < (view.heaps key).next
    · rw [status key pointer old]
      refine (ok.filled key pointer old).imp_right ?_
      rintro ⟨serial, made, -⟩
      refine ⟨serial, ?_, .inl (phase.trans init)⟩
      rw [epoch, pending, if_neg]
      · exact made
      · rintro ⟨-, rfl, rfl⟩
        rw [noneYet] at made
        cases made
    · -- the new version
      rw [next] at bound
      split at bound
      next same =>
        refine .inr ⟨item.turn.serial, ?_, .inl (phase.trans init)⟩
        have : pointer = (view.heaps key).next := by omega
        rw [epoch, pending, if_pos ⟨rfl, rfl, same⟩, this, same]
      next => exact absurd bound old

theorem Ok.finish (ok : Ok load view) (move : Finishes view after worker item rest) :
    Ok load after := by
  obtain ⟨front, exec, epoch, phase, todo, pending, next, status, filled⟩ := move
  obtain ⟨proper, known⟩ := ok.pop_todo front epoch todo
  refine ⟨proper, known, fun _ => ?_, ?_, fun init => ?_, ?_, fun key pointer bound => ?_⟩
  · rw [todo, epoch]
    exact (ok.suffixes exec).pop front
  · rw [epoch, pending]
    exact ok.later
  · rw [phase, exec] at init
    cases init
  · rw [epoch, pending]
    intro serial key pointer made
    rw [next]
    exact ok.made serial key pointer made
  · rw [next] at bound
    rcases ok.filled key pointer bound with stable | ⟨serial, made, impossible | remains⟩
    · exact .inl (status key pointer stable)
    · rw [exec] at impossible
      cases impossible
    · by_cases same : itemOf serial ⟨.update, key⟩ = item
      · subst same
        exact .inl (filled rfl pointer made)
      · refine .inr ⟨serial, ?_, .inr ((ok.remains_pop front todo _).mpr ⟨remains, same⟩)⟩
        rw [epoch, pending]
        exact made

theorem Ok.step (ok : Ok load view) (moves : Moves load view after) : Ok load after := by
  cases moves with
  | keeps epoch phase todo pending next status =>
    refine ⟨todo ▸ ok.proper, ?_, ?_, ?_, ?_, ?_, ?_⟩
    · rw [todo, epoch]
      exact ok.known
    · rw [phase, todo, epoch]
      exact ok.suffixes
    · rw [epoch, pending]
      exact ok.later
    · rw [phase, todo, epoch, pending]
      exact ok.unmade
    · intro serial key pointer
      rw [epoch, pending, next]
      exact ok.made serial key pointer
    · intro key pointer
      rw [next, status, epoch, pending, phase, todo]
      exact ok.filled key pointer
  | creates move => exact ok.create move
  | finishes move => exact ok.finish move
  | barrier init epoch phase todo pending heaps =>
    refine ⟨⟨_, todo ▸ proper_operations roundRobin_assigns load view.epoch⟩,
      fun worker item member => ?_, fun _ => ?_, ?_, fun impossible => ?_, ?_,
      fun key pointer bound => ?_⟩
    · rw [todo] at member
      obtain ⟨bound, shape, -, listed⟩ := (mem_operations roundRobin_assigns).mp member
      exact ⟨bound, shape, epoch ▸ listed⟩
    · rw [todo, epoch]
      exact fun _ => List.suffix_rfl
    · rw [epoch, pending]
      exact ok.later
    · rw [phase] at impossible
      cases impossible
    · rw [epoch, pending, heaps]
      exact ok.made
    · rw [heaps] at bound
      rw [Lifecycle.status, heaps, epoch, pending, todo]
      refine (ok.filled key pointer bound).imp_right ?_
      rintro ⟨serial, made, -⟩
      exact ⟨serial, made, .inr (remains_operations roundRobin_assigns
        (ok.made serial key pointer made).1)⟩
  | newEpoch exec done epoch phase proper known pending heaps =>
    have nothing (serial key : Nat) : after.pending after.epoch serial key = none := by
      rw [pending, epoch]
      exact ok.later _ serial key (Nat.lt_succ_self _)
    refine ⟨proper, known, fun impossible => ?_, fun other serial key later => ?_,
      fun _ serial key _ => nothing serial key, fun serial key pointer made => ?_,
      fun key pointer bound => .inl ?_⟩
    · rw [phase] at impossible
      cases impossible
    · rw [pending]
      exact ok.later other serial key (by omega)
    · rw [nothing] at made
      cases made
    · rw [heaps] at bound
      rw [Lifecycle.status, heaps]
      rcases ok.filled key pointer bound with stable | ⟨serial, -, init | remains⟩
      · exact stable
      · rw [exec] at init
        cases init
      · exact absurd remains (Worklist.not_remains_of_empty done _)

theorem Ok.unfilled (ok : Ok load view) (exec : view.phase = .exec) {key pointer : Nat}
    (bound : pointer < (view.heaps key).next) (waiting : view.status key pointer ≠ .stable) :
    ∃ serial, view.pending view.epoch serial key = some pointer ∧
      Remains view.todo (itemOf serial ⟨.update, key⟩) := by
  rcases ok.filled key pointer bound with stable | ⟨serial, made, init | remains⟩
  · exact absurd stable waiting
  · rw [exec] at init
    cases init
  · exact ⟨serial, made, remains⟩

theorem Ok.all_stable (ok : Ok load view) (exec : view.phase = .exec)
    (done : ∀ worker, view.todo worker = []) {key pointer : Nat}
    (bound : pointer < (view.heaps key).next) : view.status key pointer = .stable := by
  by_contra waiting
  obtain ⟨serial, -, remains⟩ := ok.unfilled exec bound waiting
  exact Worklist.not_remains_of_empty done _ remains

theorem Ok.ordered (ok : Ok load view) (exec : view.phase = .exec) (worker : Worker) :
    (view.todo worker).Pairwise fun one two => one.turn.serial ≤ two.turn.serial :=
  (operations_ascending roundRobin_assigns load view.epoch worker).sublist
    (ok.suffixes exec worker).sublist

end Steps

end Lifecycle

/-! ## The steps of the workers -/

namespace Workers

section Moves
variable {Val Pc Own : Type} {heap : Val → Heap} {load : Workload}
  {state after : Workers Val Pc Own} {worker : Worker} {item : Item Operation}
  {rest : List (Item Operation)}

theorem moves_keeps {key : Nat} {val : Val} (epoch : after.epoch = state.epoch)
    (phase : after.phase = state.phase) (todo : after.todo = state.todo)
    (pending : after.pending = state.pending)
    (rows : after.rows = Function.update state.rows key val)
    (next : (heap val).next = (heap (state.rows key)).next)
    (status : ∀ pointer, ((heap val).versions pointer).status =
      ((heap (state.rows key)).versions pointer).status) :
    (state.view heap).Moves load (after.view heap) := by
  refine .keeps epoch phase todo pending (fun other => ?_) fun other pointer => ?_
  · exact (congrArg (fun rows => (heap (rows other)).next) rows).trans
      (update_congr (fun val => (heap val).next) next other)
  · exact (congrArg (fun rows => ((heap (rows other)).versions pointer).status) rows).trans
      (update_congr (fun val => ((heap val).versions pointer).status) (status pointer) other)

theorem moves_goto (pc : Pc) :
    (state.view heap).Moves load ((state.goto worker pc).view heap) :=
  .keeps rfl rfl rfl rfl (fun _ => rfl) fun _ _ => rfl

theorem appended_next {own : Own} {val : Val} {pc : Pc}
    (next : (heap val).next = (heap (state.rows item.op.key)).next + 1) (key : Nat) :
    (heap (({ state with own }.appended heap worker item rest val pc).rows key)).next =
      if key = item.op.key then (heap (state.rows key)).next + 1
      else (heap (state.rows key)).next := by
  refine (update_view fun val => (heap val).next).trans ?_
  split
  next same => rw [next, same]
  next => rfl

theorem moves_appended (init : state.phase = .init) (front : state.todo worker = item :: rest)
    (update : item.op.ope = .update) {own : Own} {val : Val} {pc : Pc}
    (next : (heap val).next = (heap (state.rows item.op.key)).next + 1)
    (versions : ∀ pointer < (heap (state.rows item.op.key)).next,
      (heap val).versions pointer = (heap (state.rows item.op.key)).versions pointer) :
    (state.view heap).Moves load
      (({ state with own }.appended heap worker item rest val pc).view heap) := by
  refine .creates ⟨front, init, update, rfl, rfl, rfl, fun _ _ _ => rfl, appended_next next,
    fun key pointer old => ?_⟩
  refine (update_view fun val => ((heap val).versions pointer).status).trans ?_
  split
  next same =>
    rw [versions pointer (same ▸ old), same]
    rfl
  next => rfl

theorem moves_returned (exec : state.phase = .exec) (front : state.todo worker = item :: rest)
    (read : item.op.ope = .read) (record : Option Record) (pc : Pc) :
    (state.view heap).Moves load ((state.returned worker item rest record pc).view heap) :=
  .finishes ⟨front, exec, rfl, rfl, rfl, rfl, fun _ => rfl, fun _ _ stable => stable,
    fun update => by rw [read] at update; cases update⟩

theorem moves_unmade (exec : state.phase = .exec) (front : state.todo worker = item :: rest)
    (unmade : state.pending state.epoch item.turn.serial item.op.key = none) :
    (state.view heap).Moves load ((state.setTodo worker rest).view heap) := by
  refine .finishes ⟨front, exec, rfl, rfl, rfl, rfl, fun _ => rfl, fun _ _ stable => stable,
    fun _ pointer made => ?_⟩
  cases unmade.symm.trans made

theorem moves_storeStable (exec : state.phase = .exec) (front : state.todo worker = item :: rest)
    {pointer : Nat} (mine : state.pending state.epoch item.turn.serial item.op.key = some pointer)
    {val : Val} (stored : heap val = (heap (state.rows item.op.key)).storeStable pointer)
    (pc : Pc) :
    (state.view heap).Moves load
      ((((state.setRow item.op.key val).setTodo worker rest).goto worker pc).view heap) := by
  have status (key other : Nat) :
      ((heap (Function.update state.rows item.op.key val key)).versions other).status =
        if key = item.op.key ∧ other = pointer then .stable
        else ((heap (state.rows key)).versions other).status := by
    rw [update_view heap]
    by_cases sameKey : key = item.op.key
    · rw [if_pos sameKey, sameKey, stored, Heap.storeStable_status]
      simp only [true_and]
    · rw [if_neg sameKey, if_neg fun both => sameKey both.1]
  refine .finishes ⟨front, exec, rfl, rfl, rfl, rfl,
    update_congr (fun val => (heap val).next) (by rw [stored]; rfl), fun key other stable => ?_,
    fun _ other same => ?_⟩
  · refine (status key other).trans ?_
    split
    · rfl
    · exact stable
  · refine (status item.op.key other).trans (if_pos ⟨rfl, ?_⟩)
    exact Option.some.inj (same.symm.trans mine)

theorem moves_newEpoch {assignment : Worker → List Turn} {owner : Nat → Worker}
    (assigns : Assigns assignment owner) (exec : state.phase = .exec)
    (done : ∀ worker, state.todo worker = []) :
    (state.view heap).Moves load (Workers.view heap { state with
      epoch := state.epoch + 1, phase := .init,
      todo := load.updates assignment (state.epoch + 1) }) := by
  refine .newEpoch exec done rfl rfl ⟨_, proper_updates assigns load (state.epoch + 1)⟩
    (fun worker item member => ?_) rfl rfl
  obtain ⟨bound, shape, -, listed, -⟩ := (mem_updates assigns).mp member
  exact ⟨bound, shape, listed⟩

theorem loaded_lifecycle (load : Workload) {rows : Nat → Val} {own : Own} {pc : Worker → Pc}
    (stable : ∀ key pointer, ((heap (rows key)).versions pointer).status = .stable) :
    (Workers.view heap { rows, own, pc }).Ok load where
  proper := ⟨fun _ => workerOf 0, fun _ _ impossible => (by cases impossible),
    fun _ => List.nodup_nil⟩
  known := fun _ _ impossible => by cases impossible
  suffixes := fun _ _ => List.nil_suffix
  later := fun _ _ _ _ => rfl
  unmade := fun impossible => by cases impossible
  made := fun _ _ _ impossible => by cases impossible
  filled := fun key pointer _ => .inl (stable key pointer)

end Moves

end Workers

end TpccRunner.Utils
