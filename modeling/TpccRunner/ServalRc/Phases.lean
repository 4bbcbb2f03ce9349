import TpccRunner.ServalRc.Placement

/-!
# The invariants of the two registration phases

`Registering` holds while writers register, `Placing` while readers ask for
what they will read.
-/

set_option autoImplicit false

namespace TpccRunner.ServalRc

open TpccRunner.Utils TpccRunner.Lib

structure Base (state : State) : Prop where
  start : state.startMaster < state.mem.next
  startKept : state.mem.versions state.startMaster = state.startVersion
  startStable : state.startVersion.status = .stable
  startOld : ∀ epoch serial, state.startVersion.record = some (.written epoch serial) →
    epoch < state.epoch

structure Registering (state : State) : Prop extends Base state where
  phase : state.phase = .write
  idle : ∀ worker, state.pc worker = .next
  todo : TodoOk blockOwner state.workload (· = .update) state.todo
  registered : Registered state.mem.row {writer ∈ state.writers | ¬ state.Left writer .update}
  unread : state.mem.row.refCnt = 0 ∧ state.mem.row.placeholders = []
  master : state.mem.row.master = state.startMaster
  fresh : state.identified = []

structure Placing (state : State) : Prop extends Base state where
  phase : state.phase = .read
  idle : ∀ worker, state.pc worker = .next
  todo : TodoOk blockOwner state.workload (· = .read) state.todo
  registered : Registered state.mem.row state.writers
  count : state.mem.row.refCnt = {reader ∈ state.readers | ¬ state.Left reader .read}.ncard
  placed : Placed state.writers state.startMaster state.mem.next state.pending
    state.mem.row.placeholders {reader ∈ state.readers | ¬ state.Left reader .read}
  blank : ∀ slot ∈ state.mem.row.placeholders, state.mem.versions slot.2 = {}
  master : state.mem.row.master = state.startMaster
  fresh : state.identified = []

section Sets
variable {state : State}

theorem readers_finite (state : State) : state.readers.Finite :=
  (Set.finite_Iio 4096).subset fun _ member => member.1

theorem writers_finite (state : State) : state.writers.Finite :=
  (Set.finite_Iio 4096).subset fun _ member => member.1

theorem done_insert {before after : Nat → Prop} {all : Set Nat} {serial : Nat}
    (member : serial ∈ all) (left : ∀ other, after other ↔ before other ∧ other ≠ serial) :
    {other ∈ all | ¬ after other} = insert serial {other ∈ all | ¬ before other} := by
  ext other
  simp only [Set.mem_ofPred_eq, Set.mem_insert_iff, left]
  by_cases same : other = serial
  · subst same
    simp [member]
  · simp [same]

end Sets

section Registration
variable {state : State} {worker : Worker} {item : Item Ope} {rest : List (Item Ope)}

theorem updateBitmap_frame (row : WriteBitmap) (core tx : Nat) :
    (row.updateBitmap core tx).refCnt = row.refCnt ∧
      (row.updateBitmap core tx).placeholders = row.placeholders ∧
      (row.updateBitmap core tx).master = row.master := by
  simp only [WriteBitmap.updateBitmap]
  split <;> exact ⟨rfl, rfl, rfl⟩

theorem Registering.register (inv : Registering state)
    (front : state.todo worker = item :: rest) :
    Registering (state.register worker item rest) := by
  obtain ⟨bound, shape, member, isUpdate, -⟩ := inv.todo.head front
  have update : item.op = .update := by simpa using isUpdate
  have writer : item.turn.serial ∈ state.writers := ⟨bound, by rwa [← update]⟩
  have core : item.turn.core = item.turn.serial / 64 := congrArg (·.turn.core) shape
  obtain ⟨refCnt, placeholders, master⟩ :=
    updateBitmap_frame state.mem.row item.turn.core (item.turn.serial % 64)
  have registered := updateBitmap_registered inv.registered
    (show item.turn.core < 64 by omega) (show item.turn.serial % 64 < 64 by omega)
  have left (other : Nat) : (state.setTodo worker rest).Left other .update ↔
      state.Left other .update ∧ other ≠ item.turn.serial := by
    simp [inv.todo.left_pop front, update]
  rw [inv.todo.serialId_head front, ← done_insert writer left] at registered
  rw [State.register, inv.phase]
  exact {
    start := inv.start
    startKept := inv.startKept
    startStable := inv.startStable
    startOld := inv.startOld
    phase := inv.phase
    idle := inv.idle
    todo := inv.todo.pop front
    registered := registered
    unread := ⟨refCnt.trans inv.unread.1, placeholders.trans inv.unread.2⟩
    master := master.trans inv.master
    fresh := inv.fresh }

theorem Registering.barrier (inv : Registering state) (quiet : state.Quiet) :
    Placing { state with phase := .read, todo := State.readPhase state.workload.ops } := by
  have none := Worklist.not_remains_of_empty fun worker => (quiet worker).1
  have all : {writer ∈ state.writers | ¬ state.Left writer .update} = state.writers := by
    ext writer
    simp only [Set.mem_ofPred_eq, and_iff_left_iff_imp]
    exact fun _ => none _
  have asked : {reader ∈ state.readers | ¬ Worklist.Remains
      (State.readPhase state.workload.ops) (itemOf reader .read)} = ∅ := by
    ext reader
    simp only [Set.mem_ofPred_eq, Set.mem_empty_iff_false, iff_false, not_and, not_not]
    rintro ⟨bound, member⟩
    exact readPhase_remains bound member
  exact {
    start := inv.start
    startKept := inv.startKept
    startStable := inv.startStable
    startOld := inv.startOld
    phase := rfl
    idle := inv.idle
    todo := readPhase_todoOk state.workload
    registered := by
      have := inv.registered
      rwa [all] at this
    count := by
      rw [inv.unread.1]
      exact (congrArg Set.ncard asked).trans (Set.ncard_empty _) |>.symm
    placed := by
      have := @placed_nil state.writers state.startMaster state.mem.next state.pending
      rw [← asked] at this
      rw [inv.unread.2]
      exact this
    blank := by simp [inv.unread.2]
    master := inv.master
    fresh := inv.fresh }

theorem Placing.of_append (inv : Placing state) (front : state.todo worker = item :: rest)
    {pointer : Nat} {mem : Memory}
    (result :
      state.mem.appendPendingVersion item.turn.core (item.turn.serial % 64) = (pointer, mem))
    (refCnt : mem.row.refCnt = state.mem.row.refCnt + 1)
    (cores : mem.row.coreBitmap = state.mem.row.coreBitmap)
    (txs : mem.row.txBitmaps = state.mem.row.txBitmaps)
    (master : mem.row.master = state.mem.row.master) (next : state.mem.next ≤ mem.next)
    (kept : ∀ old < state.mem.next, mem.versions old = state.mem.versions old)
    (blank : ∀ slot ∈ mem.row.placeholders, mem.versions slot.2 = {})
    (placed : Placed state.writers state.startMaster mem.next
      (Function.update state.pending item.turn.serial pointer) mem.row.placeholders
      (insert item.turn.serial {reader ∈ state.readers | ¬ state.Left reader .read})) :
    Placing (state.register worker item rest) := by
  obtain ⟨bound, shape, member, isRead, -⟩ := inv.todo.head front
  have read : item.op = .read := by simpa using isRead
  have reader : item.turn.serial ∈ state.readers := ⟨bound, by rwa [← read]⟩
  have left (other : Nat) : (state.setTodo worker rest).Left other .read ↔
      state.Left other .read ∧ other ≠ item.turn.serial := by
    simp [inv.todo.left_pop front, read]
  have waiting : state.Left item.turn.serial .read := by
    have := Worklist.remains_head front
    rwa [shape, read] at this
  have asked := done_insert reader left
  rw [State.register, inv.phase]
  simp only [result]
  exact {
    start := inv.start.trans_le next
    startKept := (kept _ inv.start).trans inv.startKept
    startStable := inv.startStable
    startOld := inv.startOld
    phase := inv.phase
    idle := inv.idle
    todo := inv.todo.pop front
    registered := inv.registered.congr cores txs
    count := by
      rw [refCnt, inv.count]
      refine Eq.trans ?_ (congrArg Set.ncard asked).symm
      rw [Set.ncard_insert_of_notMem (fun again => again.2 waiting)
        ((readers_finite state).subset fun _ member => member.1)]
    placed := by
      rw [← asked] at placed
      exact placed
    blank := blank
    master := master.trans inv.master
    fresh := inv.fresh }

theorem Placing.register (inv : Placing state) (front : state.todo worker = item :: rest) :
    Placing (state.register worker item rest) := by
  obtain ⟨bound, shape, member, isRead, -⟩ := inv.todo.head front
  have read : item.op = .read := by simpa using isRead
  have core : item.turn.core = item.turn.serial / 64 := congrArg (·.turn.core) shape
  have fresh : item.turn.serial ∉ {reader ∈ state.readers | ¬ state.Left reader .read} := by
    rintro ⟨-, done⟩
    apply done
    have := Worklist.remains_head front
    rwa [shape, read] at this
  have registered : Registered { state.mem with row := { state.mem.row with
      refCnt := state.mem.row.refCnt + 1 } : Memory }.row state.writers :=
    inv.registered.congr rfl rfl
  rcases doAppendPendingVersion_cases registered bound with
    ⟨none, result⟩ | ⟨writer, greatest, ⟨pointer, slot, result⟩ | ⟨absent, result⟩⟩
  · rw [← core] at result
    exact inv.of_append front result rfl rfl rfl rfl le_rfl (fun _ _ => rfl) inv.blank
      (inv.placed.keep fresh (.inr ⟨none, inv.master⟩))
  · rw [← core] at result
    exact inv.of_append front result rfl rfl rfl rfl le_rfl (fun _ _ => rfl) inv.blank
      (inv.placed.keep fresh (.inl ⟨_, slot, greatest, rfl⟩))
  · rw [← core] at result
    have old (pointer : Nat) (bounded : pointer < state.mem.next) :
        Function.update state.mem.versions state.mem.next {} pointer =
          state.mem.versions pointer := Function.update_of_ne bounded.ne _ _
    refine inv.of_append front result rfl rfl rfl rfl (Nat.le_succ _) old ?_
      (inv.placed.extend fresh greatest absent inv.start)
    intro slot slotMem
    rcases SortedVector.mem_insertUpper.mp slotMem with rfl | slotMem
    · exact Function.update_self ..
    · exact (old _ (inv.placed.bounded slot slotMem).1).trans (inv.blank slot slotMem)

end Registration

end TpccRunner.ServalRc
