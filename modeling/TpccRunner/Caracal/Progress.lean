import TpccRunner.Caracal.InitializationEnd
import TpccRunner.Serval.Progress

/-!
# Progress of Caracal, and of both protocols

The argument of Serval without the order of the version array, which an epoch of more than
32 bits would spoil: a slot whose version is pending carries the id of the update that
remembers the version, so a search below a reader's id finds no version of a greater
transaction that is still to be filled.
-/

set_option autoImplicit false

namespace TpccRunner.Caracal

open TpccRunner.Utils TpccRunner.Lib
open SortedVector (insertUpper)
open Worklist (Remains)

def State.Holds (state : State) (key : Nat) (slot : Nat × Nat) : Prop :=
  slot ∈ (state.rows key).globalArray ∨ ∃ core, slot ∈ state.slots key core

/-! ## Ids -/

theorem convertToGlobalId_packed {epoch serialId : Nat} (fits : serialId < 2 ^ 32) :
    convertToGlobalId epoch serialId = 2 ^ 32 * (epoch % 2 ^ 32) + serialId := by
  have shifted : (epoch <<< 32) % 2 ^ 64 = 2 ^ 32 * (epoch % 2 ^ 32) := by
    rw [Nat.shiftLeft_eq, Nat.mul_comm epoch]
    omega
  rw [convertToGlobalId, shifted, Nat.two_pow_add_eq_or_of_lt fits]

theorem serial_lt_of_globalId {epoch one two : Nat} (oneFits : one < 4096) (twoFits : two < 4096)
    (less : convertToGlobalId epoch one < convertToGlobalId epoch two) : one < two := by
  rw [convertToGlobalId_packed (by omega), convertToGlobalId_packed (by omega)] at less
  omega

section Arrays
variable {array buffer : Slots} {slot : Nat × Nat}

theorem mem_appendWithGc {version globalId epoch : Nat}
    (member : slot ∈ (GlobalVersionArray.appendWithGc array version globalId epoch).1) :
    slot = (globalId, version) ∨ slot ∈ array :=
  SortedVector.mem_insertUpper.mp ((minorGc_suffix _ _).subset member)

theorem mem_batchAppend {epoch : Nat}
    (member : slot ∈ (GlobalVersionArray.batchAppend array buffer epoch).1) :
    slot ∈ array ∨ slot ∈ buffer := by
  rw [GlobalVersionArray.batchAppend] at member
  generalize ([] : List Nat) = freed at member
  induction buffer generalizing array freed with
  | nil => exact .inl member
  | cons first rest ih =>
    rcases ih _ member with inArray | inRest
    · rcases mem_appendWithGc inArray with rfl | old
      · exact .inr List.mem_cons_self
      · exact .inl old
    · exact .inr (List.mem_cons_of_mem _ inRest)

end Arrays

/-! ## The steps -/

def Picked (view : Lifecycle) (item : Item Operation) : Pc → Prop
  | .start => True
  | .awaitStable pointer => item.op.ope = .read ∧ pointer < (view.heaps item.op.key).next ∧
      ∀ serial, view.pending view.epoch serial item.op.key = some pointer →
        serial < item.turn.serial
  | .loadRecord _ => item.op.ope = .read
  | .storeStable pointer =>
    view.pending view.epoch item.turn.serial item.op.key = some pointer
  | _ => False

structure Searches (load : Workload) (state : State) : Prop where
  lifecycle : (state.view Value.heap).Ok load
  updates : state.phase = .init → ∀ worker, ∀ item ∈ state.todo worker, item.op.ope = .update
  slots : ∀ key slot, state.Holds key slot → slot.2 < (state.rows key).heap.next ∧
    ∀ serial, state.pending state.epoch serial key = some slot.2 →
      slot.1 = convertToGlobalId state.epoch serial
  idle : state.phase = .exec → ∀ worker, state.todo worker = [] → state.pc worker = .start
  picked : state.phase = .exec → ∀ worker item rest, state.todo worker = item :: rest →
    Picked (state.view Value.heap) item (state.pc worker)

section Steps
variable {load : Workload} {state after : State} {worker : Worker} {item : Item Operation}
  {rest : List (Item Operation)} {maxSlots : Nat}

theorem Searches.keep (inv : Searches load state) (init : state.phase = .init)
    (epoch : after.epoch = state.epoch) (phase : after.phase = state.phase)
    (todo : after.todo = state.todo) (pending : after.pending = state.pending)
    (next : ∀ key, (after.rows key).heap.next = (state.rows key).heap.next)
    (status : ∀ key pointer, (after.view Value.heap).status key pointer =
      (state.view Value.heap).status key pointer)
    (holds : ∀ key slot, after.Holds key slot → state.Holds key slot) : Searches load after := by
  have exec (impossible : after.phase = .exec) : False := by
    rw [phase, init] at impossible
    cases impossible
  refine ⟨inv.lifecycle.step (.keeps epoch phase todo pending next status), ?_,
    fun key slot member => ?_, fun impossible => (exec impossible).elim,
    fun impossible => (exec impossible).elim⟩
  · rw [phase, todo]
    exact inv.updates
  · rw [next, epoch, pending]
    exact inv.slots key slot (holds key slot member)

theorem Searches.idleStep (inv : Searches load state) (init : state.phase = .init)
    (epoch : after.epoch = state.epoch) (phase : after.phase = state.phase)
    (todo : after.todo = state.todo) (pending : after.pending = state.pending)
    (heap : ∀ key, (after.rows key).heap = (state.rows key).heap)
    (array : ∀ key, (after.rows key).globalArray = (state.rows key).globalArray)
    (slots : ∀ key, after.slots key = state.slots key) : Searches load after := by
  refine inv.keep init epoch phase todo pending (fun key => by rw [heap])
    (fun key pointer => ?_) fun key slot => ?_
  · exact congrArg (fun heap => (Heap.versions heap pointer).status) (heap key)
  · rw [State.Holds, State.Holds, array, slots]
    exact id

theorem Searches.goto (inv : Searches load state) (init : state.phase = .init) (pc : Pc) :
    Searches load (state.goto worker pc) :=
  inv.idleStep init rfl rfl rfl rfl (fun _ => rfl) (fun _ => rfl)
    (slots_of_untouched (untouched_goto ..))

theorem Searches.setLocked (inv : Searches load state) (init : state.phase = .init) (key : Nat)
    (locked : Bool) (pc : Pc) : Searches load ((state.setLocked key locked).goto worker pc) :=
  inv.idleStep init rfl rfl rfl rfl (update_congr Value.heap rfl)
    (update_congr Value.globalArray rfl)
    (slots_of_untouched (untouched_setRow (by rfl) worker pc))

theorem Searches.append (inv : Searches load state) (init : state.phase = .init)
    (front : state.todo worker = item :: rest) {own : RowBuffers} {val : Value}
    {pc : Pc} (next : val.heap.next = (state.rows item.op.key).heap.next + 1)
    (versions : ∀ pointer < (state.rows item.op.key).heap.next,
      val.heap.versions pointer = (state.rows item.op.key).heap.versions pointer)
    (holds : ∀ key slot,
      State.Holds ({ state with own }.appended Value.heap worker item rest val pc) key slot →
        state.Holds key slot ∨ key = item.op.key ∧
          slot = (convertToGlobalId state.epoch item.turn.serial,
            (state.rows item.op.key).heap.next)) :
    Searches load ({ state with own }.appended Value.heap worker item rest val pc) := by
  have moves : (state.view Value.heap).Moves load
      (({ state with own }.appended Value.heap worker item rest val pc).view Value.heap) :=
    Workers.moves_appended init front (inv.updates init worker item (by simp [front])) next versions
  have exec (impossible : state.phase = .exec) : False := by
    rw [init] at impossible
    cases impossible
  refine ⟨inv.lifecycle.step moves, fun _ other entry member => ?_, fun key slot member => ?_,
    fun impossible => (exec impossible).elim, fun impossible => (exec impossible).elim⟩
  · obtain ⟨third, still⟩ :=
      ((@Lifecycle.Ok.remains_pop _ _ (({ state with own }.appended Value.heap worker item rest val
        pc).view Value.heap) _ _ _ inv.lifecycle front rfl entry).mp ⟨other, member⟩).1
    exact inv.updates init third entry still
  · rw [Workers.appended_next next]
    rcases holds key slot member with old | ⟨rfl, rfl⟩
    · obtain ⟨bound, id⟩ := inv.slots key slot old
      refine ⟨by split <;> omega, fun serial made => id serial ?_⟩
      rcases ite_eq_iff.mp made with ⟨⟨-, -, rfl⟩, same⟩ | ⟨-, made⟩
      · exact absurd (Option.some.inj same) bound.ne'
      · exact made
    · refine ⟨by rw [if_pos rfl]; exact Nat.lt_succ_self _, fun serial made => ?_⟩
      rcases ite_eq_iff.mp made with ⟨⟨-, rfl, -⟩, -⟩ | ⟨-, made⟩
      · rfl
      · exact absurd (inv.lifecycle.made serial item.op.key _ made).2 (lt_irrefl _)

theorem BuffersOk.mem_setBuffer (ok : BuffersOk state) {key buffer other : Nat} {core : Worker}
    {slots : Slots} {slot : Nat × Nat} (at' : state.rowBuffer key = some buffer)
    (member : slot ∈ (state.setBuffer buffer worker slots).slots other core) :
    slot ∈ state.slots other core ∨ other = key ∧ slot ∈ slots := by
  by_cases same : other = key
  · subst same
    rw [slots_setBuffer at'] at member
    by_cases mine : core = worker
    · rw [mine, Function.update_self] at member
      exact .inr ⟨rfl, member⟩
    · rw [Function.update_of_ne mine] at member
      exact .inl member
  · rw [slots_setBuffer_of_ne fun there => same (ok.unique _ _ buffer there at')] at member
    exact .inl member

theorem Searches.appendUncontended (inv : Searches load state) (init : state.phase = .init)
    (front : state.todo worker = item :: rest) (pc : Pc) :
    Searches load (state.appended Value.heap worker item rest
      ((state.rows item.op.key).appendToUncontendedRow state.epoch item.turn.serial) pc) := by
  refine inv.append init front rfl
    (fun pointer old => Heap.createPendingVersion_of_lt _ old) fun key slot member => ?_
  rcases member with inArray | inBuffer
  · rw [show ((state.appended Value.heap worker item rest _ pc).rows key).globalArray = _ from
      update_view Value.globalArray] at inArray
    split at inArray
    next same =>
      rcases mem_appendWithGc inArray with rfl | old
      · exact .inr ⟨same, rfl⟩
      · exact .inl (.inl (same ▸ old))
    next => exact .inl (.inl inArray)
  · rw [slots_of_untouched (untouched_appended (by rfl) worker rest pc)] at inBuffer
    exact .inl (.inr inBuffer)

theorem Searches.appendContended (inv : Searches load state) (buffersOk : BuffersOk state)
    (init : state.phase = .init) (front : state.todo worker = item :: rest) {buffer : Nat}
    (pc : state.pc worker = .contended buffer) :
    Searches load (state.appendContended maxSlots worker item rest buffer) := by
  have at' := buffersOk.contended worker item rest buffer front pc
  have pushed (pc : Pc) : Searches load ((state.setBuffer buffer worker
      (insertUpper (convertToGlobalId state.epoch item.turn.serial,
        (state.rows item.op.key).heap.next) (state.own.buffers buffer worker))).appended Value.heap
      worker item rest (state.rows item.op.key).createPendingVersion pc) := by
    refine inv.append init front rfl
      (fun pointer old => Heap.createPendingVersion_of_lt _ old) fun key slot member => ?_
    rcases member with inArray | ⟨core, inBuffer⟩
    · replace inArray : slot ∈ (Function.update state.rows item.op.key
          (state.rows item.op.key).createPendingVersion key).globalArray := inArray
      rw [update_congr Value.globalArray (by rfl)] at inArray
      exact .inl (.inl inArray)
    · rw [slots_of_untouched (untouched_appended (by rfl) worker rest pc)] at inBuffer
      rcases buffersOk.mem_setBuffer at' inBuffer with old | ⟨same, new⟩
      · exact .inl (.inr ⟨core, old⟩)
      · rcases SortedVector.mem_insertUpper.mp new with new | old
        · exact .inr ⟨same, new⟩
        · refine .inl (.inr ⟨worker, ?_⟩)
          rw [same, State.slots, at']
          exact old
  simp only [State.appendContended]
  split
  · exact (pushed .start).idleStep init rfl rfl rfl rfl (fun _ => rfl) (fun _ => rfl) fun _ => rfl
  · exact pushed (.batchLock item.op.key buffer)

theorem Searches.initializes {pc : Pc} (inv : Searches load state) (buffersOk : BuffersOk state)
    (init : state.phase = .init) (front : state.todo worker = item :: rest)
    (at' : state.pc worker = pc) (move : Initializes maxSlots state worker item rest pc after) :
    Searches load after := by
  cases move with
  | contended | uncontended | lockTaken | beaten => exact inv.goto init _
  | locks => exact inv.setLocked init ..
  | appends => exact inv.appendUncontended init front _
  | takesSpare | fetches | keepsSpare =>
    exact inv.idleStep init rfl rfl rfl rfl (fun _ => rfl) (fun _ => rfl) fun _ => rfl
  | installs free =>
    exact inv.idleStep init rfl rfl rfl rfl (update_congr Value.heap rfl)
      (update_congr Value.globalArray rfl)
      (buffersOk.slots_install (by rw [State.hand, at']; rfl) free _)
  | appendsContended => exact inv.appendContended buffersOk init front at'

theorem Searches.flush (inv : Searches load state) (buffersOk : BuffersOk state)
    (init : state.phase = .init) {key buffer : Nat} {pc : Pc}
    (target : (state.pc worker).target = some (key, buffer)) :
    Searches load ((state.flush worker key buffer).goto worker pc) := by
  have at' := (buffersOk.workers worker).targets key buffer target
  refine inv.keep init rfl rfl rfl rfl (update_congr (fun val : Value => val.heap.next) rfl)
    (fun other pointer =>
      update_congr (fun val : Value => (val.heap.versions pointer).status) (by rfl) other)
    fun other slot member => ?_
  rcases member with inArray | ⟨core, inBuffer⟩
  · rw [show (((state.flush worker key buffer).goto worker pc).rows other).globalArray = _ from
      update_view Value.globalArray] at inArray
    split at inArray
    next same =>
      subst same
      refine (mem_batchAppend inArray).imp_right fun flushed => ⟨worker, ?_⟩
      rw [State.slots, at']
      exact flushed
    next => exact .inl inArray
  · rw [slots_flush] at inBuffer
    rcases buffersOk.mem_setBuffer at' inBuffer with old | ⟨-, impossible⟩
    · exact .inr ⟨core, old⟩
    · cases impossible

/-! ## The execution phase -/

structure SameArrays (worker : Worker) (state after : State) : Prop where
  epoch : after.epoch = state.epoch
  phase : after.phase = state.phase
  pending : after.pending = state.pending
  next : ∀ key, (after.rows key).heap.next = (state.rows key).heap.next
  holds : ∀ key slot, after.Holds key slot → state.Holds key slot
  todo : ∀ other, other ≠ worker → after.todo other = state.todo other
  pc : ∀ other, other ≠ worker → after.pc other = state.pc other

theorem Picked.same (same : SameArrays worker state after) {pc : Pc}
    (picked : Picked (state.view Value.heap) item pc) : Picked (after.view Value.heap) item pc := by
  have pending (serial key : Nat) : after.pending after.epoch serial key =
      state.pending state.epoch serial key := by rw [same.pending, same.epoch]
  cases pc with
  | awaitStable pointer =>
    obtain ⟨read, bound, below⟩ := picked
    refine ⟨read, ?_, fun serial made => below serial ?_⟩
    · show pointer < (after.rows item.op.key).heap.next
      rwa [same.next]
    · exact (pending serial item.op.key).symm.trans made
  | storeStable pointer => exact (pending item.turn.serial item.op.key).trans picked
  | _ => exact picked

theorem Searches.execute (inv : Searches load state) (exec : state.phase = .exec)
    (same : SameArrays worker state after)
    (moves : (state.view Value.heap).Moves load (after.view Value.heap))
    (idle : after.todo worker = [] → after.pc worker = .start)
    (mine : ∀ item rest, after.todo worker = item :: rest →
      Picked (state.view Value.heap) item (after.pc worker)) : Searches load after := by
  refine ⟨inv.lifecycle.step moves, fun impossible => ?_, fun key slot member => ?_,
    fun _ other nothing => ?_, fun _ other item rest front => ?_⟩
  · rw [same.phase, exec] at impossible
    cases impossible
  · rw [same.next, same.epoch, same.pending]
    exact inv.slots key slot (same.holds key slot member)
  · by_cases isMine : other = worker
    · subst isMine
      exact idle nothing
    · rw [same.todo other isMine] at nothing
      rw [same.pc other isMine]
      exact inv.idle exec other nothing
  · refine Picked.same same ?_
    by_cases isMine : other = worker
    · subst isMine
      exact mine item rest front
    · rw [same.todo other isMine] at front
      rw [same.pc other isMine]
      exact inv.picked exec other item rest front

theorem sameArrays_goto (state : State) (worker : Worker) (pc : Pc) :
    SameArrays worker state (state.goto worker pc) :=
  ⟨rfl, rfl, rfl, fun _ => rfl, fun _ _ => id, fun _ _ => rfl,
    fun _ differs => Function.update_of_ne differs ..⟩

theorem holds_setRow {key other : Nat} {val : Value} {slot : Nat × Nat}
    (array : val.globalArray = (state.rows key).globalArray)
    (rowBuffer : val.rowBuffer = (state.rows key).rowBuffer)
    (member : State.Holds (state.setRow key val) other slot) : state.Holds other slot := by
  rcases member with inArray | ⟨core, inBuffer⟩
  · exact .inl (update_congr Value.globalArray array other ▸ inArray)
  · rw [State.slots, rowBuffer_setRow rowBuffer] at inBuffer
    exact .inr ⟨core, inBuffer⟩

theorem sameArrays_setRow {key : Nat} {val : Value}
    (array : val.globalArray = (state.rows key).globalArray)
    (rowBuffer : val.rowBuffer = (state.rows key).rowBuffer)
    (next : val.heap.next = (state.rows key).heap.next) (worker : Worker) (pc : Pc) :
    SameArrays worker state ((state.setRow key val).goto worker pc) :=
  ⟨rfl, rfl, rfl, update_congr (fun val : Value => val.heap.next) next,
    fun _ _ => holds_setRow array rowBuffer, fun _ _ => rfl,
    fun _ differs => Function.update_of_ne differs ..⟩

theorem SameArrays.setTodo (same : SameArrays worker state after)
    (rest : List (Item Operation)) : SameArrays worker state (after.setTodo worker rest) :=
  ⟨same.epoch, same.phase, same.pending, same.next, same.holds,
    fun other differs => (Function.update_of_ne differs ..).trans (same.todo other differs),
    same.pc⟩

theorem Searches.goto_picked (inv : Searches load state) (exec : state.phase = .exec)
    (front : state.todo worker = item :: rest) {pc : Pc}
    (picked : Picked (state.view Value.heap) item pc) :
    Searches load (state.goto worker pc) := by
  refine inv.execute exec (sameArrays_goto ..) (Workers.moves_goto pc) (fun nothing => ?_)
    fun other otherRest same => ?_
  · cases front.symm.trans nothing
  · obtain ⟨rfl, -⟩ := List.cons.inj (front.symm.trans same)
    rw [goto_pc]
    exact picked

theorem Searches.returned (inv : Searches load state) (exec : state.phase = .exec)
    (front : state.todo worker = item :: rest) (read : item.op.ope = .read)
    (record : Option Record) : Searches load (state.returned worker item rest record .start) := by
  have atStart : (state.returned worker item rest record .start).pc worker = .start :=
    Function.update_self ..
  have same : SameArrays worker state (state.returned worker item rest record .start) := by
    have moved := (sameArrays_goto state worker .start).setTodo rest
    exact ⟨rfl, rfl, rfl, fun _ => rfl, fun _ _ => id, moved.todo, moved.pc⟩
  refine inv.execute exec same (Workers.moves_returned exec front read record .start)
    (fun _ => atStart) fun _ _ _ => ?_
  rw [atStart]
  trivial

theorem Searches.search (inv : Searches load state)
    (front : state.todo worker = item :: rest) (read : item.op.ope = .read) {slot : Nat × Nat}
    (found : GlobalVersionArray.searchVisibleVersion (state.rows item.op.key).globalArray
      state.epoch item.turn.serial = some slot) :
    Picked (state.view Value.heap) item (.awaitStable slot.2) := by
  obtain ⟨member, below⟩ := SortedVector.lastBelow_mem found
  obtain ⟨bound, id⟩ := inv.slots item.op.key slot (.inl member)
  refine ⟨read, bound, fun serial made => ?_⟩
  rw [id serial made] at below
  obtain ⟨readerBound, -, -⟩ := inv.lifecycle.known worker item
    (show item ∈ state.todo worker by simp [front])
  exact serial_lt_of_globalId (inv.lifecycle.made serial item.op.key slot.2 made).1.1 readerBound
    below

theorem Searches.storeRecord (inv : Searches load state) (exec : state.phase = .exec)
    (front : state.todo worker = item :: rest) {pointer : Nat} (record : Record)
    (made : state.pending state.epoch item.turn.serial item.op.key = some pointer) :
    Searches load ((state.setRow item.op.key
      ((state.rows item.op.key).storeRecord pointer record)).goto worker
        (.storeStable pointer)) := by
  refine inv.execute exec (sameArrays_setRow (by rfl) (by rfl) (by rfl) ..)
    (Workers.moves_keeps rfl rfl rfl rfl rfl rfl (Heap.storeRecord_status _ pointer _))
    (fun nothing => ?_) fun other otherRest same => ?_
  · cases front.symm.trans nothing
  · obtain ⟨rfl, -⟩ := List.cons.inj (front.symm.trans same)
    rw [goto_pc]
    exact made

theorem Searches.storeStable (inv : Searches load state) (exec : state.phase = .exec)
    (front : state.todo worker = item :: rest) {pointer : Nat}
    (made : state.pending state.epoch item.turn.serial item.op.key = some pointer) :
    Searches load (((state.setRow item.op.key
      ((state.rows item.op.key).storeStable pointer)).setTodo worker rest).goto worker .start) := by
  have same : SameArrays worker state (((state.setRow item.op.key
      ((state.rows item.op.key).storeStable pointer)).setTodo worker rest).goto worker
        .start) := by
    have moved := (@sameArrays_setRow state item.op.key
      ((state.rows item.op.key).storeStable pointer) rfl rfl rfl worker .start).setTodo rest
    exact ⟨rfl, rfl, rfl, moved.next, fun _ _ => holds_setRow rfl rfl, moved.todo, moved.pc⟩
  refine inv.execute exec same (Workers.moves_storeStable exec front made rfl .start)
    (fun _ => goto_pc ..) fun _ _ _ => ?_
  rw [goto_pc]
  trivial

theorem Searches.executes {pc : Pc} (inv : Searches load state) (exec : state.phase = .exec)
    (front : state.todo worker = item :: rest) (at' : state.pc worker = pc)
    (move : Executes state worker item rest pc after) : Searches load after := by
  have mine := inv.picked exec worker item rest front
  rw [at'] at mine
  cases move with
  | finds read found => exact inv.goto_picked exec front (inv.search front read found)
  | misses read => exact inv.returned exec front read none
  | fills _ made => exact inv.storeRecord exec front _ made
  | unmade _ none =>
    have same : SameArrays worker state (state.setTodo worker rest) :=
      ⟨rfl, rfl, rfl, fun _ => rfl, fun _ _ => id,
        fun _ differs => Function.update_of_ne differs .., fun _ _ => rfl⟩
    refine inv.execute exec same (Workers.moves_unmade exec front none) (fun _ => at')
      fun _ _ _ => ?_
    rw [show (state.setTodo worker rest).pc worker = .start from at']
    trivial
  | awaits => exact inv.goto_picked exec front mine.1
  | loads => exact inv.returned exec front mine _
  | stores => exact inv.storeStable exec front mine

theorem Searches.flushes {pc : Pc} (inv : Searches load state) (buffersOk : BuffersOk state)
    (at' : state.pc worker = pc) (move : Flushes state worker pc after) :
    Searches load after := by
  -- a worker that holds a lock or a batch is in the initialization phase
  have init : state.phase = .init := by
    cases phase : state.phase with
    | init => rfl
    | exec =>
      cases front : state.todo worker with
      | nil =>
        have atStart := at'.symm.trans (inv.idle phase worker front)
        cases move <;> cases atStart
      | cons item rest =>
        have picked := inv.picked phase worker item rest front
        rw [at'] at picked
        cases move <;> exact picked.elim
  cases move with
  | unlock | batchUnlock | batchLock => exact inv.setLocked init ..
  | batchAppend | finalAppend => exact inv.flush buffersOk init (by rw [at']; rfl)
  | @finalUnlock key =>
    have moved : Searches load ((state.setLocked key false).goto worker .start) :=
      inv.setLocked init ..
    exact moved.idleStep init rfl rfl rfl rfl (fun _ => rfl) (fun _ => rfl) fun _ => rfl

theorem step_searches {label : Label} (inv : Searches load state) (buffersOk : BuffersOk state)
    (step : state.step maxSlots load label = some after) : Searches load after := by
  cases transition_of_step step with
  | initializes init front at' move => exact inv.initializes buffersOk init front at' move
  | executes exec front at' move => exact inv.executes exec front at' move
  | flushes at' move => exact inv.flushes buffersOk at' move
  | finalizes init => exact inv.setLocked init ..
  | skips => exact inv
  | barrier phase quiet =>
    refine ⟨inv.lifecycle.step (.barrier phase rfl rfl rfl rfl rfl), fun impossible => ?_,
      inv.slots, fun _ worker _ => (quiet worker).2.1, fun _ worker _ _ _ => ?_⟩
    · cases impossible
    · rw [(quiet worker).2.1]
      trivial
  | newEpoch phase quiet =>
    refine ⟨inv.lifecycle.step (Workers.moves_newEpoch roundRobin_assigns phase fun worker =>
        (quiet worker).1), fun _ worker item member => ?_,
      fun key slot member => ⟨(inv.slots key slot member).1, fun serial made => ?_⟩,
      fun impossible => ?_, fun impossible => ?_⟩
    · exact ((mem_updates roundRobin_assigns).mp member).2.2.2.2
    · have none := inv.lifecycle.later (state.epoch + 1) serial key (Nat.lt_succ_self _)
      cases none.symm.trans made
    · cases impossible
    · cases impossible

theorem loaded_searches (load : Workload) : Searches load State.loaded where
  lifecycle := Workers.loaded_lifecycle load fun _ _ => rfl
  updates := fun impossible => by cases impossible
  slots := by
    intro key slot member
    rcases member with inArray | ⟨core, inBuffer⟩
    · rcases mem_appendWithGc inArray with rfl | impossible
      · exact ⟨Nat.zero_lt_one, fun _ impossible => by cases impossible⟩
      · cases impossible
    · cases inBuffer
  idle := fun _ _ _ => rfl
  picked := fun _ _ _ _ impossible => by cases impossible

theorem run_searches {trace : List Label}
    (run : Run (State.step maxSlots load) always State.loaded trace state) :
    Searches load state :=
  (run.invariant (fun state => Searches load state ∧ BuffersOk state)
    ⟨loaded_searches load, loaded_buffersOk⟩ fun _ _ _ both _ taken =>
      ⟨step_searches both.1 both.2 taken, step_buffersOk both.2 taken⟩).1

theorem Searches.waits (inv : Searches load state) (exec : state.phase = .exec)
    (front : state.todo worker = item :: rest)
    (blocked : state.workerStep maxSlots worker = none) :
    ∃ earlier, Remains state.todo earlier ∧ earlier.turn.serial < item.turn.serial := by
  have mine := inv.picked exec worker item rest front
  cases pc : state.pc worker with
  | awaitStable pointer =>
    rw [pc] at mine
    obtain ⟨-, bound, below⟩ := mine
    have waiting : (state.view Value.heap).status item.op.key pointer ≠ .stable := by
      intro stable
      simp only [State.workerStep, pc, front, exec, State.execStep] at blocked
      rw [if_pos (by exact stable)] at blocked
      cases blocked
    obtain ⟨serial, made, remains⟩ := inv.lifecycle.unfilled exec bound waiting
    exact ⟨_, remains, below serial made⟩
  | start =>
    simp only [State.workerStep, pc, front, exec, State.execStep] at blocked
    split at blocked <;> split at blocked <;> cases blocked
  | loadRecord pointer | storeStable pointer =>
    simp only [State.workerStep, pc, front, exec, State.execStep] at blocked
    cases blocked
  | _ =>
    rw [pc] at mine
    exact mine.elim

end Steps

/-- Some worker that has something to do can go on, and no version is pending once
everything is done. -/
def State.Progresses (maxSlots : Nat) (load : Workload) (state : State) : Prop :=
  ((∃ worker, state.todo worker ≠ []) →
    ∃ worker after, state.todo worker ≠ [] ∧
      state.step maxSlots load (.worker worker) = some after) ∧
  (state.Quiet → ∀ key, ∀ pointer < (state.rows key).heap.next,
    ((state.rows key).heap.versions pointer).status = .stable)

theorem run_progresses {load : Workload} {state : State} {maxSlots : Nat} {trace : List Label}
    (run : Run (State.step maxSlots load) always State.loaded trace state)
    (exec : state.phase = .exec) : state.Progresses maxSlots load := by
  have inv := run_searches run
  refine ⟨fun ⟨worker, unfinished⟩ => ?_, fun quiet key pointer bound =>
    inv.lifecycle.all_stable exec (fun worker => (quiet worker).1) bound⟩
  obtain ⟨item, member⟩ := List.exists_mem_of_ne_nil _ unfinished
  have waits (worker : Worker) (item : Item Operation) (rest : List (Item Operation))
      (front : state.todo worker = item :: rest) :
      (∃ after, state.workerStep maxSlots worker = some after) ∨
        ∃ earlier, Remains state.todo earlier ∧ earlier.turn.serial < item.turn.serial := by
    cases moves : state.workerStep maxSlots worker with
    | some after => exact .inl ⟨after, rfl⟩
    | none => exact .inr (inv.waits exec front moves)
  obtain ⟨mover, left, after, taken⟩ :=
    Worklist.exists_enabled (inv.lifecycle.ordered exec) waits ⟨worker, member⟩
  exact ⟨mover, after, left, taken⟩

/-- In every execution phase of Serval and of Caracal some worker can go on as long as
anything is unfinished, and every version is stable when the phase ends. -/
theorem execution_progresses (load : Workload) :
    (∀ trace state, Run (Serval.State.step load) always Serval.State.loaded trace state →
      state.phase = .exec → state.Progresses load) ∧
    (∀ maxSlots trace state, Run (State.step maxSlots load) always State.loaded trace state →
      state.phase = .exec → state.Progresses maxSlots load) :=
  ⟨fun _ _ run exec => Serval.run_progresses run exec,
    fun _ _ _ run exec => run_progresses run exec⟩

/-- Transaction 1 waits for the version that transaction 0 has still to fill. -/
theorem writeThenRead_progresses :
    (∃ trace state, Run (Serval.State.step Serval.writeThenRead) always Serval.State.loaded trace
        state ∧ state.workerStep 1 = none ∧ state.Progresses Serval.writeThenRead) ∧
    ∃ trace state, Run (State.step 4 Serval.writeThenRead) always State.loaded trace state ∧
      state.workerStep 4 1 = none ∧ state.Progresses 4 Serval.writeThenRead := by
  have serval : (exec (Serval.State.step Serval.writeThenRead) Serval.State.loaded
      ([.newEpoch] ++ List.replicate 7 (.worker 0) ++ [.barrier, .worker 1])).map (fun state =>
        (decide (state.phase = .exec), (state.workerStep 1).isNone)) = some (true, true) := by
    decide +kernel
  have caracal : (exec (State.step 4 Serval.writeThenRead) State.loaded
      ([.newEpoch] ++ List.replicate 4 (.worker 0) ++ [.barrier, .worker 1])).map (fun state =>
        (decide (state.phase = .exec), (state.workerStep 4 1).isNone)) = some (true, true) := by
    decide +kernel
  obtain ⟨one, oneSuccess, oneSummary⟩ := Option.map_eq_some_iff.mp serval
  obtain ⟨two, twoSuccess, twoSummary⟩ := Option.map_eq_some_iff.mp caracal
  simp only [Prod.mk.injEq, decide_eq_true_eq, Option.isNone_iff_eq_none] at oneSummary twoSummary
  have oneRun := Run.of_exec oneSuccess
  have twoRun := Run.of_exec twoSuccess
  exact ⟨⟨_, one, oneRun, oneSummary.2,
      (execution_progresses Serval.writeThenRead).1 _ one oneRun oneSummary.1⟩,
    ⟨_, two, twoRun, twoSummary.2,
      (execution_progresses Serval.writeThenRead).2 4 _ two twoRun twoSummary.1⟩⟩

end TpccRunner.Caracal
