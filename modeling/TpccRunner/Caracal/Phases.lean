import TpccRunner.Caracal.Invariant

/-!
# The steps of Caracal

Every step of the initialization and execution phases and both barriers keep the
invariant, as long as the epoch fits the 32 bits it has in a global id.
-/

set_option autoImplicit false

namespace TpccRunner.Caracal

open TpccRunner.Utils TpccRunner.Lib

section Init
variable {load : Workload} {state after : State} {worker : Worker} {item : Item Operation}
  {rest : List (Item Operation)} {maxSlots : Nat}

theorem Inv.stay (inv : Inv load state) (started : 1 ≤ state.epoch) {key : Nat} {val : Value}
    {pc : Pc}
    (slots : ∀ other, State.slots ((state.setRow key val).goto worker pc) other = state.slots other)
    (sameArray : val.globalArray = (state.rows key).globalArray)
    (sameHeap : val.heap = (state.rows key).heap) (idle : ¬ pc.Executing) :
    Inv load ((state.setRow key val).goto worker pc) := by
  refine inv.touch Workers.changes_setRow started (fun other _ => slots other) ?_
    (fun _ _ _ => pcOk_of_notExecuting idle) (fun _ _ _ ok => ?_) inv.events
  · rw [slots key]
    exact (inv.rows key).congr sameArray sameHeap
  · rwa [sameHeap]

theorem Inv.goto (inv : Inv load state) (started : 1 ≤ state.epoch) {pc : Pc}
    (idle : ¬ pc.Executing) : Inv load (state.goto worker pc) := by
  have slots := slots_of_untouched (untouched_goto state worker pc)
  exact inv.touch Workers.changes_goto started (fun other _ => slots other)
    (by rw [slots]; exact inv.rows 0) (fun _ _ _ => pcOk_of_notExecuting idle) (fun _ _ _ ok => ok)
    inv.events

theorem Inv.setLocked (inv : Inv load state) (started : 1 ≤ state.epoch) {pc : Pc}
    (idle : ¬ pc.Executing) (key : Nat) (locked : Bool) :
    Inv load ((state.setLocked key locked).goto worker pc) :=
  inv.stay started (slots_of_untouched (untouched_setRow (by rfl) worker pc)) rfl rfl idle

/-- The invariant does not speak of spare buffers, of `used_` or of what is
registered for the end of the phase. -/
theorem Inv.setOwn (inv : Inv load state) {own : RowBuffers}
    (sameBuffers : own.buffers = state.own.buffers) : Inv load { state with own } := by
  have slots : State.slots { state with own } = state.slots := by
    funext key core
    rw [State.slots, sameBuffers]
    rfl
  refine ⟨?_, inv.scheduled.congr rfl rfl rfl, inv.positive, inv.started, inv.pcs, inv.events⟩
  rw [slots]
  exact inv.rows

theorem appended_records (state : State) (own : RowBuffers) (worker : Worker)
    (item : Item Operation) (rest : List (Item Operation)) (val : Value) (pc : Pc) :
    Records state.epoch item.turn.serial (state.rows item.op.key).heap.next
      (fun epoch serial => state.pending epoch serial item.op.key)
      (fun epoch serial => ({ state with own }.appended Value.heap worker item rest val
        pc).pending epoch serial item.op.key) := by
  intro epoch other
  simp [Workers.appended, Workers.setPending, Workers.setRow, Workers.setTodo, Workers.goto]

theorem Inv.appended (inv : Inv load state) (init : state.phase = .init)
    (front : state.todo worker = item :: rest) {own : RowBuffers} {val : Value}
    {pc : Pc} (idle : ¬ pc.Executing)
    (made : after = { state with own }.appended Value.heap worker item rest val pc)
    (slots : ∀ other, other ≠ item.op.key → after.slots other = state.slots other)
    (row : RowInv load item.op.key state.epoch .init
      (fun epoch serial => after.pending epoch serial item.op.key) (after.Left item.op.key) val
      (after.slots item.op.key)) : Inv load after := by
  subst made
  refine inv.touch (Workers.changes_appended front) (inv.epoch_pos front) slots
    (by rw [init]; exact row) (fun _ _ _ => pcOk_of_notExecuting idle) (fun other pc _ ok => ?_)
    inv.events
  rw [init] at ok ⊢
  exact pcOk_of_notExecuting ok.notExecuting

theorem Inv.appendUncontended (inv : Inv load state) (bound : state.epoch < 2 ^ 32)
    (init : state.phase = .init) (front : state.todo worker = item :: rest) :
    Inv load (state.appended Value.heap worker item rest
      ((state.rows item.op.key).appendToUncontendedRow state.epoch item.turn.serial)
      (.unlock item.op.key)) := by
  obtain ⟨-, -, -, update⟩ := inv.scheduled.item_facts front
  have row := inv.rows item.op.key
  rw [init] at row
  have same := @untouched_appended state item
    ((state.rows item.op.key).appendToUncontendedRow state.epoch item.turn.serial) rfl worker rest
    (.unlock item.op.key)
  refine inv.appended init front (by exact id) rfl (fun other _ => slots_of_untouched same other) ?_
  rw [slots_of_untouched same]
  exact row.appendUncontended (inv.epoch_pos front) bound (inv.scheduled.writer front (update init))
    (inv.scheduled.left_head front (update init))
    (fun other => inv.scheduled.left_pop_update front rfl (update init))
    (appended_records _ state.own _ _ _ _ _)

theorem Inv.appendContended (inv : Inv load state) (buffersOk : BuffersOk state)
    (bound : state.epoch < 2 ^ 32) (init : state.phase = .init)
    (front : state.todo worker = item :: rest) {buffer : Nat}
    (pc : state.pc worker = .contended buffer) :
    Inv load (state.appendContended maxSlots worker item rest buffer) := by
  obtain ⟨-, -, -, update⟩ := inv.scheduled.item_facts front
  have at' := buffersOk.contended worker item rest buffer front pc
  have row := inv.rows item.op.key
  rw [init] at row
  have mySlots : state.own.buffers buffer worker = state.slots item.op.key worker := by
    rw [State.slots, at']
  have pushed (pc : Pc) (idle : ¬ pc.Executing) : Inv load ((state.setBuffer buffer worker
      (SortedVector.insertUpper (convertToGlobalId state.epoch item.turn.serial,
        (state.rows item.op.key).heap.next) (state.own.buffers buffer worker))).appended Value.heap
      worker item rest (state.rows item.op.key).createPendingVersion pc) := by
    refine inv.appended init front idle rfl (fun other differs => ?_) ?_
    · rw [slots_of_untouched (untouched_appended (by rfl) worker rest pc)]
      exact slots_setBuffer_of_ne
        (fun same => differs (buffersOk.unique _ _ buffer same at')) worker _
    · rw [slots_of_untouched (untouched_appended (by rfl) worker rest pc)]
      refine (congrArg (RowInv _ _ _ _ _ _ _) (slots_setBuffer at' worker _)).mpr ?_
      rw [mySlots]
      exact row.appendBuffer (inv.epoch_pos front) bound (inv.scheduled.writer front (update init))
        (inv.scheduled.left_head front (update init))
        (fun other => inv.scheduled.left_pop_update front rfl (update init))
        (appended_records _ _ _ _ _ _ _) (inv.owner front)
  simp only [State.appendContended]
  split
  · exact (pushed .start (by exact id)).setOwn rfl
  · exact pushed (.batchLock item.op.key buffer) (by exact id)

/-- The buffer that is installed was in nobody's row before, so it is empty. -/
theorem BuffersOk.slots_install (ok : BuffersOk state) {key buffer : Nat}
    (held : state.hand worker = some buffer) (free : state.rowBuffer key = none) (pc : Pc)
    (other : Nat) :
    State.slots ((state.setRow key { state.rows key with rowBuffer := some buffer }).goto worker
      pc) other = state.slots other := by
  have now : State.rowBuffer ((state.setRow key { state.rows key with
      rowBuffer := some buffer }).goto worker pc) other =
      if other = key then some buffer else state.rowBuffer other := update_view Value.rowBuffer
  funext core
  rw [State.slots, State.slots, now]
  by_cases same : other = key
  · rw [if_pos same, same, free]
    exact ok.unowned buffer (ok.hand worker buffer held).2 core
  · rw [if_neg same]
    rfl

theorem Inv.initializes {pc : Pc} (inv : Inv load state) (buffersOk : BuffersOk state)
    (bound : state.epoch < 2 ^ 32) (init : state.phase = .init)
    (front : state.todo worker = item :: rest) (at' : state.pc worker = pc)
    (move : Initializes maxSlots state worker item rest pc after) : Inv load after := by
  have started := inv.epoch_pos front
  cases move with
  | contended | uncontended | lockTaken | beaten => exact inv.goto started (by exact id)
  | locks => exact inv.setLocked started (by exact id) _ true
  | appends => exact inv.appendUncontended bound init front
  | @takesSpare buffer =>
    have moved : Inv load (state.goto worker (.installBuffer buffer)) :=
      inv.goto started (by exact id)
    exact moved.setOwn rfl
  | fetches =>
    have moved : Inv load (state.goto worker (.installBuffer state.own.used)) :=
      inv.goto started (by exact id)
    exact moved.setOwn rfl
  | installs free =>
    exact inv.stay started
      (buffersOk.slots_install (by rw [State.hand, at']; rfl) free _) rfl rfl (by exact id)
  | @keepsSpare buffer other =>
    have moved : Inv load (state.goto worker (.contended other)) :=
      inv.goto started (by exact id)
    exact moved.setOwn rfl
  | appendsContended => exact inv.appendContended buffersOk bound init front at'

theorem Inv.flush (inv : Inv load state) (buffersOk : BuffersOk state)
    (bound : state.epoch < 2 ^ 32) {key buffer : Nat} {pc : Pc}
    (target : (state.pc worker).target = some (key, buffer)) (idle : ¬ pc.Executing) :
    Inv load ((state.flush worker key buffer).goto worker pc) := by
  have at' := (buffersOk.workers worker).targets key buffer target
  have started : 1 ≤ state.epoch := by
    refine inv.started worker (.inr fun atStart => ?_)
    rw [atStart] at target
    cases target
  have mySlots : state.own.buffers buffer worker = state.slots key worker := by
    rw [State.slots, at']
  refine inv.touch ⟨rfl, rfl, .inl rfl, fun _ _ => rfl, rfl, rfl⟩ started
    (fun other differs => ?_) ?_ (fun _ _ _ => pcOk_of_notExecuting idle) (fun _ _ _ ok => ok)
    inv.events
  · rw [slots_flush]
    exact slots_setBuffer_of_ne (fun same => differs (buffersOk.unique _ _ buffer same at')) _ _
  · rw [slots_flush, slots_setBuffer at', mySlots]
    exact (inv.rows key).flush started bound worker

end Init

section Exec
variable {load : Workload} {state after : State} {worker : Worker} {item : Item Operation}
  {rest : List (Item Operation)} {pc : Pc}

/-- A store to one version keeps what the other workers know, if it does not take
back what they have seen. -/
theorem PcOk.setVersion {epoch : Nat} {phase : Phase} {heap : Heap}
    {pending : Nat → Nat → Option Nat} (ok : PcOk load epoch phase heap pending item pc)
    {pointer : Nat} {version : Version}
    (status : (heap.versions pointer).status = .stable → version.status = .stable)
    (record : item.turn.serial ∈ load.writers item.op.key epoch →
      pointer = pointerOf pending (toLex (epoch, item.turn.serial)) →
      (heap.versions pointer).record = some (.written epoch item.turn.serial) →
      version.record = some (.written epoch item.turn.serial)) :
    PcOk load epoch phase (heap.setVersion pointer version) pending item pc := by
  cases pc with
  | loadRecord target =>
    obtain ⟨exec, read, last, greatest, rfl, stable⟩ := ok
    refine ⟨exec, read, last, greatest, rfl, ?_⟩
    by_cases same : pointerOf pending last = pointer
    · rw [same, Heap.setVersion_self]
      exact status (same ▸ stable)
    · rwa [Heap.setVersion_of_ne _ _ same]
  | storeStable target =>
    obtain ⟨exec, update, isWriter, rfl, filled⟩ := ok
    refine ⟨exec, update, isWriter, rfl, ?_⟩
    by_cases same : pointerOf pending (toLex (epoch, item.turn.serial)) = pointer
    · rw [same, Heap.setVersion_self]
      exact record isWriter same.symm (same ▸ filled)
    · rwa [Heap.setVersion_of_ne _ _ same]
  | _ => exact ok

theorem Inv.gotoRead (inv : Inv load state) (front : state.todo worker = item :: rest)
    (mine : PcOk load state.epoch state.phase (state.rows item.op.key).heap
      (fun epoch serial => state.pending epoch serial item.op.key) item pc) :
    Inv load (state.goto worker pc) := by
  have slots := slots_of_untouched (untouched_goto state worker pc)
  refine inv.touch Workers.changes_goto (inv.epoch_pos front) (fun other _ => slots other)
    (by rw [slots]; exact inv.rows item.op.key) (fun other otherRest same => ?_)
    (fun _ _ _ ok => ok) inv.events
  obtain ⟨rfl, -⟩ := List.cons.inj (front.symm.trans same)
  exact mine

theorem Inv.known (inv : Inv load state) (exec : state.phase = .exec)
    (front : state.todo worker = item :: rest) (update : item.op.ope = .update) :
    state.pending state.epoch item.turn.serial item.op.key = some (pointerOf
      (fun epoch serial => state.pending epoch serial item.op.key)
      (toLex (state.epoch, item.turn.serial))) := by
  have row := inv.rows item.op.key
  rw [exec] at row
  have started := inv.epoch_pos front
  exact (row.versions.version _
    (made_writer started (inv.scheduled.writer front update))).known started

theorem Inv.storeRecord (inv : Inv load state) (exec : state.phase = .exec)
    (front : state.todo worker = item :: rest) (update : item.op.ope = .update) {pointer : Nat}
    (made : state.pending state.epoch item.turn.serial item.op.key = some pointer) :
    Inv load ((state.setRow item.op.key ((state.rows item.op.key).storeRecord pointer
      (.written state.epoch item.turn.serial))).goto worker (.storeStable pointer)) := by
  obtain rfl := Option.some.inj ((inv.known exec front update).symm.trans made)
  have writer := inv.scheduled.writer front update
  have started := inv.epoch_pos front
  have row := inv.rows item.op.key
  rw [exec] at row
  have isLeft := inv.scheduled.left_head front update
  have newRow := row.setVersion started writer
    { (state.rows item.op.key).heap.versions (pointerOf
        (fun epoch serial => state.pending epoch serial item.op.key)
        (toLex (state.epoch, item.turn.serial))) with
      record := some (.written state.epoch item.turn.serial) }
    (fun _ _ => Iff.rfl) (fun _ => rfl) (fun done => absurd isLeft done)
  refine inv.touch Workers.changes_setRow started
    (fun other _ => slots_of_untouched (untouched_setRow (by rfl) ..) other) ?_
    (fun other otherRest same => ?_) (fun other pc sameKey ok => ?_) inv.events
  · rw [exec, slots_of_untouched (untouched_setRow (by rfl) ..)]
    exact newRow
  · obtain ⟨rfl, -⟩ := List.cons.inj (front.symm.trans same)
    refine ⟨exec, update, writer, rfl, ?_⟩
    rw [show (Workers.goto (state.setRow item.op.key _) worker _).rows item.op.key = _ from
      Function.update_self ..]
    exact congrArg Version.record (Heap.setVersion_self ..)
  · refine ok.setVersion (fun stable => stable) fun isWriter same _ => ?_
    rw [sameKey] at isWriter
    have equal := row.versions.distinct _ (made_writer started writer) _
      (made_writer started isWriter) same
    have serialEq : item.turn.serial = other.turn.serial :=
      congrArg (fun at' => (ofLex at').2) equal
    rw [serialEq]

theorem Inv.returned (inv : Inv load state) (exec : state.phase = .exec)
    (front : state.todo worker = item :: rest) {pointer : Nat}
    (ok : PcOk load state.epoch state.phase (state.rows item.op.key).heap
      (fun epoch serial => state.pending epoch serial item.op.key) item (.loadRecord pointer)) :
    Inv load (state.returned worker item rest
      ((state.rows item.op.key).heap.versions pointer).record .start) := by
  obtain ⟨-, read, last, greatest, rfl, stable⟩ := ok
  have row := inv.rows item.op.key
  rw [exec] at row
  have same := untouched_returned state worker item rest ((state.rows item.op.key).heap.versions
    (pointerOf (fun epoch serial => state.pending epoch serial item.op.key) last)).record
  have lastMade : last ∈ Made load item.op.key state.epoch .exec (state.Left item.op.key) := by
    refine ⟨greatest.1.1, greatest.1.2.trans ?_, fun _ _ impossible => by cases impossible⟩
    exact lex_lt.mpr (.inl (Nat.lt_succ_self _))
  have content := (row.versions.version last lastMade).written stable
  refine inv.touch (Workers.changes_returned front) (inv.epoch_pos front)
    (fun other _ => slots_of_untouched same other) ?_ (fun _ _ _ => trivial) (fun _ _ _ ok => ok)
    fun event member => ?_
  · rw [slots_of_untouched same, inv.scheduled.left_pop_read front rfl read]
    exact inv.rows item.op.key
  · rcases List.mem_cons.mp member with rfl | old
    · obtain ⟨found, isGreatest, record, -⟩ := greatest_writer_of_version greatest
      exact ⟨found, isGreatest, by rw [content, record]⟩
    · exact inv.events event old

theorem Inv.storeStable (inv : Inv load state) (exec : state.phase = .exec)
    (front : state.todo worker = item :: rest) {pointer : Nat}
    (ok : PcOk load state.epoch state.phase (state.rows item.op.key).heap
      (fun epoch serial => state.pending epoch serial item.op.key) item (.storeStable pointer)) :
    Inv load (((state.setRow item.op.key ((state.rows item.op.key).storeStable pointer)).setTodo
      worker rest).goto worker .start) := by
  obtain ⟨-, update, writer, rfl, filled⟩ := ok
  have row := inv.rows item.op.key
  rw [exec] at row
  have same : Untouched worker state (((state.setRow item.op.key
      ((state.rows item.op.key).storeStable (pointerOf
        (fun epoch serial => state.pending epoch serial item.op.key)
        (toLex (state.epoch, item.turn.serial))))).setTodo worker rest).goto worker .start) :=
    ⟨(((OthersSame.refl ..).setRow ..).setTodo _).goto _, rowBuffer_setRow rfl, rfl, rfl, rfl, rfl⟩
  refine inv.touch (Workers.changes_done front) (inv.epoch_pos front)
    (fun other _ => slots_of_untouched same other) ?_ (fun _ _ _ => trivial)
    (fun other pc _ otherOk => ?_) inv.events
  · rw [exec, slots_of_untouched same]
    refine row.setVersion (inv.epoch_pos front) writer
      { (state.rows item.op.key).heap.versions (pointerOf
          (fun epoch serial => state.pending epoch serial item.op.key)
          (toLex (state.epoch, item.turn.serial))) with
        status := .stable } (fun other differs => ?_) (fun _ => filled) (fun _ => rfl)
    exact (inv.scheduled.left_pop_update front rfl update).trans (and_iff_left differs)
  · exact otherOk.setVersion (fun _ => rfl) fun _ _ content => content

theorem Inv.executes (inv : Inv load state) (bound : state.epoch < 2 ^ 32)
    (exec : state.phase = .exec) (front : state.todo worker = item :: rest)
    (at' : state.pc worker = pc) (move : Executes state worker item rest pc after) :
    Inv load after := by
  have mine := inv.pcs worker item rest front
  rw [at'] at mine
  have row := inv.rows item.op.key
  rw [exec] at row
  obtain ⟨serialBound, -, -, -⟩ := inv.scheduled.item_facts front
  obtain ⟨last, greatest, search⟩ := row.search (inv.epoch_pos front) bound
    (serialBound.trans (show 4096 < 2 ^ 32 by norm_num))
  cases move with
  | finds read found =>
    cases found.symm.trans search
    exact inv.gotoRead front ⟨exec, read, last, greatest, rfl⟩
  | misses _ found => cases found.symm.trans search
  | fills update made => exact inv.storeRecord exec front update made
  | unmade update made => cases made.symm.trans (inv.known exec front update)
  | awaits stable =>
    obtain ⟨-, read, last, greatest, rfl⟩ := mine
    exact inv.gotoRead front ⟨exec, read, last, greatest, rfl, stable⟩
  | loads => exact inv.returned exec front mine
  | stores => exact inv.storeStable exec front mine

end Exec

/-! ## Every step -/

theorem Inv.flushes {load : Workload} {state after : State} {worker : Worker} {pc : Pc}
    (inv : Inv load state) (buffersOk : BuffersOk state) (bound : state.epoch < 2 ^ 32)
    (at' : state.pc worker = pc) (move : Flushes state worker pc after) : Inv load after := by
  have started : 1 ≤ state.epoch := by
    refine inv.started worker (.inr ?_)
    rw [at']
    cases move <;> simp
  cases move with
  | unlock | batchUnlock | batchLock => exact inv.setLocked started (by exact id) _ _
  | batchAppend | finalAppend => exact inv.flush buffersOk bound (by rw [at']; rfl) (by exact id)
  | @finalUnlock key =>
    have moved : Inv load ((state.setLocked key false).goto worker .start) :=
      inv.setLocked started (by exact id) _ _
    exact moved.setOwn rfl

theorem step_inv {load : Workload} {state after : State} {label : Label} {maxSlots : Nat}
    (inv : Inv load state) (buffersOk : BuffersOk state) (bound : state.epoch < 2 ^ 32)
    (step : state.step maxSlots load label = some after) : Inv load after := by
  cases transition_of_step step with
  | initializes init front at' move => exact inv.initializes buffersOk bound init front at' move
  | executes exec front at' move => exact inv.executes bound exec front at' move
  | flushes at' move => exact inv.flushes buffersOk bound at' move
  | finalizes init => exact inv.setLocked (inv.positive init) (by exact id) _ _
  | skips => exact inv
  | barrier phase quiet =>
    have nothing := Worklist.not_remains_of_empty fun worker => (quiet worker).1
    refine ⟨fun key => ?_, ⟨⟨_, roundRobin_assigns⟩, fun _ => List.suffix_rfl⟩,
      fun impossible => (by cases impossible), fun _ _ => inv.positive phase,
      fun worker _ _ _ => ?_, inv.events⟩
    · have row := inv.rows key
      rw [phase] at row
      refine row.barrier (inv.positive phase) (fun _ => nothing _) (fun core => ?_)
        fun _ => remains_operations roundRobin_assigns
      rw [State.slots]
      split
      next buffer at' => exact buffersOk.quiet_empty quiet at' core
      next => rfl
    · rw [(quiet worker).2.1]
      trivial
  | newEpoch phase quiet =>
    have nothing := Worklist.not_remains_of_empty fun worker => (quiet worker).1
    refine ⟨fun key => ?_, ⟨⟨_, roundRobin_assigns⟩, fun _ => List.suffix_rfl⟩,
      fun _ => Nat.succ_pos _, fun _ _ => Nat.succ_pos _, fun worker _ _ _ => ?_, inv.events⟩
    · have row := inv.rows key
      rw [phase] at row
      exact row.newEpoch (fun _ => nothing _) fun _ => remains_updates roundRobin_assigns
    · rw [(quiet worker).2.1]
      trivial

end TpccRunner.Caracal
