import TpccRunner.Caracal.RowInvariant

/-!
# Row buffers in a run of Caracal

A row buffer belongs to one row, or is in the hands of one worker, or has not
been fetched; a spare buffer is never lost or installed twice.  A core's buffer
that is not empty is registered with its worker or is about to be flushed, so all
of them are empty when the workers meet at the barrier.
-/

set_option autoImplicit false

namespace TpccRunner.Caracal

open TpccRunner.Utils TpccRunner.Lib

/-- The buffer a worker is about to install or to keep as a spare. -/
def Pc.hand : Pc → Option Nat
  | .installBuffer buffer | .loadOtherBuffer buffer => some buffer
  | _ => none

/-- The row and buffer a worker is about to append as a batch because it is full. -/
def Pc.flushing : Pc → Option (Nat × Nat)
  | .batchLock key buffer | .batchAppend key buffer => some (key, buffer)
  | _ => none

def Pc.target : Pc → Option (Nat × Nat)
  | .batchLock key buffer | .batchAppend key buffer | .finalAppend key buffer => some (key, buffer)
  | _ => none

/-- The row whose buffer has just been appended for the last time. -/
def Pc.drained : Pc → Option Nat
  | .finalUnlock key => some key
  | _ => none

def State.rowBuffer (state : State) (key : Nat) : Option Nat := (state.rows key).rowBuffer

def State.hand (state : State) (worker : Worker) : Option Nat :=
  ((state.pc worker).hand).or (state.own.spareBuffer worker)

/-- What a worker's position, spare and registered buffers say of the row buffers;
`slots` are the worker's own slots in each of them. -/
structure WorkerOk (rowBuffer : Nat → Option Nat) (slots : Nat → Slots) (pc : Pc)
    (spare : Option Nat) (appended : List (Nat × Nat)) : Prop where
  noSpare : pc.hand.isSome → spare = none
  registered : ∀ key buffer, (key, buffer) ∈ appended → rowBuffer key = some buffer
  targets : ∀ key buffer, pc.target = some (key, buffer) → rowBuffer key = some buffer
  flushed : ∀ key buffer, rowBuffer key = some buffer → slots buffer ≠ [] →
    (key, buffer) ∈ appended ∨ pc.flushing = some (key, buffer)
  drained : ∀ key, pc.drained = some key →
    ∃ buffer, rowBuffer key = some buffer ∧ slots buffer = []

structure BuffersOk (state : State) : Prop where
  installed : ∀ key buffer, state.rowBuffer key = some buffer → buffer < state.own.used
  unique : ∀ one two buffer, state.rowBuffer one = some buffer →
    state.rowBuffer two = some buffer → one = two
  hand : ∀ worker buffer, state.hand worker = some buffer →
    buffer < state.own.used ∧ ∀ key, state.rowBuffer key ≠ some buffer
  handUnique : ∀ one two buffer, state.hand one = some buffer → state.hand two = some buffer →
    one = two
  unowned : ∀ buffer, (∀ key, state.rowBuffer key ≠ some buffer) →
    ∀ core, state.own.buffers buffer core = []
  workers : ∀ worker, WorkerOk state.rowBuffer (fun buffer => state.own.buffers buffer worker)
    (state.pc worker) (state.own.spareBuffer worker) (state.own.appendedCoreBuffers worker)
  contended : ∀ worker item rest buffer, state.todo worker = item :: rest →
    state.pc worker = .contended buffer → state.rowBuffer item.op.key = some buffer

theorem loaded_buffersOk : BuffersOk State.loaded where
  installed := fun _ _ impossible => by cases impossible
  unique := fun _ _ _ impossible => by cases impossible
  hand := fun _ _ impossible => by cases impossible
  handUnique := fun _ _ _ impossible => by cases impossible
  unowned := fun _ _ _ => rfl
  workers := fun _ => ⟨fun _ => rfl, (fun _ _ impossible => by cases impossible),
    (fun _ _ impossible => by cases impossible), (fun _ _ impossible => by cases impossible),
    (fun _ impossible => by cases impossible)⟩
  contended := fun _ _ _ _ impossible => by cases impossible

section Steps
variable {state after : State} {worker : Worker} {pc : Pc}

structure OthersSame (worker : Worker) (state after : State) : Prop where
  todo : ∀ other, other ≠ worker → after.todo other = state.todo other
  pc : ∀ other, other ≠ worker → after.pc other = state.pc other
  spare : ∀ other, other ≠ worker → after.own.spareBuffer other = state.own.spareBuffer other
  appended : ∀ other, other ≠ worker →
    after.own.appendedCoreBuffers other = state.own.appendedCoreBuffers other
  slots : ∀ other, other ≠ worker → ∀ buffer,
    after.own.buffers buffer other = state.own.buffers buffer other

theorem OthersSame.hand (others : OthersSame worker state after) {other : Worker}
    (differs : other ≠ worker) : after.hand other = state.hand other := by
  rw [State.hand, State.hand, others.pc other differs, others.spare other differs]

theorem BuffersOk.step (ok : BuffersOk state) (others : OthersSame worker state after)
    (sameRows : after.rowBuffer = state.rowBuffer)
    (hand : after.hand worker = state.hand worker ∧ after.own.used = state.own.used ∨
      after.hand worker = some state.own.used ∧ after.own.used = state.own.used + 1)
    (unowned : ∀ buffer, (∀ key, state.rowBuffer key ≠ some buffer) →
      after.own.buffers buffer worker = [])
    (mine : WorkerOk state.rowBuffer (fun buffer => after.own.buffers buffer worker)
      (after.pc worker) (after.own.spareBuffer worker) (after.own.appendedCoreBuffers worker))
    (contended : ∀ item rest buffer, after.todo worker = item :: rest →
      after.pc worker = .contended buffer → state.rowBuffer item.op.key = some buffer) :
    BuffersOk after where
  installed := fun key buffer at' => by
    rw [sameRows] at at'
    have := ok.installed key buffer at'
    omega
  unique := by
    rw [sameRows]
    exact ok.unique
  hand := fun other buffer held => by
    rw [sameRows]
    by_cases same : other = worker
    · subst same
      rcases hand with ⟨sameHand, sameUsed⟩ | ⟨new, used⟩
      · rw [sameHand] at held
        rw [sameUsed]
        exact ok.hand other buffer held
      · obtain rfl := Option.some.inj (new.symm.trans held)
        exact ⟨by omega, fun key at' => absurd (ok.installed key _ at') (lt_irrefl _)⟩
    · rw [others.hand same] at held
      obtain ⟨bound, free⟩ := ok.hand other buffer held
      exact ⟨by omega, free⟩
  handUnique := fun one two buffer oneHeld twoHeld => by
    -- what the worker has in its hand now is in nobody else's
    have mine (other : Worker) (held : after.hand worker = some buffer)
        (otherHeld : state.hand other = some buffer) : other = worker := by
      rcases hand with ⟨sameHand, -⟩ | ⟨new, -⟩
      · exact ok.handUnique other worker buffer otherHeld (sameHand ▸ held)
      · obtain rfl := Option.some.inj (new.symm.trans held)
        exact absurd (ok.hand other _ otherHeld).1 (lt_irrefl _)
    by_cases oneSame : one = worker <;> by_cases twoSame : two = worker
    · rw [oneSame, twoSame]
    · exact absurd (mine two (oneSame ▸ oneHeld) (others.hand twoSame ▸ twoHeld)) twoSame
    · exact absurd (mine one (twoSame ▸ twoHeld) (others.hand oneSame ▸ oneHeld)) oneSame
    · rw [others.hand oneSame] at oneHeld
      rw [others.hand twoSame] at twoHeld
      exact ok.handUnique one two buffer oneHeld twoHeld
  unowned := fun buffer free core => by
    rw [sameRows] at free
    by_cases same : core = worker
    · subst same
      exact unowned buffer free
    · rw [others.slots core same]
      exact ok.unowned buffer free core
  workers := fun other => by
    rw [sameRows]
    by_cases same : other = worker
    · subst same
      exact mine
    · have slots : (fun buffer => after.own.buffers buffer other) =
          fun buffer => state.own.buffers buffer other := funext (others.slots other same)
      rw [slots, others.pc other same, others.spare other same, others.appended other same]
      exact ok.workers other
  contended := fun other item rest buffer front at' => by
    rw [sameRows]
    by_cases same : other = worker
    · subst same
      exact contended item rest buffer front at'
    · rw [others.todo other same] at front
      rw [others.pc other same] at at'
      exact ok.contended other item rest buffer front at'

theorem WorkerOk.install {rowBuffer rowBuffer' : Nat → Option Nat} {slots : Nat → Slots}
    {spare : Option Nat} {appended : List (Nat × Nat)}
    (ok : WorkerOk rowBuffer slots pc spare appended)
    (more : ∀ key buffer, rowBuffer key = some buffer → rowBuffer' key = some buffer)
    (new : ∀ key buffer, rowBuffer' key = some buffer →
      rowBuffer key = some buffer ∨ slots buffer = []) :
    WorkerOk rowBuffer' slots pc spare appended where
  noSpare := ok.noSpare
  registered := fun key buffer member => more key buffer (ok.registered key buffer member)
  targets := fun key buffer target => more key buffer (ok.targets key buffer target)
  flushed := fun key buffer at' nonempty =>
    ok.flushed key buffer ((new key buffer at').resolve_right nonempty) nonempty
  drained := fun key drained => by
    obtain ⟨buffer, at', empty⟩ := ok.drained key drained
    exact ⟨buffer, more key buffer at', empty⟩

theorem BuffersOk.install (ok : BuffersOk state) {key buffer : Nat}
    (others : OthersSame worker state after) (free : state.rowBuffer key = none)
    (held : state.hand worker = some buffer)
    (rows : ∀ other, after.rowBuffer other =
      if other = key then some buffer else state.rowBuffer other)
    (noHand : after.hand worker = none) (sameUsed : after.own.used = state.own.used)
    (sameBuffers : after.own.buffers = state.own.buffers)
    (mine : WorkerOk state.rowBuffer (fun buffer => state.own.buffers buffer worker)
      (after.pc worker) (after.own.spareBuffer worker) (after.own.appendedCoreBuffers worker))
    (contended : ∀ item rest b, after.todo worker = item :: rest →
      after.pc worker = .contended b → item.op.key = key ∧ b = buffer) : BuffersOk after := by
  obtain ⟨bound, unused⟩ := ok.hand worker buffer held
  have more (other b : Nat) (at' : state.rowBuffer other = some b) :
      after.rowBuffer other = some b := by
    rw [rows, if_neg]
    · exact at'
    · rintro rfl
      rw [free] at at'
      cases at'
  have was (other b : Nat) (at' : after.rowBuffer other = some b) :
      other = key ∧ b = buffer ∨ state.rowBuffer other = some b := by
    rw [rows] at at'
    split at at'
    · exact .inl ⟨‹_›, (Option.some.inj at').symm⟩
    · exact .inr at'
  have new (core : Worker) (other b : Nat) (at' : after.rowBuffer other = some b) :
      state.rowBuffer other = some b ∨ state.own.buffers b core = [] := by
    rcases was other b at' with ⟨-, rfl⟩ | old
    · exact .inr (ok.unowned b unused core)
    · exact .inl old
  exact {
    installed := fun other b at' => by
      rw [sameUsed]
      rcases was other b at' with ⟨-, rfl⟩ | old
      · exact bound
      · exact ok.installed other b old
    unique := fun one two b oneAt twoAt => by
      rcases was one b oneAt with ⟨rfl, rfl⟩ | oneOld <;>
        rcases was two b twoAt with ⟨rfl, same⟩ | twoOld
      · rfl
      · exact absurd twoOld (unused two)
      · exact absurd (same ▸ oneOld) (unused one)
      · exact ok.unique one two b oneOld twoOld
    hand := fun other b otherHeld => by
      by_cases same : other = worker
      · rw [same, noHand] at otherHeld
        cases otherHeld
      · rw [others.hand same] at otherHeld
        obtain ⟨otherBound, otherFree⟩ := ok.hand other b otherHeld
        refine ⟨by omega, fun third at' => ?_⟩
        rcases was third b at' with ⟨-, rfl⟩ | old
        · exact same (ok.handUnique other worker b otherHeld held)
        · exact otherFree third old
    handUnique := fun one two b oneHeld twoHeld => by
      have differs (other : Worker) (otherHeld : after.hand other = some b) : other ≠ worker := by
        rintro rfl
        rw [noHand] at otherHeld
        cases otherHeld
      rw [others.hand (differs one oneHeld)] at oneHeld
      rw [others.hand (differs two twoHeld)] at twoHeld
      exact ok.handUnique one two b oneHeld twoHeld
    unowned := fun b notInstalled core => by
      rw [sameBuffers]
      exact ok.unowned b (fun other at' => notInstalled other (more other b at')) core
    workers := fun other => by
      rw [sameBuffers]
      by_cases same : other = worker
      · subst same
        exact mine.install more (new other)
      · rw [others.pc other same, others.spare other same, others.appended other same]
        exact (ok.workers other).install more (new other)
    contended := fun other item rest b front at' => by
      by_cases same : other = worker
      · subst same
        obtain ⟨rfl, rfl⟩ := contended item rest b front at'
        rw [rows, if_pos rfl]
      · rw [others.todo other same] at front
        rw [others.pc other same] at at'
        exact more _ b (ok.contended other item rest b front at') }

/-! ## Steps that only move a worker -/

theorem OthersSame.refl (worker : Worker) (state : State) : OthersSame worker state state :=
  ⟨fun _ _ => rfl, fun _ _ => rfl, fun _ _ => rfl, fun _ _ => rfl, fun _ _ _ => rfl⟩

theorem OthersSame.goto (others : OthersSame worker state after) (pc : Pc) :
    OthersSame worker state (after.goto worker pc) :=
  ⟨others.todo, fun other differs => (Function.update_of_ne differs ..).trans
    (others.pc other differs), others.spare, others.appended, others.slots⟩

theorem OthersSame.setRow (others : OthersSame worker state after) (key : Nat) (val : Value) :
    OthersSame worker state (after.setRow key val) :=
  ⟨others.todo, others.pc, others.spare, others.appended, others.slots⟩

theorem OthersSame.setPending (others : OthersSame worker state after) (serial key pointer : Nat) :
    OthersSame worker state (after.setPending serial key pointer) :=
  ⟨others.todo, others.pc, others.spare, others.appended, others.slots⟩

theorem OthersSame.setTodo (others : OthersSame worker state after)
    (rest : List (Item Operation)) : OthersSame worker state (after.setTodo worker rest) :=
  ⟨fun other differs => (Function.update_of_ne differs ..).trans (others.todo other differs),
    others.pc, others.spare, others.appended, others.slots⟩

theorem OthersSame.setSpare (others : OthersSame worker state after) (spare : Option Nat) :
    OthersSame worker state (after.setSpare worker spare) :=
  ⟨others.todo, others.pc, fun other differs => (Function.update_of_ne differs ..).trans
    (others.spare other differs), others.appended, others.slots⟩

theorem OthersSame.setAppended (others : OthersSame worker state after)
    (entries : List (Nat × Nat)) : OthersSame worker state (after.setAppended worker entries) :=
  ⟨others.todo, others.pc, others.spare, fun other differs =>
    (Function.update_of_ne differs ..).trans (others.appended other differs), others.slots⟩

theorem setBuffer_slots (state : State) (buffer : Nat) (core : Worker) (slots : Slots) :
    (fun other => (state.setBuffer buffer core slots).own.buffers other core) =
      Function.update (fun other => state.own.buffers other core) buffer slots := by
  funext other
  by_cases same : other = buffer
  · subst same
    simp [State.setBuffer]
  · simp [State.setBuffer, same]

theorem OthersSame.setBuffer (others : OthersSame worker state after) (buffer : Nat)
    (slots : Slots) : OthersSame worker state (after.setBuffer buffer worker slots) :=
  ⟨others.todo, others.pc, others.spare, others.appended, fun other differs third => by
    rw [← others.slots other differs third]
    by_cases same : third = buffer
    · subst same
      simp [State.setBuffer, differs]
    · simp [State.setBuffer, same]⟩

theorem OthersSame.appended' (others : OthersSame worker state after) (item : Item Operation)
    (rest : List (Item Operation)) (val : Value) (pc : Pc) :
    OthersSame worker state (after.appended Value.heap worker item rest val pc) :=
  (((others.setRow _ _).setPending _ _ _).setTodo _).goto _

theorem rowBuffer_setRow {key : Nat} {val : Value}
    (same : val.rowBuffer = (state.rows key).rowBuffer) :
    State.rowBuffer (state.setRow key val) = state.rowBuffer :=
  funext (update_congr Value.rowBuffer same)

theorem WorkerOk.goto {rowBuffer : Nat → Option Nat} {slots : Nat → Slots} {pc' : Pc}
    {spare : Option Nat} {appended : List (Nat × Nat)}
    (ok : WorkerOk rowBuffer slots pc spare appended) (hand : pc'.hand = pc.hand)
    (flushing : pc'.flushing = pc.flushing)
    (target : ∀ key buffer, pc'.target = some (key, buffer) → rowBuffer key = some buffer)
    (drained : pc'.drained = none) : WorkerOk rowBuffer slots pc' spare appended where
  noSpare := fun held => ok.noSpare (hand ▸ held)
  registered := ok.registered
  targets := target
  flushed := fun key buffer at' nonempty => flushing ▸ ok.flushed key buffer at' nonempty
  drained := fun key impossible => by
    rw [drained] at impossible
    cases impossible

theorem WorkerOk.settle {rowBuffer : Nat → Option Nat} {slots : Nat → Slots}
    {spare : Option Nat} {appended : List (Nat × Nat)} (noSpare : pc.hand.isSome → spare = none)
    (registered : ∀ key buffer, (key, buffer) ∈ appended → rowBuffer key = some buffer)
    (flushed : ∀ key buffer, rowBuffer key = some buffer → slots buffer ≠ [] →
      (key, buffer) ∈ appended ∨ pc.flushing = some (key, buffer))
    (noTarget : pc.target = none) (notDrained : pc.drained = none) :
    WorkerOk rowBuffer slots pc spare appended :=
  ⟨noSpare, registered, fun _ _ target => by simp [noTarget] at target, flushed,
    fun _ drained => by simp [notDrained] at drained⟩

structure Untouched (worker : Worker) (state after : State) : Prop where
  others : OthersSame worker state after
  rows : after.rowBuffer = state.rowBuffer
  buffers : after.own.buffers = state.own.buffers
  used : after.own.used = state.own.used
  spare : after.own.spareBuffer = state.own.spareBuffer
  appended : after.own.appendedCoreBuffers = state.own.appendedCoreBuffers

theorem BuffersOk.untouched (ok : BuffersOk state) (same : Untouched worker state after)
    (hand : (after.pc worker).hand = (state.pc worker).hand)
    (flushing : (after.pc worker).flushing = (state.pc worker).flushing)
    (target : ∀ key buffer, (after.pc worker).target = some (key, buffer) →
      state.rowBuffer key = some buffer)
    (drained : (after.pc worker).drained = none)
    (contended : ∀ item rest buffer, after.todo worker = item :: rest →
      after.pc worker = .contended buffer → state.rowBuffer item.op.key = some buffer) :
    BuffersOk after := by
  refine ok.step same.others same.rows (.inl ⟨?_, same.used⟩) (fun buffer free => ?_) ?_ contended
  · rw [State.hand, State.hand, hand, same.spare]
  · rw [same.buffers]
    exact ok.unowned buffer free worker
  · rw [same.buffers, same.spare, same.appended]
    exact (ok.workers worker).goto hand flushing target drained

def Pc.Plain : Pc → Prop
  | .installBuffer _ | .loadOtherBuffer _ | .batchLock .. | .batchAppend .. | .finalAppend ..
  | .finalUnlock _ | .contended _ => False
  | _ => True

theorem Pc.Plain.facts (plain : pc.Plain) :
    pc.hand = none ∧ pc.flushing = none ∧ pc.target = none ∧ pc.drained = none ∧
      ∀ buffer, pc ≠ .contended buffer := by
  cases pc with
  | installBuffer | loadOtherBuffer | batchLock | batchAppend | finalAppend | finalUnlock
  | contended => exact plain.elim
  | _ => exact ⟨rfl, rfl, rfl, rfl, fun _ impossible => by cases impossible⟩

theorem BuffersOk.plain (ok : BuffersOk state) (same : Untouched worker state after)
    (noHand : (state.pc worker).hand = none) (notFlushing : (state.pc worker).flushing = none)
    (plain : (after.pc worker).Plain) : BuffersOk after := by
  obtain ⟨hand, flushing, target, drained, notContended⟩ := plain.facts
  refine ok.untouched same (hand.trans noHand.symm) (flushing.trans notFlushing.symm) ?_ drained ?_
  · intro key buffer impossible
    rw [target] at impossible
    cases impossible
  · exact fun _ _ buffer _ impossible => absurd impossible (notContended buffer)

@[simp] theorem goto_pc (state : State) (worker : Worker) (pc : Pc) :
    (state.goto worker pc).pc worker = pc := Function.update_self ..

@[simp] theorem appended_pc (state : State) (worker : Worker) (item : Item Operation)
    (rest : List (Item Operation)) (val : Value) (pc : Pc) :
    (state.appended Value.heap worker item rest val pc).pc worker = pc := Function.update_self ..

@[simp] theorem returned_pc (state : State) (worker : Worker) (item : Item Operation)
    (rest : List (Item Operation)) (record : Option Record) :
    (state.returned worker item rest record .start).pc worker = .start := Function.update_self ..

theorem setAppended_appended (state : State) (worker : Worker) (entries : List (Nat × Nat)) :
    (state.setAppended worker entries).own.appendedCoreBuffers worker = entries :=
  Function.update_self ..

theorem untouched_goto (state : State) (worker : Worker) (pc : Pc) :
    Untouched worker state (state.goto worker pc) :=
  ⟨(OthersSame.refl ..).goto pc, rfl, rfl, rfl, rfl, rfl⟩

theorem untouched_setRow {key : Nat} {val : Value}
    (same : val.rowBuffer = (state.rows key).rowBuffer) (worker : Worker) (pc : Pc) :
    Untouched worker state ((state.setRow key val).goto worker pc) :=
  ⟨((OthersSame.refl ..).setRow ..).goto pc, rowBuffer_setRow same, rfl, rfl, rfl, rfl⟩

theorem untouched_appended {item : Item Operation} {val : Value}
    (same : val.rowBuffer = (state.rows item.op.key).rowBuffer) (worker : Worker)
    (rest : List (Item Operation)) (pc : Pc) :
    Untouched worker state (state.appended Value.heap worker item rest val pc) :=
  ⟨(OthersSame.refl ..).appended' .., rowBuffer_setRow same, rfl, rfl, rfl, rfl⟩

theorem untouched_returned (state : State) (worker : Worker) (item : Item Operation)
    (rest : List (Item Operation)) (record : Option Record) :
    Untouched worker state (state.returned worker item rest record .start) := by
  have others := ((OthersSame.refl worker state).setTodo rest).goto .start
  exact ⟨⟨others.todo, others.pc, others.spare, others.appended, others.slots⟩, rfl, rfl, rfl, rfl,
    rfl⟩

/-! ## Every step -/

theorem BuffersOk.executes (ok : BuffersOk state) {item : Item Operation}
    {rest : List (Item Operation)} (at' : state.pc worker = pc)
    (move : Executes state worker item rest pc after) : BuffersOk after := by
  have noHand : (state.pc worker).hand = none := by
    rw [at']
    cases move <;> rfl
  have notFlushing : (state.pc worker).flushing = none := by
    rw [at']
    cases move <;> rfl
  cases move with
  | finds | awaits => exact ok.plain (untouched_goto ..) noHand notFlushing (by simp [Pc.Plain])
  | misses | loads =>
    exact ok.plain (untouched_returned ..) noHand notFlushing (by simp [Pc.Plain])
  | fills =>
    exact ok.plain (untouched_setRow (by rfl) ..) noHand notFlushing (by simp [Pc.Plain])
  | unmade =>
    refine ok.plain ⟨(OthersSame.refl ..).setTodo _, rfl, rfl, rfl, rfl, rfl⟩ noHand notFlushing ?_
    rw [show (state.setTodo worker rest).pc worker = .start from at']
    trivial
  | @stores pointer =>
    have others := (((OthersSame.refl worker state).setRow item.op.key
      ((state.rows item.op.key).storeStable pointer)).setTodo rest).goto .start
    exact ok.plain ⟨others, rowBuffer_setRow rfl, rfl, rfl, rfl, rfl⟩ noHand notFlushing
      (by simp [Pc.Plain])

theorem BuffersOk.appendContended (ok : BuffersOk state) {maxSlots buffer : Nat}
    {item : Item Operation} {rest : List (Item Operation)}
    (front : state.todo worker = item :: rest) (pc : state.pc worker = .contended buffer) :
    BuffersOk (state.appendContended maxSlots worker item rest buffer) := by
  have at' := ok.contended worker item rest buffer front pc
  have mine := ok.workers worker
  rw [pc] at mine
  have noHand : state.hand worker = state.own.spareBuffer worker := by rw [State.hand, pc]; rfl
  have unowned (slots : Slots) (other : Nat) (free : ∀ key, state.rowBuffer key ≠ some other) :
      (state.setBuffer buffer worker slots).own.buffers other worker = [] := by
    have differs : other ≠ buffer := by
      rintro rfl
      exact free _ at'
    have := congrFun (setBuffer_slots state buffer worker slots) other
    rw [Function.update_of_ne differs] at this
    rw [this]
    exact ok.unowned other free worker
  have stillFlushed (slots : Slots) (key other : Nat) (otherAt : state.rowBuffer key = some other)
      (nonempty : (state.setBuffer buffer worker slots).own.buffers other worker ≠ []) :
      (key, other) ∈ state.own.appendedCoreBuffers worker ∨ key = item.op.key ∧ other = buffer := by
    by_cases same : other = buffer
    · subst same
      exact .inr ⟨ok.unique key item.op.key other otherAt at', rfl⟩
    · have := congrFun (setBuffer_slots state buffer worker slots) other
      rw [Function.update_of_ne same] at this
      rw [this] at nonempty
      refine .inl ((mine.flushed key other otherAt nonempty).resolve_right ?_)
      intro impossible
      cases impossible
  simp only [State.appendContended]
  split
  · -- the entry of the row, if there is one, is for the same buffer
    have registered (key other : Nat) (member : (key, other) ∈ State.register
        (state.own.appendedCoreBuffers worker) item.op.key buffer) :
        state.rowBuffer key = some other := by
      rw [State.register] at member
      split at member
      · exact mine.registered key other member
      · rcases List.mem_cons.mp member with same | old
        · cases same
          exact at'
        · exact mine.registered key other old
    have contains : (item.op.key, buffer) ∈ State.register (state.own.appendedCoreBuffers worker)
        item.op.key buffer := by
      rw [State.register]
      split
      next found =>
        obtain ⟨⟨key, other⟩, member, same⟩ := List.any_eq_true.mp found
        obtain rfl : key = item.op.key := by simpa using same
        obtain rfl := Option.some.inj ((mine.registered _ _ member).symm.trans at')
        exact member
      next => simp
    have keeps (entry : Nat × Nat) (member : entry ∈ state.own.appendedCoreBuffers worker) :
        entry ∈ State.register (state.own.appendedCoreBuffers worker) item.op.key buffer := by
      rw [State.register]
      split
      · exact member
      · exact List.mem_cons_of_mem _ member
    refine ok.step ((((OthersSame.refl ..).setBuffer ..).setAppended _).appended' ..)
      (rowBuffer_setRow rfl) (.inl ⟨?_, rfl⟩) (unowned _) ?_ ?_
    · rw [noHand, State.hand, appended_pc]
      rfl
    · have entries := setAppended_appended (state.setBuffer buffer worker
        (PerCoreBuffer.appendable maxSlots (state.own.buffers buffer worker)
          (state.rows item.op.key).heap.next state.epoch item.turn.serial).1) worker
        (State.register (state.own.appendedCoreBuffers worker) item.op.key buffer)
      rw [appended_pc]
      refine (congrArg (WorkerOk _ _ _ _) entries).mpr (.settle (by simp [Pc.hand]) registered
        (fun key other otherAt nonempty => ?_) rfl rfl)
      rcases stillFlushed _ key other otherAt nonempty with old | ⟨rfl, rfl⟩
      · exact .inl (keeps _ old)
      · exact .inl contains
    · simp
  · refine ok.step (((OthersSame.refl ..).setBuffer ..).appended' ..) (rowBuffer_setRow rfl)
      (.inl ⟨?_, rfl⟩) (unowned _) ?_ ?_
    · rw [noHand, State.hand, appended_pc]
      rfl
    · rw [appended_pc]
      refine ⟨fun impossible => (by cases impossible), mine.registered, fun key other same => ?_,
        fun key other otherAt nonempty => ?_, fun _ impossible => (by cases impossible)⟩
      · cases same
        exact at'
      · rcases stillFlushed _ key other otherAt nonempty with old | ⟨rfl, rfl⟩
        · exact .inl old
        · exact .inr rfl
    · simp

theorem BuffersOk.initializes (ok : BuffersOk state) {maxSlots : Nat} {item : Item Operation}
    {rest : List (Item Operation)} (front : state.todo worker = item :: rest)
    (at' : state.pc worker = pc) (move : Initializes maxSlots state worker item rest pc after) :
    BuffersOk after := by
  have mine := ok.workers worker
  have unowned (buffer : Nat) (free : ∀ key, state.rowBuffer key ≠ some buffer) :
      state.own.buffers buffer worker = [] := ok.unowned buffer free worker
  rw [at'] at mine
  cases move with
  | contended installed =>
    refine ok.untouched (untouched_goto ..) (by simp [at', Pc.hand])
      (by simp [at', Pc.flushing]) (by simp [Pc.target]) (by simp [Pc.drained]) ?_
    intro other otherRest b otherFront there
    obtain ⟨rfl, -⟩ := List.cons.inj (front.symm.trans otherFront)
    rw [goto_pc] at there
    cases there
    exact installed
  | uncontended | lockTaken =>
    exact ok.plain (untouched_goto ..) (by rw [at']; rfl) (by rw [at']; rfl) (by simp [Pc.Plain])
  | locks =>
    exact ok.plain (untouched_setRow (by rfl) ..) (by rw [at']; rfl) (by rw [at']; rfl)
      (by simp [Pc.Plain])
  | appends =>
    exact ok.plain (untouched_appended (by rfl) ..) (by rw [at']; rfl) (by rw [at']; rfl)
      (by simp [Pc.Plain])
  | takesSpare spare =>
    refine ok.step (((OthersSame.refl ..).setSpare _).goto _) rfl (.inl ⟨?_, rfl⟩) unowned ?_
      (by simp)
    · rw [State.hand, State.hand, goto_pc, at', spare]
      rfl
    · rw [goto_pc]
      exact .settle (fun _ => Function.update_self ..) mine.registered mine.flushed rfl rfl
  | fetches noSpare =>
    have others : OthersSame worker state { state with own.used := state.own.used + 1 } :=
      ⟨fun _ _ => rfl, fun _ _ => rfl, fun _ _ => rfl, fun _ _ => rfl, fun _ _ _ => rfl⟩
    refine ok.step (others.goto _) rfl (.inr ⟨?_, rfl⟩) unowned ?_ (by simp)
    · rw [State.hand, goto_pc]
      rfl
    · rw [goto_pc]
      exact .settle (fun _ => noSpare) mine.registered mine.flushed rfl rfl
  | @installs buffer free =>
    refine @BuffersOk.install state _ worker ok item.op.key buffer
      (((OthersSame.refl ..).setRow ..).goto _) free (by rw [State.hand, at']; rfl)
      (fun other => ?_) ?_ rfl rfl ?_ ?_
    · refine (congrArg Value.rowBuffer (Function.update_apply ..)).trans ?_
      exact apply_ite Value.rowBuffer ..
    · rw [State.hand, goto_pc]
      exact mine.noSpare rfl
    · rw [goto_pc]
      exact .settle (by simp [Pc.hand]) mine.registered mine.flushed rfl rfl
    · intro other otherRest b otherFront there
      obtain ⟨rfl, -⟩ := List.cons.inj (front.symm.trans otherFront)
      rw [goto_pc] at there
      cases there
      exact ⟨rfl, rfl⟩
  | beaten =>
    exact ok.untouched (untouched_goto ..) (by simp [at', Pc.hand]) (by simp [at', Pc.flushing])
      (by simp [Pc.target]) (by simp [Pc.drained]) (by simp)
  | keepsSpare installed =>
    refine ok.step (((OthersSame.refl ..).setSpare _).goto _) rfl (.inl ⟨?_, rfl⟩) unowned ?_
      fun otherItem otherRest b otherFront there => ?_
    · rw [State.hand, State.hand, goto_pc, at']
      exact Function.update_self ..
    · rw [goto_pc]
      exact .settle (by simp [Pc.hand]) mine.registered mine.flushed rfl rfl
    · obtain ⟨rfl, -⟩ := List.cons.inj (front.symm.trans otherFront)
      rw [goto_pc] at there
      cases there
      exact installed
  | appendsContended => exact ok.appendContended front at'

theorem BuffersOk.flush (ok : BuffersOk state) {key buffer : Nat} {pc : Pc}
    (target : (state.pc worker).target = some (key, buffer))
    (noHand : (state.pc worker).hand = none)
    (flushing : ∀ other, (state.pc worker).flushing = some other → other = (key, buffer))
    (next : pc = .batchUnlock key ∨ pc = .finalUnlock key) :
    BuffersOk ((state.flush worker key buffer).goto worker pc) := by
  have mine := ok.workers worker
  have at' := mine.targets key buffer target
  have handSame : pc.hand = none := by rcases next with rfl | rfl <;> rfl
  have slots := setBuffer_slots (state.setRow key ((state.rows key).batchAppend
    (state.own.buffers buffer worker) state.epoch)) buffer worker []
  have cleared (other : Nat) :
      ((state.flush worker key buffer).goto worker pc).own.buffers other worker =
      if other = buffer then [] else state.own.buffers other worker := by
    refine (congrFun slots other).trans ?_
    by_cases same : other = buffer
    · subst same
      rw [Function.update_self, if_pos rfl]
    · rw [Function.update_of_ne same, if_neg same]
      rfl
  refine ok.step ((((OthersSame.refl ..).setRow ..).setBuffer ..).goto _) (rowBuffer_setRow rfl)
    (.inl ⟨?_, rfl⟩) (fun other free => ?_) ?_ fun _ _ _ _ impossible => ?_
  · rw [State.hand, State.hand, goto_pc, handSame, noHand]
    rfl
  · rw [cleared]
    split
    · rfl
    · exact ok.unowned other free worker
  · rw [goto_pc]
    refine ⟨fun held => ?_, mine.registered, fun _ _ impossible => ?_,
      fun other b otherAt nonempty => ?_, fun other drained => ?_⟩
    · rw [handSame] at held
      cases held
    · rcases next with rfl | rfl <;> cases impossible
    · rw [cleared] at nonempty
      split at nonempty
      · exact absurd rfl nonempty
      next differs =>
        refine .inl ((mine.flushed other b otherAt nonempty).resolve_right fun isFlushing => ?_)
        exact differs (congrArg Prod.snd (flushing _ isFlushing))
    · rcases next with rfl | rfl
      · cases drained
      · cases drained
        exact ⟨buffer, at', by rw [cleared, if_pos rfl]⟩
  · rw [goto_pc] at impossible
    rcases next with rfl | rfl <;> cases impossible

theorem BuffersOk.flushes (ok : BuffersOk state) (at' : state.pc worker = pc)
    (move : Flushes state worker pc after) : BuffersOk after := by
  have mine := ok.workers worker
  cases move with
  | unlock | batchUnlock =>
    exact ok.plain (untouched_setRow (by rfl) ..) (by rw [at']; rfl) (by rw [at']; rfl)
      (by simp [Pc.Plain])
  | batchLock =>
    refine ok.untouched (untouched_setRow (by rfl) ..) (by simp [at', Pc.hand])
      (by simp [at', Pc.flushing]) (fun other b same => ?_) (by simp [Pc.drained]) (by simp)
    rw [goto_pc] at same
    exact mine.targets other b (by rw [at']; exact same)
  | batchAppend =>
    exact ok.flush (by rw [at']; rfl) (by rw [at']; rfl) (by simp [at', Pc.flushing]) (.inl rfl)
  | finalAppend =>
    exact ok.flush (by rw [at']; rfl) (by rw [at']; rfl) (by simp [at', Pc.flushing]) (.inr rfl)
  | @finalUnlock key =>
    obtain ⟨buffer, installed, empty⟩ := mine.drained key (by rw [at']; rfl)
    rw [at'] at mine
    refine ok.step ((((OthersSame.refl ..).setRow ..).setAppended _).goto _) (rowBuffer_setRow rfl)
      (.inl ⟨?_, rfl⟩) (fun other free => ok.unowned other free worker) ?_ (by simp)
    · rw [State.hand, State.hand, goto_pc, at']
      rfl
    · rw [goto_pc]
      refine (congrArg (WorkerOk _ _ _ _) (setAppended_appended (state.setLocked key false) worker
        _)).mpr (.settle (by simp [Pc.hand]) (fun other b member => ?_)
        (fun other b otherAt nonempty => ?_) rfl rfl)
      · exact mine.registered other b (List.mem_of_mem_filter member)
      · refine .inl (List.mem_filter.mpr
          ⟨(mine.flushed other b otherAt nonempty).resolve_right (by simp [Pc.flushing]), ?_⟩)
        simp only [ne_eq, decide_not, Bool.not_eq_eq_eq_not, Bool.not_true,
          decide_eq_false_iff_not]
        rintro rfl
        obtain rfl := Option.some.inj (installed.symm.trans otherAt)
        exact nonempty empty

theorem BuffersOk.refill (ok : BuffersOk state) (quiet : state.Quiet) {epoch : Nat}
    {phase : Phase} {todo : Worker → List (Item Operation)} :
    BuffersOk { state with epoch, phase, todo } := by
  refine ⟨ok.installed, ok.unique, ok.hand, ok.handUnique, ok.unowned, ok.workers,
    fun worker _ _ _ _ there => ?_⟩
  rw [(quiet worker).2.1] at there
  cases there

theorem step_buffersOk (ok : BuffersOk state) {maxSlots : Nat} {load : Workload} {label : Label}
    (step : state.step maxSlots load label = some after) : BuffersOk after := by
  cases transition_of_step step with
  | initializes _ front at' move => exact ok.initializes front at' move
  | executes _ _ at' move => exact ok.executes at' move
  | flushes at' move => exact ok.flushes at' move
  | @finalizes worker key buffer _ at' entry =>
    refine ok.untouched (untouched_setRow (by rfl) ..) (by simp [at', Pc.hand])
      (by simp [at', Pc.flushing]) (fun other b same => ?_) (by simp [Pc.drained]) (by simp)
    rw [goto_pc] at same
    cases same
    exact (ok.workers worker).registered _ _ entry
  | skips => exact ok
  | barrier _ quiet | newEpoch _ quiet => exact ok.refill quiet

theorem BuffersOk.quiet_empty (ok : BuffersOk state) (quiet : state.Quiet) {key buffer : Nat}
    (at' : state.rowBuffer key = some buffer) (core : Worker) :
    state.own.buffers buffer core = [] := by
  by_contra nonempty
  obtain ⟨-, pc, entries⟩ := quiet core
  rcases (ok.workers core).flushed key buffer at' nonempty with member | flushing
  · rw [entries] at member
    cases member
  · rw [pc] at flushing
    cases flushing

end Steps

end TpccRunner.Caracal
