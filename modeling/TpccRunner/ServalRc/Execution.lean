import TpccRunner.ServalRc.Phases

/-!
# The execution phase of a row

`slots` are the placeholders as the read phase left them.  While readers are
still to come the row keeps them; the last reader promotes the last one.  With
no reader in the epoch, the first writer to call decides: it becomes the master
when it is the final writer, and in either case it clears the bitmaps.
-/

set_option autoImplicit false

namespace TpccRunner.ServalRc

open TpccRunner.Utils TpccRunner.Lib
open SortedVector (Ascending)

def promoted (slots : List (Nat × Nat)) (startMaster : Nat) : Nat :=
  (slots.getLast?.map Prod.snd).getD startMaster

def WriteBitmap.Cleared (row : WriteBitmap) : Prop := row.coreBitmap = 0 ∧ row.txBitmaps = []

section Definitions
variable (state : State) (slots : List (Nat × Nat))

def Target (serial pointer : Nat) : Prop :=
  (serial, pointer) ∈ slots ∨
    (state.readers = ∅ ∧ serial ∈ state.identified.head? ∧ IsGreatest state.writers serial ∧
      state.mem.row.master = pointer)

def ReadRight (serial : Nat) (record : Option Record) : Prop :=
  (∃ writer, GreatestBelow state.writers serial (some writer) ∧
    record = some (.written state.epoch writer)) ∨
  (GreatestBelow state.writers serial none ∧ record = state.startVersion.record)

def PcOk (worker : Worker) : Pc → Prop
  | .next => True
  | .loadRecord pointer => ∃ reader rest,
      state.todo worker = itemOf reader .read :: rest ∧ pointer = state.pending reader ∧
      (state.mem.versions pointer).status = .stable
  | .decrement record => ∃ reader rest,
      state.todo worker = itemOf reader .read :: rest ∧
      (state.mem.versions (state.pending reader)).status = .stable ∧ ReadRight state reader record
  | .returnRead reader record => ReadRight state reader record
  | .storeRecord serial pointer =>
    remainderOwner serial = worker ∧ Target state slots serial pointer
  | .storeStable serial pointer =>
    remainderOwner serial = worker ∧ Target state slots serial pointer ∧
      (state.mem.versions pointer).record = some (.written state.epoch serial)

def Installed (first : Nat) : Prop :=
  state.mem.row.master < state.mem.next ∧ state.mem.row.master ≠ state.startMaster ∧
    (state.pc (remainderOwner first) = .storeRecord first state.mem.row.master ∨
      state.pc (remainderOwner first) = .storeStable first state.mem.row.master ∨
      state.mem.versions state.mem.row.master = ⟨some (.written state.epoch first), .stable⟩)

structure Unread : Prop where
  placeholders : state.mem.row.placeholders = []
  before : state.identified = [] →
    Registered state.mem.row state.writers ∧ state.mem.row.master = state.startMaster
  cleared : ∀ first ∈ state.identified.head?, state.mem.row.Cleared
  final : ∀ first ∈ state.identified.head?, IsGreatest state.writers first → Installed state first
  lost : ∀ first ∈ state.identified.head?, ¬ IsGreatest state.writers first →
    state.mem.row.master = state.startMaster

structure ReadRow : Prop where
  busy : state.mem.row.refCnt ≠ 0 → Registered state.mem.row state.writers ∧
    state.mem.row.placeholders = slots ∧ state.mem.row.master = state.startMaster
  drained : state.mem.row.refCnt = 0 → state.mem.row.Cleared ∧ state.mem.row.placeholders = [] ∧
    state.mem.row.master = promoted slots state.startMaster

structure Executing : Prop extends Base state where
  phase : state.phase = .exec
  todo : TodoOk remainderOwner state.workload (fun _ => true) state.todo
  count : state.mem.row.refCnt = {reader ∈ state.readers | state.Left reader .read}.ncard
  placed : Placed state.writers state.startMaster state.mem.next state.pending slots state.readers
  contents : ∀ slot ∈ slots, (state.mem.versions slot.2).status = .stable →
    (state.mem.versions slot.2).record = some (.written state.epoch slot.1)
  unread : state.readers = ∅ → Unread state
  read : state.readers ≠ ∅ → ReadRow state slots
  pcs : ∀ worker, PcOk state slots worker (state.pc worker)
  doneReads : ∀ reader ∈ state.readers, ¬ state.Left reader .read →
    (state.mem.versions (state.pending reader)).status = .stable
  called : ∀ writer ∈ state.writers, state.Left writer .update ∨ writer ∈ state.identified
  callers : ∀ writer ∈ state.identified, writer ∈ state.writers

end Definitions

structure SameEpoch (before after : State) : Prop where
  epoch : after.epoch = before.epoch
  workload : after.workload = before.workload
  phase : after.phase = before.phase
  pending : after.pending = before.pending
  startMaster : after.startMaster = before.startMaster
  startVersion : after.startVersion = before.startVersion

namespace SameEpoch
variable {before after : State} (same : SameEpoch before after)
include same

theorem writers : after.writers = before.writers := by
  rw [State.writers, State.writers, same.workload]

theorem readers : after.readers = before.readers := by
  rw [State.readers, State.readers, same.workload]

theorem readRight {reader : Nat} {record : Option Record} (right : ReadRight before reader record) :
    ReadRight after reader record := by
  rw [ReadRight, same.writers, same.epoch, same.startVersion]
  exact right

end SameEpoch

section Facts
variable {state : State} {slots : List (Nat × Nat)}

theorem Executing.slots_nil (inv : Executing state slots) (none : state.readers = ∅) :
    slots = [] := by
  rw [List.eq_nil_iff_forall_not_mem]
  rintro ⟨writer, pointer⟩ member
  obtain ⟨reader, readerMem, -⟩ := (inv.placed.ids writer).mp ⟨pointer, member⟩
  rw [none] at readerMem
  exact readerMem

theorem Executing.pending_lt (inv : Executing state slots) {reader : Nat}
    (member : reader ∈ state.readers) : state.pending reader < state.mem.next := by
  rcases inv.placed.given reader member with ⟨slot, slotMem, -, same⟩ | ⟨-, same⟩
  · rw [same]
    exact (inv.placed.bounded slot slotMem).1
  · rw [same]
    exact inv.start

theorem Executing.target_lt (inv : Executing state slots) {serial pointer : Nat}
    (target : Target state slots serial pointer) :
    pointer < state.mem.next ∧ pointer ≠ state.startMaster := by
  rcases target with slot | ⟨none, first, final, same⟩
  · exact inv.placed.bounded _ slot
  · obtain ⟨bound, differs, -⟩ := (inv.unread none).final serial first final
    rw [same] at bound differs
    exact ⟨bound, differs⟩

theorem Executing.readRight (inv : Executing state slots) {reader : Nat}
    (member : reader ∈ state.readers)
    (stable : (state.mem.versions (state.pending reader)).status = .stable) :
    ReadRight state reader (state.mem.versions (state.pending reader)).record := by
  rcases inv.placed.given reader member with ⟨slot, slotMem, greatest, same⟩ | ⟨none, same⟩
  · rw [same] at stable ⊢
    exact .inl ⟨slot.1, greatest, inv.contents slot slotMem stable⟩
  · rw [same, inv.startKept]
    exact .inr ⟨none, rfl⟩

/-- Two writers never fill the same version. -/
theorem Executing.target_unique (inv : Executing state slots) {one two pointer : Nat}
    (first : Target state slots one pointer) (second : Target state slots two pointer) :
    one = two := by
  rcases first with slot | ⟨none, head, final, -⟩
  · rcases second with slot' | ⟨none, -⟩
    · have := inv.placed.distinct _ slot _ slot' rfl
      exact congrArg Prod.fst this
    · rw [inv.slots_nil none] at slot
      cases slot
  · rcases second with slot' | ⟨-, -, final', -⟩
    · rw [inv.slots_nil none] at slot'
      cases slot'
    · exact final.unique final'

theorem Executing.pcOk_transfer (inv : Executing state slots) {after : State}
    (same : SameEpoch state after) {worker : Worker} {pc : Pc} (ok : PcOk state slots worker pc)
    (todo : after.todo worker = state.todo worker)
    (stable : ∀ pointer < state.mem.next, (state.mem.versions pointer).status = .stable →
      (after.mem.versions pointer).status = .stable)
    (target : ∀ serial pointer, Target state slots serial pointer →
      Target after slots serial pointer ∧
      ((state.mem.versions pointer).record = some (.written state.epoch serial) →
        (after.mem.versions pointer).record = some (.written state.epoch serial))) :
    PcOk after slots worker pc := by
  have reading {reader : Nat} {rest : List (Item Ope)}
      (front : state.todo worker = itemOf reader .read :: rest) :
      state.pending reader < state.mem.next := by
    obtain ⟨bound, -, member, -⟩ := inv.todo.head front
    exact inv.pending_lt ⟨bound, member⟩
  cases pc with
  | next => trivial
  | loadRecord pointer =>
    obtain ⟨reader, rest, front, rfl, isStable⟩ := ok
    exact ⟨reader, rest, todo.trans front, by rw [same.pending],
      stable _ (reading front) isStable⟩
  | decrement record =>
    obtain ⟨reader, rest, front, isStable, isRight⟩ := ok
    refine ⟨reader, rest, todo.trans front, ?_, same.readRight isRight⟩
    rw [same.pending]
    exact stable _ (reading front) isStable
  | returnRead reader record => exact same.readRight ok
  | storeRecord serial pointer => exact ⟨ok.1, (target _ _ ok.2).1⟩
  | storeStable serial pointer =>
    refine ⟨ok.1, (target _ _ ok.2.1).1, ?_⟩
    rw [same.epoch]
    exact (target _ _ ok.2.1).2 ok.2.2

theorem Executing.setPc (inv : Executing state slots) {worker : Worker} {pc : Pc}
    (idle : ∀ serial pointer, state.pc worker ≠ .storeRecord serial pointer ∧
      state.pc worker ≠ .storeStable serial pointer)
    (ok : PcOk state slots worker pc) : Executing (state.setPc worker pc) slots := by
  refine { inv with unread := fun none => ?_, read := fun some => ?_, pcs := fun other => ?_ }
  · obtain ⟨placeholders, before, cleared, final, lost⟩ := inv.unread none
    refine ⟨placeholders, before, cleared, fun first head greatest => ?_, lost⟩
    obtain ⟨bound, differs, progress⟩ := final first head greatest
    refine ⟨bound, differs, ?_⟩
    by_cases same : remainderOwner first = worker
    · subst same
      rcases progress with storing | storing | done
      · exact absurd storing (idle _ _).1
      · exact absurd storing (idle _ _).2
      · exact .inr (.inr done)
    · simpa only [State.setPc, Function.update_of_ne same] using progress
  · exact ⟨(inv.read some).busy, (inv.read some).drained⟩
  · by_cases same : other = worker
    · subst same
      have moved : (state.setPc other pc).pc other = pc := Function.update_self ..
      rw [moved]
      exact ok
    · have stays : (state.setPc worker pc).pc other = state.pc other :=
        Function.update_of_ne same ..
      rw [stays]
      exact inv.pcs other

end Facts

section Reads
variable {state : State} {slots : List (Nat × Nat)} {worker : Worker}

theorem Executing.beginRead (inv : Executing state slots) {item : Item Ope} {rest : List (Item Ope)}
    (atNext : state.pc worker = .next) (front : state.todo worker = item :: rest)
    (isRead : item.op = .read)
    (stable : (state.mem.versions (state.pending item.turn.serial)).status = .stable) :
    Executing (state.setPc worker (.loadRecord (state.pending item.turn.serial))) slots := by
  obtain ⟨-, shape, -⟩ := inv.todo.head front
  refine inv.setPc (by simp [atNext]) ⟨item.turn.serial, rest, ?_, rfl, stable⟩
  rw [front, ← isRead, ← shape]

theorem Executing.loadRecord (inv : Executing state slots) {pointer : Nat}
    (atLoad : state.pc worker = .loadRecord pointer) :
    Executing (state.setPc worker (.decrement (state.mem.versions pointer).record)) slots := by
  have ok := inv.pcs worker
  rw [atLoad] at ok
  obtain ⟨reader, rest, front, rfl, stable⟩ := ok
  obtain ⟨bound, -, member, -⟩ := inv.todo.head front
  exact inv.setPc (by simp [atLoad])
    ⟨reader, rest, front, stable, inv.readRight ⟨bound, member⟩ stable⟩

theorem Executing.returnRead (inv : Executing state slots) {reader : Nat} {record : Option Record}
    (atReturn : state.pc worker = .returnRead reader record) :
    Executing (state.setPc worker .next) slots :=
  inv.setPc (by simp [atReturn]) trivial

theorem decrementRefCnt_more {mem : Memory} (more : uint64Pred mem.row.refCnt ≠ 0) :
    mem.decrementRefCnt = { mem with row := { mem.row with
      refCnt := uint64Pred mem.row.refCnt } } := by
  rw [Memory.decrementRefCnt]
  exact if_neg more

theorem decrementRefCnt_last {mem : Memory} (last : uint64Pred mem.row.refCnt = 0) :
    mem.decrementRefCnt.row.refCnt = 0 ∧ mem.decrementRefCnt.versions = mem.versions ∧
      mem.decrementRefCnt.next = mem.next ∧ mem.decrementRefCnt.row.Cleared ∧
      mem.decrementRefCnt.row.placeholders = [] ∧
      mem.decrementRefCnt.row.master = promoted mem.row.placeholders mem.row.master := by
  have taken : mem.decrementRefCnt = { mem with row := { mem.row with
      refCnt := uint64Pred mem.row.refCnt } }.gcAndUpdateMaster := by
    rw [Memory.decrementRefCnt]
    exact if_pos last
  rw [taken, last, Memory.gcAndUpdateMaster]
  cases slots : mem.row.placeholders.getLast? with
  | none =>
    have empty := List.getLast?_eq_none_iff.mp slots
    exact ⟨rfl, rfl, rfl, ⟨rfl, rfl⟩, empty, by rw [promoted, slots]; rfl⟩
  | some slot =>
    exact ⟨rfl, rfl, rfl, ⟨rfl, rfl⟩, rfl, by rw [promoted, slots]; rfl⟩

theorem decrementRefCnt_spec {mem : Memory} (positive : mem.row.refCnt ≠ 0) :
    mem.decrementRefCnt.row.refCnt = mem.row.refCnt - 1 ∧
    mem.decrementRefCnt.versions = mem.versions ∧ mem.decrementRefCnt.next = mem.next ∧
    (mem.row.refCnt ≠ 1 → mem.decrementRefCnt.row = { mem.row with refCnt := mem.row.refCnt - 1 }) ∧
    (mem.row.refCnt = 1 → mem.decrementRefCnt.row.Cleared ∧
      mem.decrementRefCnt.row.placeholders = [] ∧
      mem.decrementRefCnt.row.master = promoted mem.row.placeholders mem.row.master) := by
  have less := uint64Pred_of_pos positive
  by_cases one : mem.row.refCnt = 1
  · have zero : uint64Pred mem.row.refCnt = 0 := by omega
    obtain ⟨refCnt, versions, next, promotes⟩ := decrementRefCnt_last zero
    exact ⟨by omega, versions, next, fun more => absurd one more, fun _ => promotes⟩
  · have more : uint64Pred mem.row.refCnt ≠ 0 := by omega
    rw [decrementRefCnt_more more, less]
    exact ⟨rfl, rfl, rfl, fun _ => rfl, fun last => absurd last one⟩

theorem Executing.decrement (inv : Executing state slots) {record : Option Record} {item : Item Ope}
    {rest : List (Item Ope)} {after : State} (atDecrement : state.pc worker = .decrement record)
    (front : state.todo worker = item :: rest) (same : SameEpoch state after)
    (mem : after.mem = state.mem.decrementRefCnt)
    (todo : after.todo = Function.update state.todo worker rest)
    (pc : after.pc = Function.update state.pc worker (.returnRead item.turn.serial record))
    (identified : after.identified = state.identified) : Executing after slots := by
  have ok := inv.pcs worker
  rw [atDecrement] at ok
  obtain ⟨reader, rest', front', stable, right⟩ := ok
  obtain ⟨bound, -, member, -⟩ := inv.todo.head front'
  obtain ⟨rfl, rfl⟩ : item = itemOf reader .read ∧ rest = rest' := by
    rw [front] at front'
    exact List.cons_eq_cons.mp front'
  have readerMem : reader ∈ state.readers := ⟨bound, member⟩
  have readers : state.readers ≠ ∅ := Set.Nonempty.ne_empty ⟨reader, readerMem⟩
  have waiting : state.Left reader .read := Worklist.remains_head front
  have left (other : Nat) (ope : Ope) : after.Left other ope ↔
      state.Left other ope ∧ ¬ (other = reader ∧ ope = .read) := by
    rw [State.Left, todo]
    exact inv.todo.left_pop front
  have finite : {other ∈ state.readers | state.Left other .read}.Finite :=
    (readers_finite state).subset fun _ member => member.1
  have remaining : {other ∈ state.readers | after.Left other .read} =
      {other ∈ state.readers | state.Left other .read} \ {reader} := by
    ext other
    simp only [Set.mem_ofPred_eq, left, Set.mem_sdiff, Set.mem_singleton_iff]
    tauto
  have counted : {other ∈ state.readers | after.Left other .read}.ncard =
      state.mem.row.refCnt - 1 := by
    rw [remaining, Set.ncard_sdiff_singleton_of_mem
      (Set.mem_sep readerMem waiting), inv.count]
  have positive : state.mem.row.refCnt ≠ 0 := by
    rw [inv.count]
    exact ((Set.ncard_pos finite).mpr ⟨reader, Set.mem_sep readerMem waiting⟩).ne'
  obtain ⟨refCnt, versions, next, more, last⟩ := decrementRefCnt_spec positive
  rw [← mem] at refCnt versions next more last
  obtain ⟨registered, placeholders, master⟩ := (inv.read readers).busy positive
  refine {
      start := by rw [same.startMaster, next]; exact inv.start
      startKept := by rw [same.startMaster, same.startVersion, versions]; exact inv.startKept
      startStable := by rw [same.startVersion]; exact inv.startStable
      startOld := by rw [same.startVersion, same.epoch]; exact inv.startOld
      phase := same.phase.trans inv.phase
      todo := by rw [same.workload, todo]; exact inv.todo.pop front
      count := by rw [same.readers, counted, refCnt]
      placed := by
        rw [same.writers, same.readers, same.startMaster, same.pending, next]
        exact inv.placed
      contents := by rw [versions, same.epoch]; exact inv.contents
      unread := fun none => absurd (same.readers.symm.trans none) readers
      read := fun _ => ⟨fun busy => ?_, fun drained => ?_⟩
      pcs := fun other => ?_
      doneReads := fun other otherMem notLeft => ?_
      called := fun writer writerMem => ?_
      callers := by rw [identified, same.writers]; exact inv.callers }
  · have row := more (by omega)
    rw [same.writers, same.startMaster]
    exact ⟨registered.congr (by rw [row]) (by rw [row]), by rw [row]; exact placeholders,
      by rw [row]; exact master⟩
  · have promotes := last (by omega)
    rw [placeholders, master, ← same.startMaster] at promotes
    exact promotes
  · by_cases here : other = worker
    · rw [pc, here, Function.update_self]
      exact same.readRight right
    · rw [pc, Function.update_of_ne here]
      refine inv.pcOk_transfer same (inv.pcs other) (by rw [todo, Function.update_of_ne here]) ?_ ?_
      · intro pointer _ isStable
        rwa [versions]
      · rintro serial pointer (slot | ⟨none, -⟩)
        · exact ⟨.inl slot, fun recorded => by rwa [versions]⟩
        · exact absurd none readers
  · rw [versions, same.pending]
    rw [same.readers] at otherMem
    by_cases here : other = reader
    · rw [here]
      exact stable
    · exact inv.doneReads other otherMem fun still => notLeft ((left other _).mpr ⟨still, by
        simp [here]⟩)
  · rw [same.writers] at writerMem
    rw [identified, left]
    rcases inv.called writer writerMem with still | done
    · exact .inl ⟨still, by simp⟩
    · exact .inr done

end Reads

section Writes
variable {state after : State} {slots : List (Nat × Nat)} {worker : Worker} {item : Item Ope}
  {rest : List (Item Ope)}

theorem identifyWriteVersion_busy {mem : Memory} (busy : mem.row.refCnt ≠ 0) (core tx : Nat) :
    mem.identifyWriteVersion core tx =
      ((mem.row.placeholders.find? (·.1 = serialId (core, tx))).map Prod.snd, mem) := by
  rw [Memory.identifyWriteVersion, if_pos busy]

theorem identifyWriteVersion_cleared {mem : Memory} (free : mem.row.refCnt = 0)
    (cleared : mem.row.Cleared) (core tx : Nat) :
    mem.identifyWriteVersion core tx = (none, mem) := by
  simp only [Memory.identifyWriteVersion, free, ne_eq, not_true_eq_false, if_false,
    WriteBitmap.isFinalState, cleared.1, Bool.false_eq_true]

theorem identifyWriteVersion_first {mem : Memory} {writers : Set Nat} (free : mem.row.refCnt = 0)
    (registered : Registered mem.row writers) {core tx : Nat} (txBound : tx < 64) :
    (IsGreatest writers (serialId (core, tx)) → mem.identifyWriteVersion core tx =
      (some mem.next, { mem with
        row := { mem.row.clearBitmaps with master := mem.next }
        versions := Function.update mem.versions mem.next {}, next := mem.next + 1
        freed := mem.row.master :: mem.freed })) ∧
    (¬ IsGreatest writers (serialId (core, tx)) → mem.identifyWriteVersion core tx =
      (none, { mem with row := mem.row.clearBitmaps })) := by
  obtain ⟨final, cleared⟩ := @isFinalState_spec _ _ core _ registered txBound
  rcases called : mem.row.isFinalState core tx with ⟨isFinal, row⟩
  rw [called] at final cleared
  simp only at final cleared
  subst cleared
  constructor
  · intro greatest
    simp only [Memory.identifyWriteVersion, free, ne_eq, not_true_eq_false, if_false, called,
      final.mpr greatest, if_true]
    rfl
  · intro notGreatest
    have notFinal : isFinal = false := by
      rw [← Bool.not_eq_true, final]
      exact notGreatest
    simp only [Memory.identifyWriteVersion, free, ne_eq, not_true_eq_false, if_false, called,
      notFinal, Bool.false_eq_true]

/-- The worker calls `identify_write_version`. -/
structure Identifies (state after : State) (worker : Worker) (item : Item Ope)
    (rest : List (Item Ope)) (found : Option Nat) : Prop where
  atNext : state.pc worker = .next
  front : state.todo worker = item :: rest
  isUpdate : item.op = .update
  same : SameEpoch state after
  todo : after.todo = Function.update state.todo worker rest
  identified : after.identified = state.identified ++ [item.turn.serial]
  result : state.mem.identifyWriteVersion item.turn.core (item.turn.serial % 64) =
    (found, after.mem)
  pc : after.pc = found.elim state.pc
    fun pointer => Function.update state.pc worker (.storeRecord item.turn.serial pointer)

variable {found : Option Nat}

theorem Executing.of_call (inv : Executing state slots)
    (call : Identifies state after worker item rest found)
    (refCnt : after.mem.row.refCnt = state.mem.row.refCnt) (next : state.mem.next ≤ after.mem.next)
    (versions : ∀ old < state.mem.next, after.mem.versions old = state.mem.versions old)
    (unread : after.readers = ∅ → Unread after) (read : after.readers ≠ ∅ → ReadRow after slots)
    (pcs : ∀ worker, PcOk after slots worker (after.pc worker)) : Executing after slots := by
  obtain ⟨-, front, isUpdate, same, todo, identified, -⟩ := call
  obtain ⟨bound, shape, member, -⟩ := inv.todo.head front
  have left (other : Nat) (ope : Ope) : after.Left other ope ↔
      state.Left other ope ∧ ¬ (other = item.turn.serial ∧ ope = .update) := by
    rw [State.Left, todo, ← isUpdate]
    exact inv.todo.left_pop front
  have leftRead (other : Nat) : after.Left other .read ↔ state.Left other .read := by
    simp [left]
  exact {
    start := by rw [same.startMaster]; exact inv.start.trans_le next
    startKept := by
      rw [same.startMaster, same.startVersion, versions _ inv.start]
      exact inv.startKept
    startStable := by rw [same.startVersion]; exact inv.startStable
    startOld := by rw [same.startVersion, same.epoch]; exact inv.startOld
    phase := same.phase.trans inv.phase
    todo := by rw [same.workload, todo]; exact inv.todo.pop front
    count := by
      rw [same.readers, refCnt, inv.count]
      simp only [leftRead]
    placed := by
      rw [same.writers, same.readers, same.startMaster, same.pending]
      exact { inv.placed with
        bounded := fun slot slotMem => ⟨(inv.placed.bounded slot slotMem).1.trans_le next,
          (inv.placed.bounded slot slotMem).2⟩ }
    contents := by
      intro slot slotMem
      rw [versions _ (inv.placed.bounded slot slotMem).1, same.epoch]
      exact inv.contents slot slotMem
    unread := unread
    read := read
    pcs := pcs
    doneReads := by
      intro other otherMem notLeft
      rw [same.readers] at otherMem
      rw [same.pending, versions _ (inv.pending_lt otherMem)]
      exact inv.doneReads other otherMem fun still => notLeft ((leftRead other).mpr still)
    called := by
      intro writer writerMem
      rw [same.writers] at writerMem
      rw [identified, List.mem_append, List.mem_singleton, left]
      rcases inv.called writer writerMem with still | done
      · by_cases here : writer = item.turn.serial
        · exact .inr (.inr here)
        · exact .inl ⟨still, by simp [here]⟩
      · exact .inr (.inl done)
    callers := by
      intro writer writerMem
      rw [identified, List.mem_append, List.mem_singleton] at writerMem
      rw [same.writers]
      rcases writerMem with earlier | rfl
      · exact inv.callers writer earlier
      · exact ⟨bound, by rwa [← isUpdate]⟩ }

theorem Executing.pcs_of_call (inv : Executing state slots)
    (call : Identifies state after worker item rest found)
    (versions : ∀ old < state.mem.next, after.mem.versions old = state.mem.versions old)
    (target : ∀ other pointer, Target state slots other pointer →
      Target after slots other pointer)
    (new : ∀ pointer ∈ found, remainderOwner item.turn.serial = worker ∧
      Target after slots item.turn.serial pointer)
    (other : Worker) : PcOk after slots other (after.pc other) := by
  obtain ⟨atNext, -, -, same, todo, -, -, pc⟩ := call
  by_cases here : other = worker
  · subst here
    cases found with
    | none =>
      rw [pc, Option.elim_none, atNext]
      trivial
    | some pointer =>
      rw [pc, Option.elim_some, Function.update_self]
      exact new pointer rfl
  · have stays : after.pc other = state.pc other := by
      cases found with
      | none => rw [pc, Option.elim_none]
      | some pointer => rw [pc, Option.elim_some, Function.update_of_ne here]
    rw [stays]
    refine inv.pcOk_transfer same (inv.pcs other) (by rw [todo, Function.update_of_ne here]) ?_ ?_
    · intro pointer bounded isStable
      rwa [versions pointer bounded]
    · intro serial pointer old
      refine ⟨target serial pointer old, fun recorded => ?_⟩
      rwa [versions pointer (inv.target_lt old).1]

theorem Executing.identify_read (inv : Executing state slots) (readers : state.readers ≠ ∅)
    (call : Identifies state after worker item rest found) : Executing after slots := by
  have same := call.same
  have result := call.result
  obtain ⟨-, -, -, -, owner⟩ := inv.todo.head call.front
  have own := inv.todo.serialId_head call.front
  obtain ⟨mem, slot⟩ :
      after.mem = state.mem ∧ ∀ pointer ∈ found, (item.turn.serial, pointer) ∈ slots := by
    by_cases busy : state.mem.row.refCnt = 0
    · rw [identifyWriteVersion_cleared busy ((inv.read readers).drained busy).1,
        Prod.mk.injEq] at result
      obtain ⟨rfl, mem⟩ := result
      exact ⟨mem.symm, by simp⟩
    · rw [identifyWriteVersion_busy busy, Prod.mk.injEq, own,
        ((inv.read readers).busy busy).2.1] at result
      obtain ⟨rfl, mem⟩ := result
      refine ⟨mem.symm, fun pointer got => ?_⟩
      obtain ⟨⟨serial, _⟩, foundEq, rfl⟩ := Option.map_eq_some_iff.mp got
      have id : serial = item.turn.serial := by simpa using List.find?_some foundEq
      rw [← id]
      exact List.mem_of_find?_eq_some foundEq
  refine inv.of_call call (by rw [mem]) (by rw [mem])
    (fun _ _ => by rw [mem]) (fun none => absurd (same.readers.symm.trans none) readers)
    (fun _ => ?_) ?_
  · constructor
    · rw [mem, same.writers, same.startMaster]
      exact (inv.read readers).busy
    · rw [mem, same.startMaster]
      exact (inv.read readers).drained
  · refine inv.pcs_of_call call (fun _ _ => by rw [mem]) ?_
      fun pointer got => ⟨owner, .inl (slot pointer got)⟩
    rintro other pointer (member | ⟨none, -⟩)
    · exact .inl member
    · exact absurd none readers

theorem Executing.identify_later (inv : Executing state slots) (unread : state.readers = ∅)
    (later : state.identified ≠ [])
    (call : Identifies state after worker item rest found) : Executing after slots := by
  have same := call.same
  have identified := call.identified
  have result := call.result
  have row := inv.unread unread
  obtain ⟨first, others, split⟩ := List.exists_cons_of_ne_nil later
  have head : state.identified.head? = some first := by rw [split]; rfl
  have head' : after.identified.head? = some first := by rw [identified, split]; rfl
  have free : state.mem.row.refCnt = 0 := by rw [inv.count, unread]; simp
  rw [identifyWriteVersion_cleared free (row.cleared first head), Prod.mk.injEq] at result
  obtain ⟨rfl, mem⟩ := result
  have stays : after.pc = state.pc := call.pc
  refine inv.of_call call (by rw [mem]) (by rw [mem])
    (fun _ _ => by rw [mem]) (fun _ => ?_) (fun some => absurd (same.readers.trans unread) some) ?_
  · refine ⟨by rw [← mem]; exact row.placeholders, fun none => ?_, ?_, ?_, ?_⟩
    · rw [none] at head'
      cases head'
    · rw [head', ← head, ← mem]
      exact row.cleared
    · rw [head', ← head, same.writers]
      intro other otherHead greatest
      have := row.final other otherHead greatest
      rwa [Installed, ← mem, stays, same.startMaster, same.epoch]
    · rw [head', ← head, same.writers, ← mem, same.startMaster]
      exact row.lost
  · refine inv.pcs_of_call call (fun _ _ => by rw [mem]) ?_ (by simp)
    rintro other pointer (member | ⟨none, otherHead, greatest, master⟩)
    · exact .inl member
    · refine .inr ⟨same.readers.trans none, ?_, ?_, ?_⟩
      · rwa [head', ← head]
      · rwa [same.writers]
      · rwa [← mem]

/-- The first call in an epoch without readers decides what becomes of the master. -/
theorem Executing.identify_first (inv : Executing state slots) (unread : state.readers = ∅)
    (first : state.identified = [])
    (call : Identifies state after worker item rest found) : Executing after slots := by
  have same := call.same
  have identified := call.identified
  have result := call.result
  obtain ⟨-, -, -, -, owner⟩ := inv.todo.head call.front
  have own := inv.todo.serialId_head call.front
  have row := inv.unread unread
  obtain ⟨registered, master⟩ := row.before first
  have head : after.identified.head? = some item.turn.serial := by rw [identified, first]; rfl
  have free : state.mem.row.refCnt = 0 := by rw [inv.count, unread]; simp
  have noTarget (serial pointer : Nat) : ¬ Target state slots serial pointer := by
    rintro (member | ⟨-, otherHead, -⟩)
    · rw [inv.slots_nil unread] at member
      cases member
    · rw [first] at otherHead
      cases otherHead
  have isFirst {other : Nat} (otherHead : other ∈ after.identified.head?) :
      other = item.turn.serial := by
    rw [head] at otherHead
    exact (Option.some.inj otherHead).symm
  obtain ⟨final, notFinal⟩ :=
    @identifyWriteVersion_first _ _ free registered item.turn.core _
      (Nat.mod_lt item.turn.serial (by decide))
  rw [own] at final notFinal
  by_cases greatest : IsGreatest state.writers item.turn.serial
  · rw [final greatest, Prod.mk.injEq] at result
    obtain ⟨rfl, mem⟩ := result
    have newMaster : after.mem.row.master = state.mem.next := by rw [← mem]
    have old (pointer : Nat) (bounded : pointer < state.mem.next) :
        after.mem.versions pointer = state.mem.versions pointer := by
      rw [← mem]
      exact Function.update_of_ne bounded.ne ..
    have moved : after.pc =
        Function.update state.pc worker (.storeRecord item.turn.serial state.mem.next) :=
      call.pc
    refine inv.of_call call (by rw [← mem]; rfl)
      (by rw [← mem]; exact Nat.le_succ _) old (fun _ => ?_)
      (fun some => absurd (same.readers.trans unread) some) ?_
    · refine ⟨by rw [← mem]; exact row.placeholders, fun none => ?_, fun _ _ => ?_, ?_, ?_⟩
      · rw [none] at head
        cases head
      · rw [← mem]
        exact ⟨rfl, rfl⟩
      · intro other otherHead _
        rw [isFirst otherHead]
        refine ⟨?_, ?_, .inl ?_⟩
        · rw [newMaster, ← mem]
          exact Nat.lt_succ_self _
        · rw [newMaster, same.startMaster]
          exact inv.start.ne'
        · rw [moved, owner, Function.update_self, newMaster]
      · intro other otherHead notGreatest
        rw [isFirst otherHead, same.writers] at notGreatest
        exact absurd greatest notGreatest
    · refine inv.pcs_of_call call old
        (fun _ _ target => absurd target (noTarget _ _)) ?_
      rintro pointer ⟨⟩
      refine ⟨owner, .inr ⟨same.readers.trans unread, head, ?_, newMaster⟩⟩
      rwa [same.writers]
  · rw [notFinal greatest, Prod.mk.injEq] at result
    obtain ⟨rfl, mem⟩ := result
    refine inv.of_call call (by rw [← mem]; rfl)
      (by rw [← mem]) (fun _ _ => by rw [← mem]) (fun _ => ?_)
      (fun some => absurd (same.readers.trans unread) some) ?_
    · refine ⟨by rw [← mem]; exact row.placeholders, fun none => ?_, fun _ _ => ?_, ?_, ?_⟩
      · rw [none] at head
        cases head
      · rw [← mem]
        exact ⟨rfl, rfl⟩
      · intro other otherHead isGreatest
        rw [isFirst otherHead, same.writers] at isGreatest
        exact absurd isGreatest greatest
      · intro other _ _
        rw [← mem, same.startMaster]
        exact master
    · exact inv.pcs_of_call call (fun _ _ => by rw [← mem])
        (fun _ _ target => absurd target (noTarget _ _)) (by simp)

theorem Executing.fill (inv : Executing state slots) {serial pointer : Nat} {newPc : Pc}
    (target : Target state slots serial pointer) (owner : remainderOwner serial = worker)
    (same : SameEpoch state after) (row : after.mem.row = state.mem.row)
    (next : after.mem.next = state.mem.next) (todo : after.todo = state.todo)
    (identified : after.identified = state.identified)
    (pc : after.pc = Function.update state.pc worker newPc)
    (others : ∀ other, other ≠ pointer → after.mem.versions other = state.mem.versions other)
    (keeps : (state.mem.versions pointer).status = .stable →
      (after.mem.versions pointer).status = .stable)
    (records : (after.mem.versions pointer).record = some (.written state.epoch serial))
    (progress : newPc = .storeStable serial pointer ∨
      newPc = .next ∧ (after.mem.versions pointer).status = .stable) :
    Executing after slots := by
  obtain ⟨bound, notStart⟩ := inv.target_lt target
  have left : after.Left = state.Left := by
    funext other ope
    rw [State.Left, todo, State.Left]
  have stable (other : Nat) (isStable : (state.mem.versions other).status = .stable) :
      (after.mem.versions other).status = .stable := by
    by_cases here : other = pointer
    · subst here
      exact keeps isStable
    · rwa [others other here]
  have targets (other version : Nat) (old : Target state slots other version) :
      Target after slots other version := by
    rwa [Target, same.readers, identified, same.writers, row]
  refine {
      start := by rw [same.startMaster, next]; exact inv.start
      startKept := by
        rw [same.startMaster, same.startVersion, others _ notStart.symm]
        exact inv.startKept
      startStable := by rw [same.startVersion]; exact inv.startStable
      startOld := by rw [same.startVersion, same.epoch]; exact inv.startOld
      phase := same.phase.trans inv.phase
      todo := by rw [same.workload, todo]; exact inv.todo
      count := by rw [same.readers, row, left]; exact inv.count
      placed := by
        rw [same.writers, same.readers, same.startMaster, same.pending, next]
        exact inv.placed
      contents := fun slot slotMem isStable => ?_
      unread := fun none => ?_
      read := fun some => ?_
      pcs := fun other => ?_
      doneReads := fun reader readerMem done => ?_
      called := by rw [same.writers, left, identified]; exact inv.called
      callers := by rw [same.writers, identified]; exact inv.callers }
  · by_cases here : slot.2 = pointer
    · have writer : slot.1 = serial :=
        inv.target_unique (.inl (by rw [← here]; exact slotMem)) target
      rw [here, records, writer, same.epoch]
    · rw [others _ here] at isStable ⊢
      rw [same.epoch]
      exact inv.contents slot slotMem isStable
  · rw [same.readers] at none
    have unread := inv.unread none
    refine ⟨by rw [row]; exact unread.placeholders, ?_, ?_, ?_, ?_⟩
    · rw [identified, row, same.writers, same.startMaster]
      exact unread.before
    · rw [identified, row]
      exact unread.cleared
    · rw [identified, same.writers]
      intro first head greatest
      obtain ⟨masterBound, masterNew, -⟩ := unread.final first head greatest
      -- with no reader the version being filled is the new master
      have here : serial = first ∧ state.mem.row.master = pointer := by
        rcases target with slot | ⟨-, -, isGreatest, master⟩
        · rw [inv.slots_nil none] at slot
          cases slot
        · exact ⟨isGreatest.unique greatest, master⟩
      rw [Installed, row, next, same.startMaster, pc, same.epoch, ← here.1, owner,
        Function.update_self]
      refine ⟨masterBound, masterNew, .inr ?_⟩
      rw [here.2]
      rcases progress with storing | ⟨-, done⟩
      · exact .inl storing
      · refine .inr ?_
        rw [← done, ← records]
    · rw [identified, row, same.writers, same.startMaster]
      exact unread.lost
  · rw [same.readers] at some
    have read := inv.read some
    constructor
    · rw [row, same.writers, same.startMaster]
      exact read.busy
    · rw [row, same.startMaster]
      exact read.drained
  · by_cases here : other = worker
    · rw [pc, here, Function.update_self]
      rcases progress with rfl | ⟨rfl, -⟩
      · exact ⟨owner, targets _ _ target, by rw [same.epoch]; exact records⟩
      · trivial
    · rw [pc, Function.update_of_ne here]
      refine inv.pcOk_transfer same (inv.pcs other) (by rw [todo]) (fun old _ => stable old) ?_
      intro otherSerial version old
      refine ⟨targets _ _ old, fun recorded => ?_⟩
      by_cases samePointer : version = pointer
      · subst samePointer
        rw [inv.target_unique old target]
        exact records
      · rwa [others _ samePointer]
  · rw [same.readers] at readerMem
    rw [same.pending]
    rw [left] at done
    exact stable _ (inv.doneReads reader readerMem done)

theorem Executing.storeRecord (inv : Executing state slots) {serial pointer : Nat}
    (atStore : state.pc worker = .storeRecord serial pointer) (same : SameEpoch state after)
    (mem : after.mem = { state.mem with
      toHeap := state.mem.storeRecord pointer (.written state.epoch serial) })
    (todo : after.todo = state.todo) (identified : after.identified = state.identified)
    (pc : after.pc = Function.update state.pc worker (.storeStable serial pointer)) :
    Executing after slots := by
  have ok := inv.pcs worker
  rw [atStore] at ok
  refine inv.fill ok.2 ok.1 same (by rw [mem]) (by rw [mem]; rfl) todo identified pc ?_ ?_ ?_
    (.inl rfl) <;> rw [mem]
  · exact fun other differs => Heap.setVersion_of_ne _ _ differs
  · simp [Heap.storeRecord]
  · simp [Heap.storeRecord]

theorem Executing.storeStable (inv : Executing state slots) {serial pointer : Nat}
    (atStore : state.pc worker = .storeStable serial pointer) (same : SameEpoch state after)
    (mem : after.mem = { state.mem with toHeap := state.mem.storeStable pointer })
    (todo : after.todo = state.todo)
    (identified : after.identified = state.identified)
    (pc : after.pc = Function.update state.pc worker .next) : Executing after slots := by
  have ok := inv.pcs worker
  rw [atStore] at ok
  have version : after.mem.versions pointer =
      { state.mem.versions pointer with status := .stable } := by
    rw [mem, Heap.storeStable, Heap.setVersion_self]
  refine inv.fill ok.2.1 ok.1 same (by rw [mem]) (by rw [mem]; rfl) todo identified pc ?_ ?_ ?_
    (.inr ⟨rfl, by rw [version]⟩)
  · rw [mem]
    exact fun other differs => Heap.setVersion_of_ne _ _ differs
  · simp [version]
  · rw [version]
    exact ok.2.2

end Writes

end TpccRunner.ServalRc
