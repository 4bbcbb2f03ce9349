import TpccRunner.ServalRc.FinalWrite

/-!
# Awaited versions are filled

A placeholder exists because some reader waits for it.  Until it is stable, its
writer is still to come or is filling it: a writer that is awaited finds the
reference count positive and its placeholder in the row, so it never drops its
write.
-/

set_option autoImplicit false

namespace TpccRunner.ServalRc

open TpccRunner.Utils TpccRunner.Lib

section Definitions
variable (state : State)

/-- The owner of the slot is between `identify_write_version` and its last store. -/
def Filling (slot : Nat × Nat) : Prop :=
  state.pc (remainderOwner slot.1) = .storeRecord slot.1 slot.2 ∨
    state.pc (remainderOwner slot.1) = .storeStable slot.1 slot.2

def StableAt (pointer : Nat) : Prop := (state.mem.versions pointer).status = .stable

def Awaited (slots : List (Nat × Nat)) : Prop :=
  ∀ slot ∈ slots, StableAt state slot.2 ∨ state.Left slot.1 .update ∨ Filling state slot

end Definitions

section Steps
variable {state after : State} {slots : List (Nat × Nat)} {worker : Worker} {item : Item Ope}
  {rest : List (Item Ope)}

theorem Filling.of_pc {slot : Nat × Nat} (filling : Filling state slot)
    (same : after.pc (remainderOwner slot.1) = state.pc (remainderOwner slot.1)) :
    Filling after slot := by
  rw [Filling, same]
  exact filling

theorem Filling.of_idle {slot : Nat × Nat} (filling : Filling state slot) {pc : Pc}
    (moved : after.pc = Function.update state.pc worker pc)
    (idle : ∀ serial pointer, state.pc worker ≠ .storeRecord serial pointer ∧
      state.pc worker ≠ .storeStable serial pointer) : Filling after slot := by
  apply filling.of_pc
  have differs : remainderOwner slot.1 ≠ worker := by
    rintro rfl
    rcases filling with storing | storing
    · exact (idle _ _).1 storing
    · exact (idle _ _).2 storing
  rw [moved, Function.update_of_ne differs]

theorem Awaited.setPc (awaited : Awaited state slots) {pc : Pc}
    (idle : ∀ serial pointer, state.pc worker ≠ .storeRecord serial pointer ∧
      state.pc worker ≠ .storeStable serial pointer) : Awaited (state.setPc worker pc) slots := by
  intro slot member
  rcases awaited slot member with stable | left | filling
  · exact .inl stable
  · exact .inr (.inl left)
  · exact .inr (.inr (filling.of_idle rfl idle))

theorem Executing.exists_reader (inv : Executing state slots) {slot : Nat × Nat}
    (member : slot ∈ slots) :
    ∃ reader ∈ state.readers, GreatestBelow state.writers reader (some slot.1) ∧
      state.pending reader = slot.2 := by
  obtain ⟨reader, readerMem, greatest⟩ := (inv.placed.ids slot.1).mp ⟨slot.2, member⟩
  refine ⟨reader, readerMem, greatest, ?_⟩
  rcases inv.placed.given reader readerMem with ⟨other, otherMem, otherGreatest, same⟩ | ⟨no, -⟩
  · have id : other.1 = slot.1 := by simpa using otherGreatest.unique greatest
    rw [same, inv.placed.ascending.eq_of_id otherMem member id]
  · cases no.unique greatest

theorem Executing.stable_of_drained (inv : Executing state slots)
    (drained : state.mem.row.refCnt = 0) {slot : Nat × Nat} (member : slot ∈ slots) :
    StableAt state slot.2 := by
  obtain ⟨reader, readerMem, -, same⟩ := inv.exists_reader member
  have none := inv.count.symm.trans drained
  rw [Set.ncard_eq_zero ((readers_finite state).subset fun _ member => member.1)] at none
  have done : ¬ state.Left reader .read := by
    intro left
    exact Set.notMem_empty reader (none ▸ ⟨readerMem, left⟩)
  rw [← same]
  exact inv.doneReads reader readerMem done

theorem Executing.identify_awaited (inv : Executing state slots)
    (front : state.todo worker = item :: rest) {slot : Nat × Nat} (member : slot ∈ slots)
    {found : Option Nat} {mem : Memory}
    (result :
      state.mem.identifyWriteVersion item.turn.core (item.turn.serial % 64) = (found, mem)) :
    mem = state.mem ∧
      (slot.1 = item.turn.serial → StableAt state slot.2 ∨ found = some slot.2) := by
  obtain ⟨reader, readerMem, -⟩ := inv.exists_reader member
  have readers : state.readers ≠ ∅ := Set.Nonempty.ne_empty ⟨reader, readerMem⟩
  by_cases drained : state.mem.row.refCnt = 0
  · rw [identifyWriteVersion_cleared drained ((inv.read readers).drained drained).1,
      Prod.mk.injEq] at result
    exact ⟨result.2.symm, fun _ => .inl (inv.stable_of_drained drained member)⟩
  · rw [identifyWriteVersion_busy drained, Prod.mk.injEq, inv.todo.serialId_head front,
      ((inv.read readers).busy drained).2.1] at result
    refine ⟨result.2.symm, fun isOwn => .inr ?_⟩
    rw [← result.1]
    cases search : slots.find? (·.1 = item.turn.serial) with
    | none => exact absurd isOwn (by simpa using List.find?_eq_none.mp search slot member)
    | some entry =>
      have id : entry.1 = slot.1 := by
        rw [isOwn]
        simpa using List.find?_some search
      rw [inv.placed.ascending.eq_of_id (List.mem_of_find?_eq_some search) member id]
      rfl

theorem Executing.awaited_update (inv : Executing state slots) (awaited : Awaited state slots)
    (atNext : state.pc worker = .next) (front : state.todo worker = item :: rest)
    {found : Option Nat}
    (result :
      state.mem.identifyWriteVersion item.turn.core (item.turn.serial % 64) = (found, after.mem))
    (todo : after.todo = Function.update state.todo worker rest)
    (pc : after.pc = found.elim state.pc
      fun pointer => Function.update state.pc worker (.storeRecord item.turn.serial pointer)) :
    Awaited after slots := by
  intro slot member
  obtain ⟨-, -, -, -, owner⟩ := inv.todo.head front
  obtain ⟨mem, given⟩ := inv.identify_awaited front member result
  have stableAt (stable : StableAt state slot.2) : StableAt after slot.2 := by
    rw [StableAt, mem]
    exact stable
  rcases awaited slot member with stable | left | filling
  · exact .inl (stableAt stable)
  · by_cases isOwn : slot.1 = item.turn.serial
    · rcases given isOwn with stable | rfl
      · exact .inl (stableAt stable)
      · refine .inr (.inr (.inl ?_))
        rw [pc, isOwn, owner]
        exact Function.update_self ..
    · refine .inr (.inl ?_)
      rw [State.Left, todo]
      exact (inv.todo.left_pop front).mpr ⟨left, fun again => isOwn again.1⟩
  · refine .inr (.inr ?_)
    cases found with
    | none => exact filling.of_pc (congrFun pc _)
    | some pointer => exact filling.of_idle pc (by simp [atNext])

theorem Executing.awaited_decrement (inv : Executing state slots) (awaited : Awaited state slots)
    {record : Option Record} (atDecrement : state.pc worker = .decrement record)
    (front : state.todo worker = item :: rest) :
    Awaited ({ state.setTodo worker rest with mem := state.mem.decrementRefCnt }.setPc worker
      (.returnRead item.turn.serial record)) slots := by
  intro slot member
  have ok := inv.pcs worker
  rw [atDecrement] at ok
  obtain ⟨reader, tail, front', -⟩ := ok
  have isRead : item.op = .read := by
    rw [front] at front'
    rw [(List.cons_eq_cons.mp front').1, itemOf]
  have versions : state.mem.decrementRefCnt.versions = state.mem.versions := by
    unfold Memory.decrementRefCnt Memory.gcAndUpdateMaster
    simp only
    split
    · split <;> rfl
    · rfl
  rcases awaited slot member with stable | left | filling
  · left
    show (state.mem.decrementRefCnt.versions slot.2).status = .stable
    rw [versions]
    exact stable
  · refine .inr (.inl ((inv.todo.left_pop front).mpr ⟨left, ?_⟩))
    rintro ⟨-, impossible⟩
    rw [isRead] at impossible
    cases impossible
  · exact .inr (.inr (filling.of_idle rfl (by simp [atDecrement])))

theorem Awaited.fill (awaited : Awaited state slots)
    {serial pointer : Nat} {pc newPc : Pc} {version : Version}
    (storing : pc = .storeRecord serial pointer ∨ pc = .storeStable serial pointer)
    (atPc : state.pc worker = pc)
    (kept : StableAt state pointer → version.status = .stable)
    (reached : (serial, pointer) ∈ slots → version.status = .stable ∨
      newPc = .storeStable serial pointer) :
    Awaited ({ state with mem := { state.mem with
      toHeap := state.mem.setVersion pointer version } }.setPc worker newPc)
      slots := by
  intro slot member
  have stableAt (stable : StableAt state slot.2) :
      ((state.mem.setVersion pointer version).versions slot.2).status = .stable := by
    by_cases same : slot.2 = pointer
    · subst same
      rw [Heap.setVersion_self]
      exact kept stable
    · rw [Heap.setVersion_of_ne _ _ same]
      exact stable
  rcases awaited slot member with stable | left | filling
  · exact .inl (stableAt stable)
  · exact .inr (.inl left)
  · by_cases same : remainderOwner slot.1 = worker
    · have filled : slot = (serial, pointer) := by
        rw [Filling, same, atPc] at filling
        rcases storing with rfl | rfl <;> rcases filling with moved | moved <;> cases moved <;> rfl
      subst filled
      rcases reached member with stable | rfl
      · left
        show ((state.mem.setVersion pointer version).versions pointer).status = .stable
        rw [Heap.setVersion_self]
        exact stable
      · refine .inr (.inr (.inr ?_))
        rw [same]
        exact Function.update_self ..
    · exact .inr (.inr (filling.of_pc (Function.update_of_ne same ..)))

theorem Executing.awaited_step (inv : Executing state slots) (awaited : Awaited state slots)
    (taken : state.workerStep worker = some after) : Awaited after slots := by
  unfold State.workerStep at taken
  split at taken
  next => cases taken
  next item rest atNext front =>
    rw [if_pos inv.phase] at taken
    cases ope : item.op with
    | read =>
      simp only [State.beginOperation, ope] at taken
      obtain ⟨-, rfl⟩ := Option.ite_some_none_eq_some.mp taken
      exact awaited.setPc (by simp [atNext])
    | update =>
      rcases result : state.mem.identifyWriteVersion item.turn.core (item.turn.serial % 64) with
        ⟨found, mem⟩
      simp only [State.beginOperation, ope, result] at taken
      cases found <;> cases taken <;>
        exact inv.awaited_update awaited atNext front result rfl rfl
  next pointer atLoad =>
    cases taken
    exact awaited.setPc (by simp [atLoad])
  next record item rest atDecrement front =>
    cases taken
    exact inv.awaited_decrement awaited atDecrement front
  next => cases taken
  next atReturn =>
    cases taken
    exact awaited.setPc (by simp [atReturn])
  next serial pointer atStore =>
    cases taken
    exact awaited.fill (.inl rfl) atStore id fun _ => .inr rfl
  next serial pointer atStore =>
    cases taken
    exact awaited.fill (.inr rfl) atStore (fun _ => rfl) fun _ => .inl rfl

end Steps

/-! ## Whole runs -/

section Runs
variable {state after : State}

def Serving (state : State) : Prop :=
  state.phase = .exec → ∃ slots, Executing state slots ∧ Awaited state slots

theorem step_serving {label : Label} (inv : Inv state) (serving : Serving state)
    (taken : state.step label = some after) : Serving after := by
  cases label with
  | worker worker =>
    rcases inv with inv | inv | ⟨slots, inv⟩
    · obtain ⟨item, rest, front, rfl⟩ :=
        workerStep_registers inv.idle (by simp [inv.phase]) taken
      intro exec
      cases (inv.register front).phase.symm.trans exec
    · obtain ⟨item, rest, front, rfl⟩ :=
        workerStep_registers inv.idle (by simp [inv.phase]) taken
      intro exec
      cases (inv.register front).phase.symm.trans exec
    · intro _
      obtain ⟨slots, executing, awaited⟩ := serving inv.phase
      exact ⟨slots, executing.workerStep taken, executing.awaited_step awaited taken⟩
  | barrier =>
    simp only [State.step] at taken
    obtain ⟨quiet, taken⟩ := Option.ite_none_right_eq_some.mp taken
    rcases inv with inv | inv | ⟨slots, inv⟩ <;> rw [inv.phase] at taken <;> cases taken
    · intro exec
      cases exec
    · intro _
      refine ⟨_, inv.barrier quiet, fun slot member => .inr (.inl ?_)⟩
      obtain ⟨reader, -, greatest⟩ := (inv.placed.ids slot.1).mp ⟨slot.2, member⟩
      exact executionPhase_remains greatest.1.1.1 greatest.1.1.2
  | newEpoch workload =>
    simp only [State.step] at taken
    obtain ⟨-, rfl⟩ := Option.ite_some_none_eq_some.mp taken
    intro exec
    cases exec

theorem run_serving {trace : List Label} (run : Run State.step always State.loaded trace state) :
    Serving state := by
  have both : Inv state ∧ Serving state := by
    refine run.invariant (fun state => Inv state ∧ Serving state)
      ⟨.inr (.inr ⟨[], loaded_executing⟩), fun _ => ⟨[], loaded_executing, by simp [Awaited]⟩⟩ ?_
    rintro before label after ⟨inv, serving⟩ - taken
    exact ⟨step_inv inv taken, step_serving inv serving taken⟩
  exact both.2

end Runs

end TpccRunner.ServalRc
