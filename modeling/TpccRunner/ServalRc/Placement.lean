import TpccRunner.ServalRc.Epoch

/-!
# Registration of writers and placement of readers

What the two registration phases leave in the row: the bitmaps hold the writers
that have registered, and every reader that has asked was given the placeholder
of the greatest writer below it, or the master.
-/

set_option autoImplicit false

namespace TpccRunner.ServalRc

open TpccRunner.Utils TpccRunner.Lib
open SortedVector (Ascending)

/-! ## The worklists of the phases -/

def State.Left (state : State) (serial : Nat) (ope : Ope) : Prop :=
  Worklist.Remains state.todo (itemOf serial ope)

structure TodoOk (owner : Nat → Worker) (workload : RowWorkload) (kind : Ope → Bool)
    (todo : Worker → List (Item Ope)) : Prop where
  proper : Worklist.Proper (fun item => owner item.turn.serial) todo
  items : ∀ item, Worklist.Remains todo item → item.turn.serial < 4096 ∧
    item = itemOf item.turn.serial item.op ∧ item.op ∈ workload.ops item.turn.serial ∧
    kind item.op = true

section Todo
variable {owner : Nat → Worker} {workload : RowWorkload} {kind : Ope → Bool}
  {todo : Worker → List (Item Ope)} {worker : Worker} {item : Item Ope} {rest : List (Item Ope)}
  {assignment : Worker → List Turn} {serial : Nat} {ope : Ope}

theorem TodoOk.pop (ok : TodoOk owner workload kind todo) (front : todo worker = item :: rest) :
    TodoOk owner workload kind (Function.update todo worker rest) :=
  ⟨ok.proper.pop front, fun other remains =>
    ok.items other ((ok.proper.remains_pop front).mp remains).1⟩

theorem TodoOk.head (ok : TodoOk owner workload kind todo) (front : todo worker = item :: rest) :
    item.turn.serial < 4096 ∧ item = itemOf item.turn.serial item.op ∧
      item.op ∈ workload.ops item.turn.serial ∧ kind item.op = true ∧
      owner item.turn.serial = worker := by
  obtain ⟨bound, shape, member, isKind⟩ := ok.items item (Worklist.remains_head front)
  exact ⟨bound, shape, member, isKind, ok.proper.owned worker item (by simp [front])⟩

theorem TodoOk.serialId_head (ok : TodoOk owner workload kind todo)
    (front : todo worker = item :: rest) :
    serialId (item.turn.core, item.turn.serial % 64) = item.turn.serial := by
  obtain ⟨-, shape, -⟩ := ok.head front
  rw [shape]
  exact serialId_split _

theorem TodoOk.left_pop {state : State} (ok : TodoOk owner workload kind state.todo)
    (front : state.todo worker = item :: rest) :
    (state.setTodo worker rest).Left serial ope ↔
      state.Left serial ope ∧ ¬ (serial = item.turn.serial ∧ ope = item.op) := by
  obtain ⟨-, shape, -⟩ := ok.head front
  rw [State.Left, State.setTodo, ok.proper.remains_pop front, State.Left]
  refine and_congr_right fun _ => not_congr ?_
  rw [shape, itemOf_inj]
  rfl

theorem phase_remains (assigns : Assigns assignment owner) :
    Worklist.Remains
        (fun worker => (perTransaction workload.ops (assignment worker)).filter (kind ·.op))
        item ↔
      item.turn.serial < 4096 ∧ item = itemOf item.turn.serial item.op ∧
        item.op ∈ workload.ops item.turn.serial ∧ kind item.op = true := by
  simp only [Worklist.Remains, List.mem_filter, mem_assigned assigns]
  constructor
  · rintro ⟨_, ⟨bound, shape, -, member⟩, isKind⟩
    exact ⟨bound, shape, member, isKind⟩
  · rintro ⟨bound, shape, member, isKind⟩
    exact ⟨_, ⟨bound, shape, rfl, member⟩, isKind⟩

theorem phase_todoOk (assigns : Assigns assignment owner) :
    TodoOk owner workload kind
      (fun worker => (perTransaction workload.ops (assignment worker)).filter (kind ·.op)) := by
  refine ⟨⟨?_, ?_⟩, fun item remains => (phase_remains assigns).mp remains⟩
  · intro worker item member
    exact ((mem_assigned assigns).mp (List.mem_of_mem_filter member)).2.2.1
  · intro worker
    exact (nodup_perTransaction (assigns.nodup worker) workload.distinct).filter _

theorem writePhase_todoOk (workload : RowWorkload) :
    TodoOk blockOwner workload (· = .update) (State.writePhase workload.ops) :=
  phase_todoOk sequential_assigns

theorem readPhase_todoOk (workload : RowWorkload) :
    TodoOk blockOwner workload (· = .read) (State.readPhase workload.ops) :=
  phase_todoOk sequential_assigns

theorem executionPhase_eq (workload : RowWorkload) : State.executionPhase workload.ops =
    fun worker =>
      (perTransaction workload.ops (roundRobinAssignment worker)).filter fun _ => true := by
  funext worker
  rw [List.filter_true, State.executionPhase]

theorem executionPhase_todoOk (workload : RowWorkload) :
    TodoOk remainderOwner workload (fun _ => true) (State.executionPhase workload.ops) := by
  rw [executionPhase_eq]
  exact phase_todoOk roundRobin_assigns

theorem writePhase_remains (bound : serial < 4096) (member : Ope.update ∈ workload.ops serial) :
    Worklist.Remains (State.writePhase workload.ops) (itemOf serial .update) :=
  (@phase_remains blockOwner workload (· = .update) _ _ sequential_assigns).mpr
    ⟨bound, rfl, member, rfl⟩

theorem readPhase_remains (bound : serial < 4096) (member : Ope.read ∈ workload.ops serial) :
    Worklist.Remains (State.readPhase workload.ops) (itemOf serial .read) :=
  (@phase_remains blockOwner workload (· = .read) _ _ sequential_assigns).mpr
    ⟨bound, rfl, member, rfl⟩

theorem executionPhase_remains (bound : serial < 4096) (member : ope ∈ workload.ops serial) :
    Worklist.Remains (State.executionPhase workload.ops) (itemOf serial ope) := by
  rw [executionPhase_eq]
  exact (@phase_remains remainderOwner workload (fun _ => true) _ _ roundRobin_assigns).mpr
    ⟨bound, rfl, member, rfl⟩

end Todo

/-! ## Placement of readers -/

/-- The readers of `asked` have been given what they will read. -/
structure Placed (writers : Set Nat) (startMaster next : Nat) (pending : Nat → Nat)
    (slots : List (Nat × Nat)) (asked : Set Nat) : Prop where
  ascending : Ascending slots
  ids : ∀ writer, (∃ pointer, (writer, pointer) ∈ slots) ↔
    ∃ reader ∈ asked, GreatestBelow writers reader (some writer)
  bounded : ∀ slot ∈ slots, slot.2 < next ∧ slot.2 ≠ startMaster
  distinct : ∀ one ∈ slots, ∀ two ∈ slots, one.2 = two.2 → one = two
  given : ∀ reader ∈ asked,
    (∃ slot ∈ slots, GreatestBelow writers reader (some slot.1) ∧ pending reader = slot.2) ∨
    (GreatestBelow writers reader none ∧ pending reader = startMaster)

section Placement
variable {mem : Memory} {writers : Set Nat} {startMaster next : Nat} {pending : Nat → Nat}
  {slots : List (Nat × Nat)} {asked : Set Nat} {reader : Nat}

theorem placed_nil : Placed writers startMaster next pending [] ∅ where
  ascending := List.Pairwise.nil
  ids := by simp
  bounded := by simp
  distinct := by simp
  given := by simp

theorem Placed.given_update (placed : Placed writers startMaster next pending slots asked)
    (fresh : reader ∉ asked) {slots' : List (Nat × Nat)} (kept : ∀ slot ∈ slots, slot ∈ slots')
    {pointer : Nat}
    (here : (∃ slot ∈ slots', GreatestBelow writers reader (some slot.1) ∧ pointer = slot.2) ∨
      (GreatestBelow writers reader none ∧ pointer = startMaster)) :
    ∀ other ∈ insert reader asked,
      (∃ slot ∈ slots', GreatestBelow writers other (some slot.1) ∧
        Function.update pending reader pointer other = slot.2) ∨
      (GreatestBelow writers other none ∧
        Function.update pending reader pointer other = startMaster) := by
  rintro other (rfl | member)
  · simpa only [Function.update_self] using here
  · have differs : other ≠ reader := by
      rintro rfl
      exact fresh member
    rw [Function.update_of_ne differs]
    rcases placed.given other member with ⟨slot, slotMem, greatest, same⟩ | master
    · exact .inl ⟨slot, kept slot slotMem, greatest, same⟩
    · exact .inr master

theorem Placed.keep (placed : Placed writers startMaster next pending slots asked)
    (fresh : reader ∉ asked) {pointer : Nat}
    (here : (∃ slot ∈ slots, GreatestBelow writers reader (some slot.1) ∧ pointer = slot.2) ∨
      (GreatestBelow writers reader none ∧ pointer = startMaster)) :
    Placed writers startMaster next (Function.update pending reader pointer) slots
      (insert reader asked) := by
  refine ⟨placed.ascending, fun writer => ?_, placed.bounded, placed.distinct,
    placed.given_update fresh (fun _ => id) here⟩
  rw [placed.ids]
  constructor
  · rintro ⟨other, member, greatest⟩
    exact ⟨other, .inr member, greatest⟩
  · rintro ⟨other, rfl | member, greatest⟩
    · rcases here with ⟨slot, slotMem, slotGreatest, -⟩ | ⟨none, -⟩
      · have same : slot.1 = writer := by simpa using slotGreatest.unique greatest
        exact (placed.ids writer).mp ⟨slot.2, by rwa [← same]⟩
      · cases none.unique greatest
    · exact ⟨other, member, greatest⟩

theorem Placed.extend (placed : Placed writers startMaster next pending slots asked)
    (fresh : reader ∉ asked) {writer : Nat} (greatest : GreatestBelow writers reader (some writer))
    (absent : ∀ slot ∈ slots, slot.1 ≠ writer) (start : startMaster < next) :
    Placed writers startMaster (next + 1) (Function.update pending reader next)
      (SortedVector.insertUpper (writer, next) slots) (insert reader asked) := by
  have mem (slot : Nat × Nat) := @SortedVector.mem_insertUpper _ _ _ slots (writer, next) slot
  have old (slot : Nat × Nat) (member : slot ∈ slots) : slot.2 ≠ next :=
    (placed.bounded slot member).1.ne
  refine ⟨SortedVector.insertUpper_ascending placed.ascending absent, fun other => ?_, ?_, ?_,
    placed.given_update fresh (fun slot member => (mem slot).mpr (.inr member)) ?_⟩
  · constructor
    · rintro ⟨pointer, member⟩
      rcases (mem _).mp member with same | member
      · cases same
        exact ⟨reader, .inl rfl, greatest⟩
      · obtain ⟨asker, askerMem, askerGreatest⟩ := (placed.ids other).mp ⟨pointer, member⟩
        exact ⟨asker, .inr askerMem, askerGreatest⟩
    · rintro ⟨asker, rfl | askerMem, askerGreatest⟩
      · cases askerGreatest.unique greatest
        exact ⟨next, (mem _).mpr (.inl rfl)⟩
      · obtain ⟨pointer, member⟩ := (placed.ids other).mpr ⟨asker, askerMem, askerGreatest⟩
        exact ⟨pointer, (mem _).mpr (.inr member)⟩
  · intro slot member
    rcases (mem slot).mp member with rfl | member
    · exact ⟨Nat.lt_succ_self next, start.ne'⟩
    · exact ⟨(placed.bounded slot member).1.trans (Nat.lt_succ_self next),
        (placed.bounded slot member).2⟩
  · intro one oneMem two twoMem same
    rcases (mem one).mp oneMem with rfl | oneMem <;> rcases (mem two).mp twoMem with rfl | twoMem
    · rfl
    · exact absurd same.symm (old two twoMem)
    · exact absurd same (old one oneMem)
    · exact placed.distinct one oneMem two twoMem same
  · exact .inl ⟨(writer, next), (mem _).mpr (.inl rfl), greatest, rfl⟩

theorem doAppendPendingVersion_cases (registered : Registered mem.row writers)
    (bound : reader < 4096) :
    (GreatestBelow writers reader none ∧
      mem.doAppendPendingVersion (reader / 64) (reader % 64) = (mem.row.master, mem)) ∨
    ∃ writer, GreatestBelow writers reader (some writer) ∧
      ((∃ pointer, (writer, pointer) ∈ mem.row.placeholders ∧
        mem.doAppendPendingVersion (reader / 64) (reader % 64) = (pointer, mem)) ∨
      ((∀ slot ∈ mem.row.placeholders, slot.1 ≠ writer) ∧
        mem.doAppendPendingVersion (reader / 64) (reader % 64) =
          (mem.next, { mem with
            toHeap := mem.createPendingVersion
            row := { mem.row with placeholders :=
              SortedVector.insertUpper (writer, mem.next) mem.row.placeholders } }))) := by
  have own : serialId (reader / 64, reader % 64) = reader := by
    simp only [serialId]
    omega
  have found := identifyVisibleVersion_spec registered.holds (show reader / 64 < 64 by omega)
    (show reader % 64 < 64 by omega)
  rw [own] at found
  by_cases zero : mem.row.coreBitmap = 0
  · left
    refine ⟨?_, by simp [Memory.doAppendPendingVersion, zero]⟩
    rw [registered.coreBitmap_eq_zero.mp zero]
    simp [GreatestBelow]
  cases visible : mem.row.identifyVisibleVersionInPlaceholders (reader / 64) (reader % 64) with
  | none =>
    left
    rw [WriteBitmap.identifyVisibleVersionInPlaceholders] at visible
    rw [visible] at found
    exact ⟨found, by
      simp [Memory.doAppendPendingVersion, WriteBitmap.identifyVisibleVersionInPlaceholders,
        visible]⟩
  | some pair =>
    right
    have visible' := visible
    rw [WriteBitmap.identifyVisibleVersionInPlaceholders] at visible'
    rw [visible'] at found
    refine ⟨serialId pair, found, ?_⟩
    cases slot : mem.row.placeholders.find? (·.1 = serialId pair) with
    | some entry =>
      left
      have same : entry.1 = serialId pair := by simpa using List.find?_some slot
      refine ⟨entry.2, ?_, by
        simp only [Memory.doAppendPendingVersion, ne_eq, zero, not_false_eq_true, if_true,
          visible, slot]⟩
      rw [← same]
      exact List.mem_of_find?_eq_some slot
    | none =>
      right
      refine ⟨fun entry member => ?_, by
        simp only [Memory.doAppendPendingVersion, ne_eq, zero, not_false_eq_true, if_true,
          visible, slot]⟩
      simpa using List.find?_eq_none.mp slot entry member

end Placement

end TpccRunner.ServalRc
