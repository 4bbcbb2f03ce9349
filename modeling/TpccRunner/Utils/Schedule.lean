import TpccRunner.Utils.Bitmap

/-!
# Which worker runs which transaction

The drivers of the deterministic protocols split the 4096 transactions of an
epoch over 64 workers, either in blocks (`sequential assignment`) or by the
remainder of the serial id (`round-robin assignment`).  `core` is the core id
the worker sets before it runs the transaction.
-/

set_option autoImplicit false

namespace TpccRunner.Utils

abbrev Worker := Fin 64

def workerOf (id : Nat) : Worker := Fin.ofNat 64 id

structure Turn where
  core : Nat
  serial : Nat
  deriving DecidableEq, Repr

def sequentialAssignment (worker : Worker) : List Turn :=
  (List.range 64).map fun i => ⟨worker.val, worker.val * 64 + i⟩

def roundRobinAssignment (worker : Worker) : List Turn :=
  (List.range 64).map fun i => ⟨i, i * 64 + worker.val⟩

def blockOwner (serial : Nat) : Worker := ⟨serial / 64 % 64, Nat.mod_lt _ (by decide)⟩

def remainderOwner (serial : Nat) : Worker := ⟨serial % 64, Nat.mod_lt _ (by decide)⟩

theorem mem_sequentialAssignment {worker : Worker} {turn : Turn} :
    turn ∈ sequentialAssignment worker ↔
      turn.serial < 4096 ∧ turn.core = turn.serial / 64 ∧ blockOwner turn.serial = worker := by
  obtain ⟨core, serial⟩ := turn
  obtain ⟨worker, bound⟩ := worker
  simp only [sequentialAssignment, List.mem_map, List.mem_range, Turn.mk.injEq, blockOwner,
    Fin.mk.injEq]
  constructor
  · rintro ⟨i, inside, rfl, rfl⟩
    omega
  · rintro ⟨inside, rfl, same⟩
    exact ⟨serial % 64, by omega, by omega, by omega⟩

theorem mem_roundRobinAssignment {worker : Worker} {turn : Turn} :
    turn ∈ roundRobinAssignment worker ↔
      turn.serial < 4096 ∧ turn.core = turn.serial / 64 ∧ remainderOwner turn.serial = worker := by
  obtain ⟨core, serial⟩ := turn
  obtain ⟨worker, bound⟩ := worker
  simp only [roundRobinAssignment, List.mem_map, List.mem_range, Turn.mk.injEq, remainderOwner,
    Fin.mk.injEq]
  constructor
  · rintro ⟨i, inside, rfl, rfl⟩
    omega
  · rintro ⟨inside, rfl, same⟩
    exact ⟨serial / 64, by omega, rfl, by omega⟩

theorem nodup_sequentialAssignment (worker : Worker) : (sequentialAssignment worker).Nodup := by
  refine (List.nodup_map_iff ?_).mpr List.nodup_range
  intro i j same
  simp only [Turn.mk.injEq] at same
  omega

theorem nodup_roundRobinAssignment (worker : Worker) : (roundRobinAssignment worker).Nodup := by
  refine (List.nodup_map_iff ?_).mpr List.nodup_range
  intro i j same
  simp only [Turn.mk.injEq] at same
  omega

theorem sequentialAssignment_ascending (worker : Worker) :
    (sequentialAssignment worker).Pairwise fun a b => a.serial < b.serial := by
  rw [sequentialAssignment, List.pairwise_map]
  exact List.pairwise_lt_range.imp fun less => Nat.add_lt_add_left less _

theorem roundRobinAssignment_ascending (worker : Worker) :
    (roundRobinAssignment worker).Pairwise fun a b => a.serial < b.serial := by
  rw [roundRobinAssignment, List.pairwise_map]
  refine List.pairwise_lt_range.imp fun less => ?_
  show _ * 64 + _ < _ * 64 + _
  omega

/-- Every transaction belongs to one worker, which runs its own in ascending order. -/
structure Assigns (assignment : Worker → List Turn) (owner : Nat → Worker) : Prop where
  mem : ∀ {worker turn}, turn ∈ assignment worker ↔
    turn.serial < 4096 ∧ turn.core = turn.serial / 64 ∧ owner turn.serial = worker
  nodup : ∀ worker, (assignment worker).Nodup
  ascending : ∀ worker, (assignment worker).Pairwise fun a b => a.serial < b.serial

theorem sequential_assigns : Assigns sequentialAssignment blockOwner :=
  ⟨mem_sequentialAssignment, nodup_sequentialAssignment, sequentialAssignment_ascending⟩

theorem roundRobin_assigns : Assigns roundRobinAssignment remainderOwner :=
  ⟨mem_roundRobinAssignment, nodup_roundRobinAssignment, roundRobinAssignment_ascending⟩

/-! ## The operations a worker runs through -/

structure Item (Op : Type) where
  turn : Turn
  op : Op
  deriving DecidableEq, Repr

section Items
variable {Op : Type} {ops : Nat → List Op} {turns : List Turn}

def perTransaction (ops : Nat → List Op) (turns : List Turn) : List (Item Op) :=
  turns.flatMap fun turn => (ops turn.serial).map (⟨turn, ·⟩)

theorem mem_perTransaction {item : Item Op} :
    item ∈ perTransaction ops turns ↔ item.turn ∈ turns ∧ item.op ∈ ops item.turn.serial := by
  obtain ⟨turn, op⟩ := item
  simp only [perTransaction, List.mem_flatMap, List.mem_map, Item.mk.injEq]
  constructor
  · rintro ⟨other, member, _, opMem, rfl, rfl⟩
    exact ⟨member, opMem⟩
  · rintro ⟨member, opMem⟩
    exact ⟨turn, member, op, opMem, rfl, rfl⟩

theorem nodup_perTransaction (nodup : turns.Nodup) (distinct : ∀ serial, (ops serial).Nodup) :
    (perTransaction ops turns).Nodup := by
  rw [perTransaction, List.nodup_flatMap]
  constructor
  · intro turn _
    refine (distinct turn.serial).map fun a b same => ?_
    simpa using same
  · refine nodup.imp fun differs => ?_
    rw [Function.onFun, List.disjoint_left]
    rintro item first second
    obtain ⟨_, -, rfl⟩ := List.mem_map.mp first
    obtain ⟨_, -, same⟩ := List.mem_map.mp second
    simp only [Item.mk.injEq] at same
    exact differs same.1.symm

def itemOf (serial : Nat) (op : Op) : Item Op := ⟨⟨serial / 64, serial⟩, op⟩

theorem itemOf_inj {serial other : Nat} {op op' : Op} :
    itemOf serial op = itemOf other op' ↔ serial = other ∧ op = op' := by
  simp only [itemOf, Item.mk.injEq, Turn.mk.injEq, and_congr_left_iff, and_iff_right_iff_imp]
  rintro - rfl
  rfl

theorem mem_assigned {assignment : Worker → List Turn} {owner : Nat → Worker}
    (assigns : Assigns assignment owner) {worker : Worker} {item : Item Op} :
    item ∈ perTransaction ops (assignment worker) ↔ item.turn.serial < 4096 ∧
      item = itemOf item.turn.serial item.op ∧ owner item.turn.serial = worker ∧
      item.op ∈ ops item.turn.serial := by
  obtain ⟨⟨core, serial⟩, op⟩ := item
  rw [mem_perTransaction, assigns.mem]
  simp only [itemOf, Item.mk.injEq, Turn.mk.injEq, and_true]
  tauto

theorem perTransaction_ascending (ascending : turns.Pairwise fun a b => a.serial < b.serial) :
    (perTransaction ops turns).Pairwise fun a b => a.turn.serial ≤ b.turn.serial := by
  rw [perTransaction, List.pairwise_flatMap]
  constructor
  · intro turn _
    rw [List.pairwise_map]
    exact List.pairwise_of_forall fun _ _ => le_rfl
  · refine ascending.imp fun less a aMem b bMem => ?_
    obtain ⟨_, -, rfl⟩ := List.mem_map.mp aMem
    obtain ⟨_, -, rfl⟩ := List.mem_map.mp bMem
    exact less.le

end Items

end TpccRunner.Utils
