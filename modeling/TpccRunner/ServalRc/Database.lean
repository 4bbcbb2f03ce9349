import TpccRunner.ServalRc.FinalWrite

/-!
# All rows of Serval_RC

The driver `ycsb_serval_rc.cpp` over every key: a worker runs through the
operations of its transactions, each on its own row.  Seen from one row, the
steps on the other rows do not exist, and what is left is a run of the row.
-/

set_option autoImplicit false

namespace TpccRunner.ServalRc

open TpccRunner.Utils TpccRunner.Lib

structure Database where
  rows : Nat → Memory
  epoch : Nat := 0
  txs : Transactions := ⟨fun _ => [], by simp⟩
  phase : Phase := .exec
  todo : Worker → List (Item Operation) := fun _ => []
  pc : Worker → Pc := fun _ => .next
  /-- The row of the operation a worker is in. -/
  key : Worker → Nat := fun _ => 0
  /-- `Operation::pending_`, by serial id and key. -/
  pending : Nat → Nat → Nat := fun _ _ => 0

namespace Database

inductive Label where
  | worker (worker : Worker)
  | barrier
  | newEpoch (txs : Transactions)

def loaded : Database where
  rows _ := State.loaded.mem

def doWritePhase (txs : Transactions) (worker : Worker) : List (Item Operation) :=
  (perTransaction txs.rwSet (sequentialAssignment worker)).filter (·.op.ope = .update)

def doReadPhase (txs : Transactions) (worker : Worker) : List (Item Operation) :=
  (perTransaction txs.rwSet (sequentialAssignment worker)).filter (·.op.ope = .read)

def doExecutionPhase (txs : Transactions) (worker : Worker) : List (Item Operation) :=
  perTransaction txs.rwSet (roundRobinAssignment worker)

def Quiet (db : Database) : Prop := ∀ worker, db.todo worker = [] ∧ db.pc worker = .next

instance (db : Database) : Decidable db.Quiet := inferInstanceAs (Decidable (∀ _, _))

def goto (db : Database) (worker : Worker) (key : Nat) (pc : Pc) : Database :=
  { db with pc := Function.update db.pc worker pc, key := Function.update db.key worker key }

def setRow (db : Database) (key : Nat) (mem : Memory) : Database :=
  { db with rows := Function.update db.rows key mem }

def setTodo (db : Database) (worker : Worker) (rest : List (Item Operation)) : Database :=
  { db with todo := Function.update db.todo worker rest }

def setPending (db : Database) (serial key pointer : Nat) : Database :=
  { db with pending := fun other otherKey =>
      if other = serial ∧ otherKey = key then pointer else db.pending other otherKey }

/-- `update_write_bitmaps` or `append_pending_version`. -/
def register (db : Database) (worker : Worker) (item : Item Operation)
    (rest : List (Item Operation)) : Database :=
  let mem := db.rows item.op.key
  match db.phase with
  | .write =>
    (db.setRow item.op.key { mem with
      row := mem.row.updateBitmap item.turn.core (item.turn.serial % 64) }).setTodo worker rest
  | _ =>
    let (pointer, mem) := mem.appendPendingVersion item.turn.core (item.turn.serial % 64)
    ((db.setRow item.op.key mem).setPending item.turn.serial item.op.key pointer).setTodo
      worker rest

def beginOperation (db : Database) (worker : Worker) (item : Item Operation)
    (rest : List (Item Operation)) : Option Database :=
  let mem := db.rows item.op.key
  match item.op.ope with
  | .read =>
    let pointer := db.pending item.turn.serial item.op.key
    if (mem.versions pointer).status = .stable then
      some (db.goto worker item.op.key (.loadRecord pointer))
    else none
  | .update =>
    let (found, mem) := mem.identifyWriteVersion item.turn.core (item.turn.serial % 64)
    let db := (db.setRow item.op.key mem).setTodo worker rest
    match found with
    | some pointer => some (db.goto worker item.op.key (.storeRecord item.turn.serial pointer))
    | none => some db

def workerStep (db : Database) (worker : Worker) : Option Database :=
  let key := db.key worker
  let mem := db.rows key
  match db.pc worker, db.todo worker with
  | .next, [] => none
  | .next, item :: rest =>
    if db.phase = .exec then db.beginOperation worker item rest
    else some (db.register worker item rest)
  | .loadRecord pointer, _ =>
    some (db.goto worker key (.decrement (mem.versions pointer).record))
  | .decrement record, item :: rest =>
    some (((db.setRow key mem.decrementRefCnt).setTodo worker rest).goto worker key
      (.returnRead item.turn.serial record))
  | .decrement _, [] => none
  | .returnRead _ _, _ => some (db.goto worker key .next)
  | .storeRecord serial pointer, _ =>
    let heap := mem.storeRecord pointer (.written db.epoch serial)
    some ((db.setRow key { mem with toHeap := heap }).goto worker key
      (.storeStable serial pointer))
  | .storeStable _ pointer, _ =>
    some ((db.setRow key { mem with toHeap := mem.storeStable pointer }).goto worker key .next)

def step (db : Database) : Label → Option Database
  | .worker worker => db.workerStep worker
  | .barrier =>
    if db.Quiet then
      match db.phase with
      | .write => some { db with phase := .read, todo := doReadPhase db.txs }
      | .read => some { db with phase := .exec, todo := doExecutionPhase db.txs }
      | .exec => none
    else none
  | .newEpoch txs =>
    if db.phase = .exec ∧ db.Quiet then
      some { db with epoch := db.epoch + 1, txs, phase := .write, todo := doWritePhase txs }
    else none

end Database

/-! ## One row of the database -/

section Projection
variable (key : Nat)

def itemsOn (items : List (Item Operation)) : List (Item Ope) :=
  (items.filter (·.op.key = key)).map fun item => ⟨item.turn, item.op.ope⟩

def opsOn (txs : Transactions) (serial : Nat) : List Ope :=
  ((txs.rwSet serial).filter (·.key = key)).map Operation.ope

def Database.pcOn (db : Database) (worker : Worker) : Pc :=
  if db.key worker = key then db.pc worker else .next

variable {key} {item : Item Operation} {items : List (Item Operation)}

@[simp] theorem itemsOn_nil : itemsOn key [] = [] := rfl

theorem itemsOn_cons_same (same : item.op.key = key) : itemsOn key (item :: items) =
    ⟨item.turn, item.op.ope⟩ :: itemsOn key items := by
  simp [itemsOn, same]

theorem itemsOn_cons_other (differs : item.op.key ≠ key) :
    itemsOn key (item :: items) = itemsOn key items := by
  simp [itemsOn, differs]

theorem itemsOn_filter (kind : Ope → Bool) : itemsOn key (items.filter (kind ·.op.ope)) =
    (itemsOn key items).filter (kind ·.op) := by
  rw [itemsOn, itemsOn, List.filter_map, List.filter_filter, List.filter_filter]
  refine congrArg _ (List.filter_congr fun item _ => ?_)
  exact Bool.and_comm _ _

theorem itemsOn_perTransaction (txs : Transactions) (turns : List Turn) :
    itemsOn key (perTransaction txs.rwSet turns) = perTransaction (opsOn key txs) turns := by
  rw [itemsOn, perTransaction, perTransaction, List.filter_flatMap, List.map_flatMap]
  refine List.flatMap_congr fun turn _ => ?_
  simp only [opsOn, List.filter_map, List.map_map]
  rfl

theorem opsOn_nodup (txs : Transactions) (key serial : Nat) :
    (opsOn key txs serial).Nodup := by
  have distinct := (List.pairwise_map.mp (txs.distinctKeys serial)).filter (·.key = key)
  rw [opsOn, List.Nodup, List.pairwise_map]
  refine distinct.imp_of_mem fun {one two} oneMem twoMem differs => ?_
  simp only [List.mem_filter, decide_eq_true_eq] at oneMem twoMem
  exact absurd (oneMem.2.trans twoMem.2.symm) differs

def RowWorkload.on (key : Nat) (txs : Transactions) : RowWorkload :=
  ⟨opsOn key txs, opsOn_nodup txs key⟩

end Projection

structure History where
  startMaster : Nat
  startVersion : Version
  identified : List Nat

def Database.rowOn (db : Database) (key : Nat) (history : History) : State where
  mem := db.rows key
  epoch := db.epoch
  workload := .on key db.txs
  phase := db.phase
  todo worker := itemsOn key (db.todo worker)
  pc := db.pcOn key
  pending serial := db.pending serial key
  startMaster := history.startMaster
  startVersion := history.startVersion
  identified := history.identified

/-- A reader in the middle of a read still has the operation before it, and the
operations of a worker come in the order of their transactions. -/
structure Database.InOrder (db : Database) : Prop where
  reading : ∀ worker, (∃ pointer, db.pc worker = .loadRecord pointer) ∨
    (∃ record, db.pc worker = .decrement record) →
      ∃ item rest, db.todo worker = item :: rest ∧ item.op.key = db.key worker
  ascending : ∀ worker,
    (db.todo worker).Pairwise fun one two => one.turn.serial ≤ two.turn.serial

end TpccRunner.ServalRc
