import Mathlib
import TpccRunner.Lib.Triple
import TpccRunner.Naive.Relation
import TpccRunner.Tpcc.Records

/-!
# The naive transaction interface

The tables of the naive database by content, and the calls of `Transaction` as programs
that can stop early.  `not_succeeded` draws an injected abort after every successful call;
the draws are an input.  `Running` describes a transaction under way by the write set it has
logged so far: the rows do not change before `commit`, and an abort restores the database
that the transaction started from.
-/

set_option autoImplicit false

namespace TpccRunner.Naive

open Lib Tpcc

inductive TableId where
  | item
  | warehouse
  | stock
  | district
  | customer
  | order
  | newOrder
  | orderLine
  deriving DecidableEq, Repr

abbrev RecordOf : TableId → Type
  | .item => Item
  | .warehouse => Warehouse
  | .stock => Stock
  | .district => District
  | .customer => Customer
  | .order => Order
  | .newOrder => NewOrder
  | .orderLine => OrderLine

instance : (id : TableId) → Inhabited (RecordOf id)
  | .item => inferInstanceAs (Inhabited Item)
  | .warehouse => inferInstanceAs (Inhabited Warehouse)
  | .stock => inferInstanceAs (Inhabited Stock)
  | .district => inferInstanceAs (Inhabited District)
  | .customer => inferInstanceAs (Inhabited Customer)
  | .order => inferInstanceAs (Inhabited Order)
  | .newOrder => inferInstanceAs (Inhabited NewOrder)
  | .orderLine => inferInstanceAs (Inhabited OrderLine)

structure Database where
  tables : (id : TableId) → Relation Nat (RecordOf id)
  history : List History
  historyWs : List History

namespace Database

def set (db : Database) (id : TableId) (table : Relation Nat (RecordOf id)) : Database :=
  { db with tables := Function.update db.tables id table }

def rows (db : Database) (id : TableId) (key : Nat) : Option (RecordOf id) :=
  (db.tables id).rows.get? key

def applyToDatabase (db : Database) : Database :=
  { tables := fun id => (db.tables id).applyToDatabase
    history := db.history ++ db.historyWs
    historyWs := [] }

def clearAll (db : Database) : Database :=
  { tables := fun id => (db.tables id).clearWriteset, history := db.history, historyWs := [] }

structure Clean (db : Database) : Prop where
  tables : ∀ id, (db.tables id).ws = .empty
  history : db.historyWs = []

end Database

inductive Result where
  | success
  | fail
  | abort
  deriving DecidableEq, Repr

inductive Status where
  | success
  | userAbort
  | systemAbort
  | bug
  deriving DecidableEq, Repr

inductive Exit where
  | status (status : Status)
  | exception (message : String)
  deriving DecidableEq, Repr

structure World where
  db : Database
  /-- The outcomes of `urand_int(1, 100) == 1` that are still to come. -/
  aborts : List Bool
  /-- The counter of `get_timestamp`. -/
  clock : Int

abbrev Tx (α : Type) := Program World Exit α

namespace Tx

/-- `not_succeeded` followed by `kill`. -/
def orKill (res : Result) : Tx Unit := do
  let w ← get
  match res with
  | .success =>
    match w.aborts with
    | true :: rest =>
      modify fun w => { w with db := w.db.clearAll, aborts := rest }
      throw (.status .systemAbort)
    | _ => modify fun w => { w with aborts := w.aborts.tail }
  | .fail => throw (.status .bug)
  | .abort =>
    modify fun w => { w with db := w.db.clearAll }
    throw (.status .systemAbort)

/-- `get_record` with the check of its result. -/
def getRecord (id : TableId) (key : Nat) : Tx (RecordOf id) := do
  match (← get).db.rows id key with
  | some record =>
    orKill .success
    pure record
  | none =>
    orKill .fail
    pure default

def prepareRecordForUpdate (id : TableId) (key : Nat) : Tx (RecordOf id) := do
  match ((← get).db.tables id).applyUpdateToWriteset key with
  | .ok (table, record) =>
    modify fun w => { w with db := w.db.set id table }
    pure record
  | .error message => throw (.exception message)

def prepareRecordForInsert (id : TableId) (key : Nat) : Tx Unit := do
  match ((← get).db.tables id).applyInsertToWriteset key with
  | .ok table => modify fun w => { w with db := w.db.set id table }
  | .error message => throw (.exception message)

def prepareRecordForDelete (id : TableId) (key : Nat) : Tx Unit := do
  match ((← get).db.tables id).applyDeleteToWriteset key with
  | .ok table => modify fun w => { w with db := w.db.set id table }
  | .error message => throw (.exception message)

def write (id : TableId) (key : Nat) (record : RecordOf id) : Tx Unit :=
  modify fun w => { w with db := w.db.set id ((w.db.tables id).write key record) }

def insertHistory (h : History) : Tx Unit :=
  modify fun w => { w with db := { w.db with historyWs := w.db.historyWs ++ [h] } }

def getTimestamp : Tx Int := do
  let w ← get
  modify fun w => { w with clock := w.clock + 1 }
  pure w.clock

def commit : Tx Unit := modify fun w => { w with db := w.db.applyToDatabase }

end Tx

/-! ## Transactions under way -/

abbrev Logs := (id : TableId) → Nat → Option (Log (RecordOf id))

namespace Logs

def empty : Logs := fun _ _ => none

def set (logs : Logs) (id : TableId) (key : Nat) (log : Log (RecordOf id)) : Logs :=
  Function.update logs id (Function.update (logs id) key (some log))

variable {logs : Logs} {id other : TableId} {key otherKey : Nat} {log log' : Log (RecordOf id)}

@[simp] theorem set_self : logs.set id key log id key = some log := by simp [set]

theorem set_key : logs.set id key log id otherKey =
    if otherKey = key then some log else logs id otherKey := by
  simp [set, Function.update_apply]

@[simp] theorem set_key_of_ne (different : otherKey ≠ key) :
    logs.set id key log id otherKey = logs id otherKey := by
  simp [set, different]

@[simp] theorem set_table_of_ne (different : other ≠ id) :
    logs.set id key log other = logs other := by
  simp [set, different]

@[simp] theorem set_set : (logs.set id key log).set id key log' = logs.set id key log' := by
  simp [set]

theorem set_eq_self (present : logs id key = some log) : logs.set id key log = logs := by
  unfold set
  rw [← present]
  simp

def apply (logs : Logs) (rows : (id : TableId) → Nat → Option (RecordOf id)) (id : TableId)
    (key : Nat) : Option (RecordOf id) :=
  match logs id key with
  | none => rows id key
  | some log => log.effect (rows id key)

end Logs

/-- A transaction that started from `start` with the draws `aborts` and has logged `logs`. -/
structure Running (start : Database) (aborts : List Bool) (logs : Logs) (w : World) : Prop where
  rows : ∀ id, (w.db.tables id).rows = (start.tables id).rows
  logs : ∀ id key, (w.db.tables id).ws.get? key = logs id key
  history : w.db.history = start.history
  aborts : w.aborts <:+ aborts

/-- The early ends of a transaction: an injected abort, or an abort of the user, which
leaves the write set to `tx.abort()`. -/
def Stopped (start : Database) (aborts : List Bool) (user : Prop) : Exit → World → Prop
  | .status .systemAbort, w => w.db = start ∧ true ∈ aborts
  | .status .userAbort, w => w.db.clearAll = start ∧ user
  | _, _ => False

/-- A transaction that the user does not abort ends early only by an injected abort. -/
theorem Stopped.injected {start : Database} {aborts : List Bool} {code : Exit} {w : World}
    (stopped : Stopped start aborts False code w) :
    code = .status .systemAbort ∧ w.db = start ∧ true ∈ aborts := by
  unfold Stopped at stopped
  split at stopped
  · exact ⟨rfl, stopped⟩
  · exact stopped.2.elim
  · exact stopped.elim

structure Committed (start : Database) (logs : Logs) (w : World) : Prop where
  clean : w.db.Clean
  rows : ∀ id key, w.db.rows id key = logs.apply start.rows id key

theorem Committed.rows_eq {start : Database} {logs : Logs} {w : World}
    (committed : Committed start logs w) : w.db.rows = logs.apply start.rows := by
  funext id key
  exact committed.rows id key

section Calls
variable {start : Database} {aborts : List Bool} {logs : Logs} {user : Prop}
variable {id : TableId} {key : Nat}

theorem Running.clearAll {w : World} (clean : start.Clean) (running : Running start aborts logs w) :
    w.db.clearAll = start := by
  obtain ⟨tables, history, historyWs⟩ := start
  unfold Database.clearAll
  rw [running.history]
  have pending : historyWs = [] := clean.history
  subst pending
  congr 1
  funext id
  have rows := running.rows id
  have empty := clean.tables id
  unfold Relation.clearWriteset
  rw [rows, ← empty]

theorem Running.initial {clock : Int} (clean : start.Clean) :
    Running start aborts Logs.empty { db := start, aborts := aborts, clock := clock } := by
  refine ⟨fun _ => rfl, fun id key => ?_, rfl, List.suffix_refl _⟩
  simp [clean.tables id, Logs.empty]

theorem Running.set {w : World} {table : Relation Nat (RecordOf id)} {logs' : Logs}
    (running : Running start aborts logs w) (rows : table.rows = (w.db.tables id).rows)
    (mine : ∀ key, table.ws.get? key = logs' id key)
    (others : ∀ other, other ≠ id → logs' other = logs other) :
    Running start aborts logs' { w with db := w.db.set id table } := by
  refine ⟨fun other => ?_, fun other key => ?_, running.history, running.aborts⟩
  · by_cases same : other = id
    · subst same
      simp [Database.set, rows, running.rows]
    · simp [Database.set, same, running.rows]
  · by_cases same : other = id
    · subst same
      simpa [Database.set] using mine key
    · simp [Database.set, same, others other same, running.logs]

theorem orKill_spec (clean : start.Clean) :
    Triple (Running start aborts logs) (Tx.orKill .success)
      (fun _ => Running start aborts logs) (Stopped start aborts user) := by
  intro w running
  have rest : w.aborts.tail <:+ aborts := (List.tail_suffix _).trans running.aborts
  cases draws : w.aborts with
  | nil =>
    simp only [Tx.orKill, Program.result_bind, Program.result_get, draws,
      Program.result_modify]
    exact { running with aborts := by simp }
  | cons draw later =>
    have drawn := running.aborts
    rw [draws] at drawn
    cases draw with
    | false =>
      simp only [Tx.orKill, Program.result_bind, Program.result_get, draws,
        Program.result_modify]
      exact { running with aborts := by simpa [draws] using rest }
    | true =>
      simp only [Tx.orKill, Program.result_bind, Program.result_get, draws,
        Program.result_modify, Program.result_throw]
      exact ⟨running.clearAll clean, drawn.subset List.mem_cons_self⟩

theorem getRecord_spec (clean : start.Clean) {record : RecordOf id}
    (present : start.rows id key = some record) :
    Triple (Running start aborts logs) (Tx.getRecord id key)
      (fun found w => found = record ∧ Running start aborts logs w)
      (Stopped start aborts user) := by
  intro w running
  have stored : w.db.rows id key = some record := by
    unfold Database.rows
    rw [running.rows]
    exact present
  have checked := (orKill_spec clean : Triple (Running start aborts logs) _ _
    (Stopped start aborts user)) w running
  simp only [Tx.getRecord, Program.result_bind, Program.result_get, stored]
  cases result : (Tx.orKill .success).result w with
  | mk outcome after =>
    rw [result] at checked
    cases outcome with
    | ok value => exact ⟨rfl, checked⟩
    | error code => exact checked

def Latest (start : Database) (logs : Logs) (id : TableId) (key : Nat) (record : RecordOf id) :
    Prop :=
  logs id key = some { lt := .update, record := record } ∨
    logs id key = none ∧ start.rows id key = some record

/-- What the write set refuses is thrown. -/
theorem prepareRecordForUpdate_rule {P : World → Prop} {Q : RecordOf id → World → Prop}
    {exit : Exit → World → Prop}
    (accepted : ∀ w table record, P w →
      (w.db.tables id).applyUpdateToWriteset key = .ok (table, record) →
      Q record { w with db := w.db.set id table })
    (refused : ∀ w message, P w →
      (w.db.tables id).applyUpdateToWriteset key = .error message →
      exit (.exception message) w) :
    Triple P (Tx.prepareRecordForUpdate id key) Q exit := by
  intro w holds
  cases prepared : (w.db.tables id).applyUpdateToWriteset key with
  | error message =>
    simp only [Tx.prepareRecordForUpdate, Program.result_bind, Program.result_get, prepared]
    exact refused w message holds prepared
  | ok found =>
    simp only [Tx.prepareRecordForUpdate, Program.result_bind, Program.result_get, prepared]
    exact accepted w found.1 found.2 holds prepared

theorem prepareRecordForUpdate_spec {record : RecordOf id}
    (latest : Latest start logs id key record) :
    Triple (Running start aborts logs) (Tx.prepareRecordForUpdate id key)
      (fun found w => found = record ∧
        Running start aborts (logs.set id key { lt := .update, record := record }) w)
      (Stopped start aborts user) := by
  intro w running
  have logged := running.logs id key
  obtain present | ⟨absent, row⟩ := latest
  · rw [present] at logged
    have prepared : (w.db.tables id).applyUpdateToWriteset key =
        .ok (w.db.tables id, record) := by
      simp [Relation.applyUpdateToWriteset, logged]
    simp only [Tx.prepareRecordForUpdate, Program.result_bind, Program.result_get, prepared,
      Program.result_modify, Program.result_pure]
    refine ⟨trivial, ?_⟩
    rw [Logs.set_eq_self present]
    exact running.set rfl (running.logs id) fun _ _ => rfl
  · rw [absent] at logged
    have stored : (w.db.tables id).rows.get? key = some record := by
      rw [running.rows]
      exact row
    have prepared : (w.db.tables id).applyUpdateToWriteset key =
        .ok ({ w.db.tables id with
          ws := (w.db.tables id).ws.insert key { lt := .update, record := record } }, record) := by
      simp [Relation.applyUpdateToWriteset, logged, stored]
    simp only [Tx.prepareRecordForUpdate, Program.result_bind, Program.result_get, prepared,
      Program.result_modify, Program.result_pure]
    refine ⟨trivial, running.set rfl (fun other => ?_) fun _ => Logs.set_table_of_ne⟩
    rw [OrderedMap.get?_insert, Logs.set_key, running.logs]

theorem prepareRecordForInsert_spec (absent : logs id key = none) :
    Triple (Running start aborts logs) (Tx.prepareRecordForInsert id key)
      (fun _ => Running start aborts (logs.set id key { lt := .insert, record := default }))
      (Stopped start aborts user) := by
  intro w running
  have logged := running.logs id key
  rw [absent] at logged
  have prepared : (w.db.tables id).applyInsertToWriteset key =
      .ok { w.db.tables id with
        ws := (w.db.tables id).ws.insert key { lt := .insert, record := default } } := by
    simp [Relation.applyInsertToWriteset, logged]
  simp only [Tx.prepareRecordForInsert, Program.result_bind, Program.result_get, prepared,
    Program.result_modify]
  refine running.set rfl (fun other => ?_) fun _ => Logs.set_table_of_ne
  rw [OrderedMap.get?_insert, Logs.set_key, running.logs]

theorem prepareRecordForDelete_spec (absent : logs id key = none)
    (present : (start.rows id key).isSome) :
    Triple (Running start aborts logs) (Tx.prepareRecordForDelete id key)
      (fun _ => Running start aborts (logs.set id key { lt := .delete, record := default }))
      (Stopped start aborts user) := by
  intro w running
  have logged := running.logs id key
  rw [absent] at logged
  obtain ⟨record, row⟩ := Option.isSome_iff_exists.mp present
  have stored : (w.db.tables id).rows.get? key = some record := by
    rw [running.rows]
    exact row
  have prepared : (w.db.tables id).applyDeleteToWriteset key =
      .ok { w.db.tables id with
        ws := (w.db.tables id).ws.insert key { lt := .delete, record := default } } := by
    simp [Relation.applyDeleteToWriteset, logged, stored]
  simp only [Tx.prepareRecordForDelete, Program.result_bind, Program.result_get, prepared,
    Program.result_modify]
  refine running.set rfl (fun other => ?_) fun _ => Logs.set_table_of_ne
  rw [OrderedMap.get?_insert, Logs.set_key, running.logs]

theorem write_spec {log : Log (RecordOf id)} (present : logs id key = some log)
    (record : RecordOf id) :
    Triple (Running start aborts logs) (Tx.write id key record)
      (fun _ => Running start aborts (logs.set id key { log with record := record }))
      (Stopped start aborts user) := by
  intro w running
  have logged := running.logs id key
  rw [present] at logged
  simp only [Tx.write, Program.result_modify]
  refine running.set (Relation.write_rows _ _ _) (fun other => ?_) fun _ => Logs.set_table_of_ne
  rw [Relation.get?_write, Logs.set_key, logged, running.logs]
  rfl

theorem write_again {log : Log (RecordOf id)} (record : RecordOf id) :
    Triple (Running start aborts (logs.set id key log)) (Tx.write id key record)
      (fun _ => Running start aborts (logs.set id key { log with record := record }))
      (Stopped start aborts user) := by
  have spec : Triple (Running start aborts (logs.set id key log)) (Tx.write id key record)
      (fun _ => Running start aborts
        ((logs.set id key log).set id key { log with record := record }))
      (Stopped start aborts user) := write_spec Logs.set_self record
  rwa [Logs.set_set] at spec

theorem insertHistory_spec (h : History) :
    Triple (Running start aborts logs) (Tx.insertHistory h)
      (fun _ => Running start aborts logs) (Stopped start aborts user) := by
  intro w running
  exact ⟨running.rows, running.logs, running.history, running.aborts⟩

theorem getTimestamp_spec :
    Triple (Running start aborts logs) Tx.getTimestamp
      (fun _ => Running start aborts logs) (Stopped start aborts user) := by
  intro w running
  exact ⟨running.rows, running.logs, running.history, running.aborts⟩

theorem commit_spec :
    Triple (Running start aborts logs) Tx.commit (fun _ => Committed start logs)
      (Stopped start aborts user) := by
  intro w running
  refine ⟨⟨fun _ => rfl, rfl⟩, fun id key => ?_⟩
  change (w.db.tables id).applyToDatabase.rows.get? key = _
  rw [Relation.get?_applyToDatabase, running.logs, running.rows]
  unfold Logs.apply
  cases logs id key <;> rfl

end Calls

end TpccRunner.Naive
