import TpccRunner.Lib.StepSystem

/-!
# The timestamp manager

`protocols/common/timestamp_manager.hpp`.  A worker draws a timestamp from its own
counter `txn_cnt` (`get_new_ts`, `get_abort_boosted_ts`), now and then catching up
with the counter of another worker (`synchronize`).  A background thread
(`set_gc_ts`) samples all counters and hands every worker the smallest one, less
one, and the largest one.  Each atomic load, store and addition is a step of its own,
in 64-bit arithmetic.
-/

set_option autoImplicit false

namespace TpccRunner.TimeStamp

open Lib

variable {n : Nat}

/-- `cnt << 8 | worker_id`. -/
def getTs (cnt : Nat) (worker : Fin n) : Nat := (cnt <<< 8 ||| worker.val) % 2 ^ 64

/-- Where a worker is inside `get_new_ts` or `get_abort_boosted_ts`: `cnt` is what
`fetch_add` returned, `next` the counter that `synchronize` is about to copy. -/
inductive Stage where
  | idle
  | synchronizing (cnt : Nat)
  | storing (cnt next : Nat)
  deriving DecidableEq

structure Worker where
  txnCnt : Nat
  smallestTxnCnt : Nat
  largestTxnCnt : Nat
  abortCnt : Nat
  nextWorkerOffset : Nat
  /-- `set_worker` has been called. -/
  registered : Bool
  stage : Stage
  /-- The arguments of `begin_tx` or `set_new_ts` evaluated so far: the new timestamp,
  `get_smallest_ts()` and `get_largest_ts()`. -/
  ts : Option Nat
  smallestTs : Option Nat
  largestTs : Option Nat

def Worker.new : Worker where
  txnCnt := 1
  smallestTxnCnt := 1
  largestTxnCnt := 1
  abortCnt := 0
  nextWorkerOffset := 0
  registered := false
  stage := .idle
  ts := none
  smallestTs := none
  largestTs := none

inductive GcThread (n : Nat) where
  | asleep
  | sampling (smallest largest : Nat) (rest : List (Fin n))
  | storing (smallest largest : Nat) (rest : List (Fin n))
  | storingLargest (smallest largest : Nat) (worker : Fin n) (rest : List (Fin n))

structure State (n : Nat) where
  worker : Fin n → Worker
  gc : GcThread n

def start : State n where
  worker _ := Worker.new
  gc := .asleep

inductive Label (n : Nat) where
  | setWorker (worker : Fin n)
  | newTs (worker : Fin n)
  | abortBoostedTs (worker : Fin n)
  | syncLoad (worker : Fin n)
  | syncStore (worker : Fin n)
  | loadSmallest (worker : Fin n)
  | loadLargest (worker : Fin n)
  | gcStart
  | gcSample
  | gcStore
  deriving DecidableEq

def State.setWorker (state : State n) (worker : Fin n) (record : Worker) : State n :=
  { state with worker := Function.update state.worker worker record }

/-- `fetch_add(txn_cnt, increment)`; the timestamp is known unless the counter is due
for synchronization. -/
def Worker.fetchAdd (record : Worker) (synchronizeCnt increment : Nat) (worker : Fin n) : Worker :=
  let cnt := record.txnCnt
  let added := { record with txnCnt := (cnt + increment) % 2 ^ 64 }
  if cnt % synchronizeCnt = 0 then { added with stage := .synchronizing cnt }
  else { added with ts := some (getTs cnt worker) }

def Worker.finishTs (record : Worker) (cnt : Nat) (worker : Fin n) : Worker :=
  { record with stage := .idle, ts := some (getTs cnt worker) }

/-- The worker whose counter `synchronize` looks at, unless there is only one. -/
def nextWorker (worker : Fin n) (nextWorkerOffset : Nat) : Fin n :=
  ⟨(worker.val + (nextWorkerOffset % (n - 1) + 1)) % n,
    Nat.mod_lt _ (Nat.lt_of_le_of_lt (Nat.zero_le _) worker.isLt)⟩

/-- `synchronize` up to the comparison of the counters. -/
def State.syncLoad (state : State n) (worker : Fin n) (cnt : Nat) : State n :=
  let record := state.worker worker
  let turned := { record with nextWorkerOffset := (record.nextWorkerOffset + 1) % 2 ^ 8 }
  let next := state.worker (nextWorker worker record.nextWorkerOffset)
  if n = 1 ∨ next.registered = false ∨ next.txnCnt ≤ record.txnCnt then
    state.setWorker worker (turned.finishTs cnt worker)
  else state.setWorker worker { turned with stage := .storing cnt next.txnCnt }

/-- One visit of the loop of `get_gc_txn_cnt`. -/
def State.sample (state : State n) (smallest largest : Nat) (worker : Fin n) : Nat × Nat :=
  let record := state.worker worker
  if record.registered then (min record.txnCnt smallest, max record.txnCnt largest)
  else (smallest, largest)

/-- The next store of `set_gc_ts`. -/
def State.gcStore (state : State n) : Option (State n) :=
  match state.gc with
  | .storing smallest largest (worker :: rest) =>
    let record := state.worker worker
    if record.registered then
      some { state.setWorker worker
          { record with smallestTxnCnt := (smallest + (2 ^ 64 - 1)) % 2 ^ 64 } with
        gc := .storingLargest smallest largest worker rest }
    else some { state with gc := .storing smallest largest rest }
  | .storingLargest smallest largest worker rest =>
    some { state.setWorker worker { state.worker worker with largestTxnCnt := largest } with
      gc := .storing smallest largest rest }
  | .storing _ _ [] => some { state with gc := .asleep }
  | _ => none

def step (synchronizeCnt : Nat) (state : State n) : Label n → Option (State n)
  | .setWorker worker =>
    some (state.setWorker worker { state.worker worker with registered := true })
  | .newTs worker =>
    let record := state.worker worker
    if record.registered = true ∧ record.stage = .idle ∧ record.ts = none then
      some (state.setWorker worker
        ({ record with abortCnt := 0 }.fetchAdd synchronizeCnt 1 worker))
    else none
  | .abortBoostedTs worker =>
    let record := state.worker worker
    if record.registered = true ∧ record.stage = .idle ∧ record.ts = none then
      let abortCnt := (record.abortCnt + 1) % 2 ^ 64
      some (state.setWorker worker
        ({ record with abortCnt }.fetchAdd synchronizeCnt (2 ^ min abortCnt 2) worker))
    else none
  | .syncLoad worker =>
    match (state.worker worker).stage with
    | .synchronizing cnt => some (state.syncLoad worker cnt)
    | _ => none
  | .syncStore worker =>
    match (state.worker worker).stage with
    | .storing cnt next =>
      some (state.setWorker worker
        ({ state.worker worker with txnCnt := next }.finishTs cnt worker))
    | _ => none
  | .loadSmallest worker =>
    -- the order in which the arguments are evaluated is not specified
    let record := state.worker worker
    if record.stage = .idle then
      some (state.setWorker worker
        { record with smallestTs := some (getTs record.smallestTxnCnt worker) })
    else none
  | .loadLargest worker =>
    let record := state.worker worker
    if record.stage = .idle then
      some (state.setWorker worker
        { record with largestTs := some (getTs record.largestTxnCnt worker) })
    else none
  | .gcStart =>
    match state.gc with
    | .asleep => some { state with gc := .sampling (2 ^ 64 - 1) 0 (List.finRange n) }
    | _ => none
  | .gcSample =>
    match state.gc with
    | .sampling smallest largest (worker :: rest) =>
      let (smallest, largest) := state.sample smallest largest worker
      some { state with gc := .sampling smallest largest rest }
    | .sampling smallest largest [] =>
      some { state with gc := .storing smallest largest (List.finRange n) }
    | _ => none
  | .gcStore => state.gcStore

/-- `begin_tx` draws a new timestamp, an abort a boosted one. -/
def Label.mayDraw (begins aborted : Fin n → Bool) : Label n → Bool
  | .newTs worker => begins worker
  | .abortBoostedTs worker => aborted worker
  | _ => true

/-- The arguments of `begin_tx` or `set_new_ts`, once all of them are evaluated. -/
def Worker.arguments (record : Worker) : Option (Nat × Nat × Nat) :=
  match record.ts, record.smallestTs, record.largestTs with
  | some ts, some smallestTs, some largestTs => some (ts, smallestTs, largestTs)
  | _, _, _ => none

def State.takeArguments (state : State n) (worker : Fin n) : State n :=
  state.setWorker worker { state.worker worker with
    ts := none
    smallestTs := none
    largestTs := none }

/-- The drivers synchronize on every timestamp. -/
def drawArguments (worker : Fin n) : List (Label n) :=
  [.newTs worker, .syncLoad worker, .loadSmallest worker, .loadLargest worker]

end TpccRunner.TimeStamp
