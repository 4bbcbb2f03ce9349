import TpccRunner.Common.ReadWriteSet
import TpccRunner.Indexes.Masstree
import TpccRunner.Lib.Serial
import TpccRunner.Lib.StepSystem

/-!
# Silo

The operations, `precommit` and `abort` of `protocols/silo/include/silo.hpp`, for any number
of transactions.  The steps are the index calls, the record reads, and in `precommit` one
element of the write set, the read set or the node set at a time.

`get_record_pointer` and `copy_record` return only when the tidword was the same, and
unlocked, before and after the record was loaded; together they are one step here, which
waits for the lock.  The exchange of a record and the store of its tidword are one step as
well, and the deletion from the index after it another.  A key stands for a table with a key
of it, records are modelled by their contents, and the epoch thread may add to the global
epoch at any time.  Scans have `count = -1` and go upwards.
-/

set_option autoImplicit false

namespace TpccRunner.Silo

open Lib Masstree

variable {I K R : Type}

structure TidWord where
  lock : Bool
  latest : Bool
  absent : Bool
  /-- 29 bits. -/
  tid : Nat
  /-- 32 bits. -/
  epoch : Nat
  deriving DecidableEq

namespace TidWord

def isReadable (tw : TidWord) : Bool := !tw.absent && tw.latest

def isValid (current expected : TidWord) : Bool :=
  current.epoch = expected.epoch && current.tid = expected.tid && current.isReadable

end TidWord

/-- `Value`.  `writer` only records whose record it is: the serial point of a transaction,
0 for what was loaded. -/
structure Value (R : Type) where
  tidword : TidWord
  record : Option R
  writer : Nat

def Value.loaded (record : R) : Value R where
  tidword := { lock := false, latest := true, absent := false, tid := 0, epoch := 0 }
  record := some record
  writer := 0

/-- The value that `insert`, `write` and `upsert` put into the index. -/
def Value.placeholder : Value R where
  tidword := { lock := false, latest := true, absent := true, tid := 0, epoch := 0 }
  record := none
  writer := 0

/-- What `abort` makes of a value that its transaction has put into the index. -/
def Value.retired (value : Value R) : Value R :=
  { value with tidword := { value.tidword with absent := true, latest := false } }

inductive Operation where
  | read
  | insert
  | update
  | write
  | upsert
  | remove
  deriving DecidableEq

/-- `ReadWriteElement`.  `seen` and `base` only record which record was read with `tw`. -/
structure ReadWriteElement (R : Type) where
  record : Option R
  tw : TidWord
  rwt : ReadWriteType
  isNew : Bool
  val : Nat
  seen : Nat
  base : Option R

structure Outcome (K R : Type) where
  element : ReadWriteElement R
  /-- The key is appended to the write set. -/
  pushed : Bool
  /-- The record the operation returns; `none` for `nullptr`. -/
  result : Option R
  events : List (Event K (Option R))

/-- The operations that return `nullptr` without looking at the value. -/
def ReadWriteElement.refuses (element : ReadWriteElement R) (op : Operation) : Bool :=
  match op, element.rwt with
  | .read, .delete | .insert, .read | .insert, .update | .insert, .insert | .update, .delete
  | .remove, .delete => true
  | _, _ => false

/-- An operation on a key of the read/write set that has found the tidword unchanged.
`fresh` is the content of a newly allocated record. -/
def ReadWriteElement.perform (element : ReadWriteElement R) (op : Operation) (key : K)
    (current : Option R) (fresh : R) : Option (Outcome K R) :=
  match op, element.rwt with
  | .read, .read => some ⟨element, false, current, [.read key current]⟩
  | .read, .update | .read, .insert | .update, .update | .update, .insert | .upsert, .update
  | .upsert, .insert => some ⟨element, false, element.record, [.read key element.record]⟩
  | .write, .update | .write, .insert =>
    some ⟨element, false, element.record, [.write key element.record]⟩
  | .update, .read | .upsert, .read =>
    some ⟨{ element with record := current, rwt := .update }, true, current,
      [.read key current]⟩
  | .write, .read =>
    some ⟨{ element with record := current, rwt := .update }, true, current,
      [.write key current]⟩
  | .insert, .delete =>
    some ⟨{ element with record := some fresh, rwt := .update }, false, some fresh,
      [.read key none, .write key (some fresh)]⟩
  | .write, .delete | .upsert, .delete =>
    some ⟨{ element with record := some fresh, rwt := .update }, false, some fresh,
      [.write key (some fresh)]⟩
  | .remove, .read =>
    some ⟨{ element with rwt := .delete }, true, current,
      [.read key current, .write key none]⟩
  | .remove, .update | .remove, .insert =>
    some ⟨{ element with record := none, rwt := .delete }, false, current, [.write key none]⟩
  | .read, .delete | .insert, .read | .insert, .update | .insert, .insert | .update, .delete
  | .remove, .delete => none

def Value.access (value : Value R) (op : Operation) (key : K) (val : Nat) :
    Option (Outcome K R) :=
  let element (record : Option R) (rwt : ReadWriteType) : ReadWriteElement R :=
    ⟨record, value.tidword, rwt, false, val, value.writer, value.record⟩
  if value.tidword.isReadable then
    match op with
    | .read => some ⟨element none .read, false, value.record, [.read key value.record]⟩
    | .update | .upsert =>
      some ⟨element value.record .update, true, value.record, [.read key value.record]⟩
    | .write =>
      some ⟨element value.record .insert, true, value.record, [.write key value.record]⟩
    | .remove =>
      some ⟨element none .delete, true, value.record,
        [.read key value.record, .write key none]⟩
    | .insert => none
  else none

/-- What phase 3 stores into the value of an element. -/
def ReadWriteElement.installed (element : ReadWriteElement R)
    (epoch tid serial : Nat) : Value R where
  tidword :=
    { lock := false
      latest := element.rwt ≠ .delete
      absent := element.rwt = .delete
      tid
      epoch }
  record := element.record
  writer := serial

def Outcome.inserted (op : Operation) (key : K) (val : Nat) (fresh : R) : Outcome K R where
  element := ⟨some fresh, (Value.placeholder : Value R).tidword, .insert, true, val, 0, none⟩
  pushed := true
  result := some fresh
  events :=
    if op = .insert then [.read key none, .write key (some fresh)] else [.write key (some fresh)]

/-- Where a transaction is.  The lists are the parts of the loops that are still to do (and,
in phase 1, the part that is done). -/
inductive Phase (K R : Type) where
  | running
  | found (op : Operation) (key : K) (val : Nat)
  | missing (op : Operation) (key : K)
  | scanning (op : Operation) (low up cursor : K) (listed : List (K × Nat))
  | visiting (op : Operation) (low up : K) (rest : List (K × Nat)) (rows : List (K × Option R))
  | locking (locked rest : List K) (tid : Nat)
  | validating (epoch tid : Nat) (rest : List K)
  | verifying (epoch tid : Nat) (rest : NodeMap)
  | writing (epoch tid : Nat) (rest : List K)
  | removing (epoch tid : Nat) (key : K) (rest : List K)
  | committed
  | unlocking (rest : List K)
  | failed
  | aborting (rest : List K)
  | retired (key : K) (rest : List K)
  | aborted

structure Scan (K R : Type) where
  low : K
  up : K
  rows : List (K × Option R)

/-- A transaction.  `serial`, `log`, `scans` and `created` only record what it has done: its
serial point, what its operations have shown to and taken from their caller, its scans, and
the values it has put into the index. -/
structure Tx (K R : Type) where
  phase : Phase K R
  rws : K → Option (ReadWriteElement R)
  /-- The keys of `rws`. -/
  touched : List K
  ws : List K
  ns : NodeMap
  serial : Nat
  log : List (Event K (Option R))
  scans : List (Scan K R)
  created : List Nat

def Tx.new : Tx K R where
  phase := .running
  rws _ := none
  touched := []
  ws := []
  ns := []
  serial := 0
  log := []
  scans := []
  created := []

def Tx.moveTo (tx : Tx K R) (phase : Phase K R) : Tx K R := { tx with phase }

section Transaction
variable [LinearOrder K]

def Tx.settle (tx : Tx K R) (key : K) (outcome : Outcome K R) : Tx K R :=
  { tx with
    rws := Function.update tx.rws key (some outcome.element)
    touched := if key ∈ tx.touched then tx.touched else tx.touched ++ [key]
    ws := if outcome.pushed then tx.ws ++ [key] else tx.ws
    log := tx.log ++ outcome.events }

def Tx.target (tx : Tx K R) (key : K) (val : Nat) : Nat :=
  match tx.rws key with
  | none => val
  | some element => element.val

/-- An operation that has read `value`; `none` where it returns `nullptr` or false. -/
def Tx.access (tx : Tx K R) (op : Operation) (key : K) (val : Nat) (value : Value R) (fresh : R) :
    Option (Outcome K R) :=
  match tx.rws key with
  | none => value.access op key val
  | some element =>
    if value.tidword = element.tw then element.perform op key value.record fresh else none

/-- The walk of `unlock_writeset` up to `last`, or to the end. -/
def unlockWriteset (last : Option K) : List K → List K
  | [] => []
  | key :: rest => key :: if some key = last then [] else unlockWriteset last rest

end Transaction

structure State (I K R : Type) [LinearOrder K] where
  index : Index K
  value : Nat → Value R
  nextVal : Nat
  globalEpoch : Nat
  tx : I → Tx K R
  /-- The transactions in the order of their serial points. -/
  order : List I

structure Contents (K R : Type) [LinearOrder K] where
  index : Index K
  records : Nat → R
  nextVal : Nat
  injective : ∀ key other val, index.find key = some val → index.find other = some val → key = other
  bounded : ∀ key val, index.find key = some val → val < nextVal

variable [LinearOrder K]

def start (contents : Contents K R) : State I K R where
  index := contents.index
  value val := Value.loaded (contents.records val)
  nextVal := contents.nextVal
  globalEpoch := 1
  tx _ := Tx.new
  order := []

inductive Label (I K R : Type) where
  | advanceEpoch
  | call (i : I) (op : Operation) (key : K)
  | access (i : I) (fresh : R)
  | insertKey (i : I) (fresh : R) (fence : Option K)
  | store (i : I) (key : K) (record : R)
  | scan (i : I) (op : Operation) (low up : K)
  | scanLeaf (i : I)
  | visit (i : I) (fresh : R)
  | precommit (i : I)
  | lockNext (i : I)
  | loadEpoch (i : I) (order : List K)
  | validateNext (i : I)
  | verifyNext (i : I)
  | writeNext (i : I)
  | removeNext (i : I)
  | unlockNext (i : I)
  | abort (i : I)
  | abortNext (i : I)
  | unlinkNext (i : I)

variable [DecidableEq I]

namespace State

def setTx (state : State I K R) (i : I) (tx : Tx K R) : State I K R :=
  { state with tx := Function.update state.tx i tx }

def setPhase (state : State I K R) (i : I) (phase : Phase K R) : State I K R :=
  state.setTx i ((state.tx i).moveTo phase)

def setValue (state : State I K R) (val : Nat) (value : Value R) : State I K R :=
  { state with value := Function.update state.value val value }

def setLock (state : State I K R) (val : Nat) (lock : Bool) : State I K R :=
  let value := state.value val
  state.setValue val { value with tidword := { value.tidword with lock } }

/-! ## Operations -/

/-- The start of an operation: it looks for its key in the read/write set, then in the
index. -/
def call (state : State I K R) (i : I) (op : Operation) (key : K) : Option (State I K R) :=
  let tx := state.tx i
  match tx.phase, tx.rws key with
  | .running, some element =>
    if element.refuses op then some state
    else some (state.setPhase i (.found op key element.val))
  | .running, none =>
    match state.index.find key, op with
    | some _, .insert => some state
    | some val, _ => some (state.setPhase i (.found op key val))
    | none, .insert | none, .write | none, .upsert => some (state.setPhase i (.missing op key))
    | none, .read =>
      let leaf := state.index.leafOf key
      some (state.setTx i { tx with ns := NodeMap.emplace tx.ns leaf (state.index.version leaf) })
    | none, .update | none, .remove => some state
  | _, _ => none

def access (state : State I K R) (i : I) (fresh : R) : Option (State I K R) :=
  let tx := state.tx i
  match tx.phase with
  | .found op key val =>
    let value := state.value (tx.target key val)
    if value.tidword.lock then none
    else
      match tx.access op key val value fresh with
      | none => some (state.setPhase i .running)
      | some outcome => some (state.setTx i ((tx.settle key outcome).moveTo .running))
  | _ => none

/-- `idx.insert` of a placeholder.  A `BAD_INSERT` returns `nullptr` but keeps the element. -/
def insertKey (state : State I K R) (i : I) (fresh : R) (fence : Option K) :
    Option (State I K R) :=
  let tx := state.tx i
  match tx.phase with
  | .missing op key =>
    match state.index.find key with
    | some _ => some (state.setPhase i .running)
    | none =>
      (state.index.makeRoom key fence).map fun room =>
        let index := room.add key state.nextVal
        let leaf := index.leafOf key
        let ns := NodeMap.afterInsert tx.ns leaf (state.index.version leaf) (index.version leaf)
        { (state.setValue state.nextVal Value.placeholder).setTx i
            { tx.settle key (Outcome.inserted op key state.nextVal fresh) with
              phase := .running
              ns := ns.getD tx.ns
              created := tx.created ++ [state.nextVal] } with
          index
          nextVal := state.nextVal + 1 }
  | _ => none

def store (state : State I K R) (i : I) (key : K) (record : R) : Option (State I K R) :=
  let tx := state.tx i
  match tx.phase, tx.rws key with
  | .running, some element =>
    if element.rwt = .update ∨ element.rwt = .insert then
      some (state.setTx i (tx.settle key
        ⟨{ element with record := some record }, false, none, [.write key (some record)]⟩))
    else none
  | _, _ => none

def scan (state : State I K R) (i : I) (op : Operation) (low up : K) : Option (State I K R) :=
  match (state.tx i).phase, op with
  | .running, .read | .running, .update =>
    some (state.setPhase i (.scanning op low up low []))
  | _, _ => none

/-- One leaf of the range: its version goes to the node set, its keys to `kv_map`. -/
def scanLeaf (state : State I K R) (i : I) : Option (State I K R) :=
  let tx := state.tx i
  match tx.phase with
  | .scanning op low up cursor listed =>
    let leaf := state.index.leafOf cursor
    match NodeMap.visit tx.ns leaf (state.index.version leaf) with
    | none => some (state.setPhase i .running)
    | some ns =>
      let fence := (state.index.nextFence cursor).filter (· < up)
      let listed := listed ++ state.index.entries.range cursor (fence.getD up)
      some (state.setTx i { tx with
        ns
        phase := match fence with
          | some next => .scanning op low up next listed
          | none => .visiting op low up listed [] })
  | _ => none

def visit (state : State I K R) (i : I) (fresh : R) : Option (State I K R) :=
  let tx := state.tx i
  match tx.phase with
  | .visiting op low up ((key, val) :: rest) rows =>
    let value := state.value (tx.target key val)
    if (tx.rws key).any fun element => element.refuses op then
      some (state.setPhase i .running)
    else if value.tidword.lock then none
    else
      match tx.access op key val value fresh with
      | none => some (state.setPhase i .running)
      | some outcome => some (state.setTx i ((tx.settle key outcome).moveTo
          (.visiting op low up rest (rows ++ [(key, outcome.result)]))))
  | .visiting _ low up [] rows =>
    some (state.setTx i { tx with
      phase := .running
      scans := tx.scans ++ [⟨low, up, rows⟩] })
  | _ => none

/-! ## `precommit` -/

/-- The start of `precommit`: phase 1 goes through the write set sorted by key. -/
def precommit (state : State I K R) (i : I) : Option (State I K R) :=
  let tx := state.tx i
  match tx.phase with
  | .running =>
    let sorted := tx.ws.insertionSort (· ≤ ·)
    some (state.setTx i { tx with ws := sorted, phase := .locking [] sorted 0 })
  | _ => none

/-- Phase 1, one element: `lock`, then the check that it is still readable. -/
def lockNext (state : State I K R) (i : I) : Option (State I K R) :=
  let tx := state.tx i
  match tx.phase with
  | .locking locked (key :: rest) tid =>
    (tx.rws key).bind fun element =>
      let current := (state.value element.val).tidword
      if current.lock then none
      else some ((state.setLock element.val true).setPhase i
        (if !element.isNew && !current.isReadable then
          .unlocking (unlockWriteset (some key) tx.ws)
        else .locking (locked ++ [key]) rest (max tid current.tid)))
  | _ => none

/-- The serial point.  Phase 2.1 goes through the read/write set in the order of the hash
map. -/
def loadEpoch (state : State I K R) (i : I) (order : List K) : Option (State I K R) :=
  let tx := state.tx i
  match tx.phase with
  | .locking _ [] tid =>
    if order.isPerm tx.touched then
      some { state.setTx i { tx with
          phase := .validating state.globalEpoch tid order
          serial := state.order.length + 1 } with
        order := state.order ++ [i] }
    else none
  | _ => none

/-- Phase 2.1, one element, and the commit tid after the last one. -/
def validateNext (state : State I K R) (i : I) : Option (State I K R) :=
  let tx := state.tx i
  match tx.phase with
  | .validating epoch tid (key :: rest) =>
    (tx.rws key).map fun element =>
      let current := (state.value element.val).tidword
      state.setPhase i
        (if element.rwt = .insert then .validating epoch tid rest
        else if !current.isValid element.tw || (current.lock && element.rwt = .read) then
          .unlocking (unlockWriteset none tx.ws)
        else .validating epoch (max tid current.tid) rest)
  | .validating epoch tid [] =>
    some (state.setPhase i (.verifying epoch ((tid + 1) % 2 ^ 29) tx.ns))
  | _ => none

def verifyNext (state : State I K R) (i : I) : Option (State I K R) :=
  let tx := state.tx i
  match tx.phase with
  | .verifying epoch tid ((leaf, version) :: rest) =>
    some (state.setPhase i
      (if state.index.version leaf = version then .verifying epoch tid rest
      else .unlocking (unlockWriteset none tx.ws)))
  | .verifying epoch tid [] => some (state.setPhase i (.writing epoch tid tx.ws))
  | _ => none

def writeNext (state : State I K R) (i : I) : Option (State I K R) :=
  let tx := state.tx i
  match tx.phase with
  | .writing epoch tid (key :: rest) =>
    (tx.rws key).map fun element =>
      (state.setValue element.val (element.installed epoch tid tx.serial)).setPhase i
        (if element.rwt = .delete then .removing epoch tid key rest
        else .writing epoch tid rest)
  | .writing _ _ [] => some (state.setPhase i .committed)
  | _ => none

/-- Phase 3, a deleted element: `idx.remove`. -/
def removeNext (state : State I K R) (i : I) : Option (State I K R) :=
  match (state.tx i).phase with
  | .removing epoch tid key rest =>
    some ({ state with index := state.index.remove key }.setPhase i (.writing epoch tid rest))
  | _ => none

def unlockNext (state : State I K R) (i : I) : Option (State I K R) :=
  let tx := state.tx i
  match tx.phase with
  | .unlocking (key :: rest) =>
    (tx.rws key).map fun element =>
      (state.setLock element.val false).setPhase i (.unlocking rest)
  | .unlocking [] => some (state.setPhase i .failed)
  | _ => none

/-! ## `abort` -/

/-- `abort` is called by the user, or after `precommit` has failed. -/
def abort (state : State I K R) (i : I) : Option (State I K R) :=
  match (state.tx i).phase with
  | .running | .failed => some (state.setPhase i (.aborting (state.tx i).ws))
  | _ => none

/-- `abort`, one element: an inserted value is locked, marked and unlocked again. -/
def abortNext (state : State I K R) (i : I) : Option (State I K R) :=
  let tx := state.tx i
  match tx.phase with
  | .aborting (key :: rest) =>
    (tx.rws key).bind fun element =>
      let value := state.value element.val
      if element.isNew then
        if value.tidword.lock then none
        else some ((state.setValue element.val value.retired).setPhase i (.retired key rest))
      else some (state.setPhase i (.aborting rest))
  | .aborting [] =>
    some (state.setTx i { tx with
      phase := .aborted
      rws := fun _ => none
      touched := []
      ws := []
      ns := [] })
  | _ => none

def unlinkNext (state : State I K R) (i : I) : Option (State I K R) :=
  match (state.tx i).phase with
  | .retired key rest =>
    some ({ state with index := state.index.remove key }.setPhase i (.aborting rest))
  | _ => none

end State

def step (state : State I K R) : Label I K R → Option (State I K R)
  | .advanceEpoch => some { state with globalEpoch := (state.globalEpoch + 1) % 2 ^ 32 }
  | .call i op key => state.call i op key
  | .access i fresh => state.access i fresh
  | .insertKey i fresh fence => state.insertKey i fresh fence
  | .store i key record => state.store i key record
  | .scan i op low up => state.scan i op low up
  | .scanLeaf i => state.scanLeaf i
  | .visit i fresh => state.visit i fresh
  | .precommit i => state.precommit i
  | .lockNext i => state.lockNext i
  | .loadEpoch i order => state.loadEpoch i order
  | .validateNext i => state.validateNext i
  | .verifyNext i => state.verifyNext i
  | .writeNext i => state.writeNext i
  | .removeNext i => state.removeNext i
  | .unlockNext i => state.unlockNext i
  | .abort i => state.abort i
  | .abortNext i => state.abortNext i
  | .unlinkNext i => state.unlinkNext i

end TpccRunner.Silo
