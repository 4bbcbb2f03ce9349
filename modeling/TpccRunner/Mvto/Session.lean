import TpccRunner.Lib.OrderedMap
import TpccRunner.Lib.StepSystem
import TpccRunner.Mvto.System

/-!
# One MVTO transaction

The calls of one transaction as whole functions: the point operations, `read_scan`,
`precommit` with its two clean-up walks, and `abort`, of `protocols/mvto/include/mvto.hpp`.
Tables are explicit here, the index of a table is an ordered map, and the session keeps what
it has locked and unlocked and which of its own blocks it has given back.  A call on a write
set entry whose element has been erased follows a dangling iterator; that is a fault.

`read_scan` is modelled with `count = -1`.  Backwards it leaves out the lower bound of its
range and not the upper one.
-/

set_option autoImplicit false

namespace TpccRunner.Mvto

open Lib

inductive Fault where
  | thrown (message : String)
  | dangling
  deriving DecidableEq

inductive LockEvent where
  | lock (val : Nat)
  | unlock (val : Nat)
  deriving DecidableEq

/-- What a transaction allocates: the local record of an element, versions and values. -/
inductive Block (T K : Type) where
  | record (address : T × K)
  | version (id : Nat)
  | value (val : Nat)
  deriving DecidableEq

/-- The shared part: the indexes, the timestamps of their leaves, and the values. -/
structure Db (T K R : Type) [LinearOrder K] where
  index : T → OrderedMap K Nat
  leafTs : Nat → Nat
  value : Nat → List (Version R)
  /-- The key that a value was made for. -/
  home : Nat → T × K
  nextValue : Nat
  nextVersion : Nat

structure Session (T K R : Type) [LinearOrder K] where
  startTs : Nat
  smallestTs : Nat
  db : Db T K R
  /-- `tables`, an ordered set. -/
  tables : List T
  rws : T × K → Option (Element R)
  ws : T → List K
  locks : List LockEvent
  /-- The blocks of the transaction that it has deallocated. -/
  freed : List (Block T K)
  /-- The values handed to the garbage collector. -/
  collected : List Nat

inductive Call (T K R : Type) where
  /-- `fresh` is the content of a newly allocated record. -/
  | point (op : Operation) (address : T × K) (fresh : R)
  /-- The caller writes into a record that it was given to write. -/
  | store (address : T × K) (record : R)
  /-- `leaves` are the leaves that the scan visits. -/
  | readScan (table : T) (low up : K) (rev : Bool) (leaves : List Nat)

inductive Reply (K R : Type) where
  | null
  | record (record : R)
  | stored
  | listed (rows : List (K × Option R))
  deriving DecidableEq

def Reply.ofRecord {K R : Type} : Option R → Reply K R
  | none => .null
  | some value => .record value

variable {T K R : Type} [LinearOrder T] [LinearOrder K]

def Db.lookup (db : Db T K R) (address : T × K) : Option Nat := (db.index address.1).get? address.2

/-- `[low, up)`, or `(low, up]` backwards. -/
def Scanned (rev : Bool) (low up key : K) : Prop :=
  if rev then low < key ∧ key ≤ up else low ≤ key ∧ key < up

instance (rev : Bool) (low up key : K) : Decidable (Scanned rev low up key) :=
  inferInstanceAs (Decidable (if rev then low < key ∧ key ≤ up else low ≤ key ∧ key < up))

def inDirection {α : Type} (rev : Bool) (items : List α) : List α :=
  if rev then items.reverse else items

/-- `get_kv_in_range` and `get_kv_in_rev_range`. -/
def Db.getKvInRange (db : Db T K R) (table : T) (low up : K) (rev : Bool) : List (K × Nat) :=
  inDirection rev ((db.index table).entries.filter fun entry => Scanned rev low up entry.1)

def Session.new (startTs smallestTs : Nat) (db : Db T K R) : Session T K R where
  startTs := startTs
  smallestTs := smallestTs
  db := db
  tables := []
  rws _ := none
  ws _ := []
  locks := []
  freed := []
  collected := []

namespace Session

def setChain (s : Session T K R) (val : Nat) (chain : List (Version R)) : Session T K R :=
  { s with db := { s.db with value := Function.update s.db.value val chain } }

def insertKey (s : Session T K R) (address : T × K) (val : Nat) : Session T K R :=
  let table := (s.db.index address.1).insert address.2 val
  { s with db := { s.db with index := Function.update s.db.index address.1 table } }

def removeKey (s : Session T K R) (address : T × K) : Session T K R :=
  let table := (s.db.index address.1).erase address.2
  { s with db := { s.db with index := Function.update s.db.index address.1 table } }

def lock (s : Session T K R) (val : Nat) : Session T K R :=
  { s with locks := s.locks ++ [.lock val] }

def unlock (s : Session T K R) (val : Nat) : Session T K R :=
  { s with locks := s.locks ++ [.unlock val] }

/-- `tables.insert(table_id)`. -/
def addTable (s : Session T K R) (table : T) : Session T K R :=
  { s with
    tables :=
      if s.tables.contains table then s.tables else s.tables.orderedInsert (· ≤ ·) table }

/-! ## Operations -/

def settle (s : Session T K R) (address : T × K) (outcome : Outcome R) : Session T K R :=
  { s with
    rws := Function.update s.rws address outcome.element
    ws := if outcome.pushed then
        Function.update s.ws address.1 (s.ws address.1 ++ [address.2])
      else s.ws }

/-- The `deallocate(write_rec)` of `remove`. -/
def release (s : Session T K R) (address : T × K) (op : Operation) (element : Element R) :
    Session T K R :=
  if op = .remove ∧ (element.rwt = .update ∨ element.rwt = .insert) ∧ element.writeRec.isSome then
    { s with freed := s.freed ++ [.record address] }
  else s

def allocate (s : Session T K R) (address : T × K) (fresh : R) : Session T K R :=
  { s with db := { s.db with
      value := Function.update s.db.value s.db.nextValue
        [⟨s.db.nextVersion, s.startTs, s.startTs, some fresh, false⟩]
      home := Function.update s.db.home s.db.nextValue address
      nextValue := s.db.nextValue + 1
      nextVersion := s.db.nextVersion + 1 } }

def miss (s : Session T K R) (op : Operation) (address : T × K) (fresh : R) :
    Option R × Session T K R :=
  match op with
  | .insert | .upsert =>
    (some fresh, (s.allocate address fresh).settle address
      ⟨some ⟨none, some fresh, .insert, true, s.db.nextValue⟩, true, some fresh, true⟩)
  | .read | .update | .remove => (none, s)

def deleteFromTree (s : Session T K R) (address : T × K) (val : Nat) : Session T K R :=
  { (s.removeKey address).setChain val [] with collected := s.collected ++ [val] }

/-- The part of an operation under the lock of the value that it has found. -/
def access (s : Session T K R) (op : Operation) (address : T × K) (val : Nat) (fresh : R) :
    Option R × Session T K R :=
  let chain := s.db.value val
  if chain.isEmpty then (none, (s.lock val).unlock val)
  else if isEmpty chain then (none, ((s.lock val).deleteFromTree address val).unlock val)
  else
    let version := getCorrectVersion s.startTs chain
    let isHead := decide (version.map Version.id = chain.head?.map Version.id)
    let kept := gcVersionChain s.smallestTs chain
    match version with
    | none => (none, ((s.lock val).setChain val kept).unlock val)
    | some version =>
      let outcome := Access.perform ⟨op, address, val, some version, isHead⟩ version fresh
      (outcome.result,
        (((s.lock val).setChain val (touch version.id s.startTs kept)).unlock val).settle address
          outcome)

def point (s : Session T K R) (op : Operation) (address : T × K) (fresh : R) :
    Except Fault (Option R × Session T K R) :=
  match s.rws address with
  | some element =>
    match element.perform op with
    | none => .error (.thrown "invalid state")
    | some outcome =>
      .ok (outcome.result, (s.settle address outcome).release address op element)
  | none =>
    match s.db.lookup address with
    | none => .ok (s.miss op address fresh)
    | some val => .ok (s.access op address val fresh)

/-- `per_kv_func` of `read_scan`: what it emplaces into the result, if it does. -/
def visit [Inhabited R] (s : Session T K R) (address : T × K) (val : Nat) :
    Except Fault (Option (Option R) × Session T K R) :=
  match s.rws address with
  | some element =>
    match element.rwt with
    | .read => .ok (some element.readRec, s)
    | .update | .insert => .ok (some element.writeRec, s)
    | .delete => .error (.thrown "deleted value")
  | none =>
    -- as in `read`, except that a null pointer only skips the key
    let (record, after) := s.access .read address val default
    .ok (if (after.rws address).isSome then some record else none, after)

def scanLoop [Inhabited R] (table : T) :
    List (K × Nat) → Session T K R → Except Fault (List (K × Option R) × Session T K R)
  | [], s => .ok ([], s)
  | (key, val) :: rest, s =>
    match s.visit (table, key) val with
    | .error fault => .error fault
    | .ok (record, after) =>
      match scanLoop table rest after with
      | .error fault => .error fault
      | .ok (rows, final) =>
        .ok ((record.map fun record => (key, record)).toList ++ rows, final)

/-- `per_node_func`. -/
def updateTs (s : Session T K R) (leaves : List Nat) : Session T K R :=
  { s with db := { s.db with
      leafTs := fun leaf =>
        if leaf ∈ leaves then max (s.db.leafTs leaf) s.startTs else s.db.leafTs leaf } }

def readScan [Inhabited R] (s : Session T K R) (table : T) (low up : K) (rev : Bool)
    (leaves : List Nat) : Except Fault (List (K × Option R) × Session T K R) :=
  (scanLoop table (s.db.getKvInRange table low up rev) (s.updateTs leaves)).map
    -- what is found goes into a `std::map`
    fun (rows, after) => (inDirection rev rows, after)

def call [Inhabited R] (s : Session T K R) : Call T K R → Except Fault (Reply K R × Session T K R)
  | .point op address fresh =>
    ((s.addTable address.1).point op address fresh).map fun (result, after) =>
      (Reply.ofRecord result, after)
  | .store address record =>
    match s.rws address with
    | some element =>
      if element.writeRec.isSome then
        let written := { element with writeRec := some record }
        .ok (.stored, { s with rws := Function.update s.rws address (some written) })
      else .error .dangling
    | none => .error .dangling
  | .readScan table low up rev leaves =>
    ((s.addTable table).readScan table low up rev leaves).map fun (rows, after) =>
      (Reply.listed rows, after)

/-! ## The end of a transaction -/

def entries (s : Session T K R) : List (T × K) :=
  s.tables.flatMap fun table => (s.ws table).map fun key => (table, key)

def sortTable (s : Session T K R) (table : T) : Session T K R :=
  { s with ws := Function.update s.ws table ((s.ws table).insertionSort (· ≤ ·)) }

def walk (visit : Session T K R → T × K → Element R → Session T K R) (last : T × K)
    (endExclusive : Bool) : List (T × K) → Session T K R → Except Fault (Session T K R)
  | [], s => .ok s
  | address :: rest, s =>
    if endExclusive ∧ address = last then .ok s
    else
      match s.rws address with
      | none => .error .dangling
      | some element =>
        let after := visit s address element
        if endExclusive = false ∧ address = last then .ok after
        else walk visit last endExclusive rest after

/-- What `remove_already_inserted` does with an entry. -/
def retract (s : Session T K R) (address : T × K) (element : Element R) : Session T K R :=
  if element.rwt = .insert ∧ element.isNew then
    match s.db.value element.val with
    | [] => s
    | version :: _ =>
      { (s.removeKey address).setChain element.val [] with
        collected := s.collected ++ [element.val]
        freed := s.freed ++ [.record address, .version version.id] }
  else s

def removeAlreadyInserted (s : Session T K R) (last : T × K) (endExclusive : Bool) :
    Except Fault (Session T K R) :=
  walk retract last endExclusive s.entries s

def unlockWriteset (s : Session T K R) (last : T × K) (endExclusive : Bool) :
    Except Fault (Session T K R) :=
  walk (fun s _ element => s.unlock element.val) last endExclusive s.entries s

/-- What the lock-and-check loop finds; `leaf` is the leaf that receives a new key. -/
def check (s : Session T K R) (leaf : Nat) (address : T × K) (element : Element R) : Verdict :=
  match s.db.value element.val with
  | [] => .reject
  | head :: _ =>
    match element.rwt, element.isNew with
    | .insert, true =>
      if (s.db.lookup address).isSome then .reject
      else if s.startTs < s.db.leafTs leaf then .retract
      else .accept
    | .insert, false =>
      if s.startTs < head.readTs ∨ s.startTs < head.writeTs ∨ head.deleted = false then .reject
      else .accept
    | .update, _ | .delete, _ =>
      if s.startTs < head.readTs ∨ s.startTs < head.writeTs ∨ head.deleted = true then .reject
      else .accept
    | .read, _ => .accept

/-- `idx.insert` of a new value, whose version points to the local record. -/
def insertNew (s : Session T K R) (address : T × K) (element : Element R) : Session T K R :=
  if element.rwt = .insert ∧ element.isNew then
    (s.insertKey address element.val).setChain element.val
      ((s.db.value element.val).map fun version => { version with record := element.writeRec })
  else s

/-- Both clean-up walks, in front of a `return false`. -/
def giveUp (s : Session T K R) (last : T × K) (endExclusive : Bool) :
    Except Fault (Bool × Session T K R) :=
  ((s.removeAlreadyInserted last endExclusive).bind fun after =>
    after.unlockWriteset last false).map fun after => (false, after)

def lockEntries (leafOf : T × K → Nat) :
    List (T × K) → Session T K R → Except Fault (Bool × Session T K R)
  | [], s => .ok (true, s)
  | address :: rest, s =>
    match s.rws address with
    | none => .error .dangling
    | some element =>
      let taken := s.lock element.val
      match taken.check (leafOf address) address element with
      | .accept => lockEntries leafOf rest (taken.insertNew address element)
      | .reject => taken.giveUp address true
      | .retract => (taken.insertNew address element).giveUp address false

def lockTables (leafOf : T × K → Nat) :
    List T → Session T K R → Except Fault (Bool × Session T K R)
  | [], s => .ok (true, s)
  | table :: rest, s =>
    let sorted := s.sortTable table
    match lockEntries leafOf ((sorted.ws table).map fun key => (table, key)) sorted with
    | .ok (true, after) => lockTables leafOf rest after
    | .ok (false, after) => .ok (false, after)
    | .error fault => .error fault

def applyEntry (s : Session T K R) (element : Element R) : Session T K R :=
  let pushed :=
    if element.isNew then s
    else
      { s.setChain element.val
          (⟨s.db.nextVersion, s.startTs, s.startTs, element.writeRec, element.rwt = .delete⟩ ::
            s.db.value element.val) with
        db.nextVersion := s.db.nextVersion + 1 }
  (pushed.setChain element.val
    (gcVersionChain s.smallestTs (pushed.db.value element.val))).unlock element.val

def applyEntries : List (T × K) → Session T K R → Except Fault (Session T K R)
  | [], s => .ok s
  | address :: rest, s =>
    match s.rws address with
    | none => .error .dangling
    | some element => applyEntries rest (s.applyEntry element)

def precommit (s : Session T K R) (leafOf : T × K → Nat) : Except Fault (Bool × Session T K R) :=
  match lockTables leafOf s.tables s with
  | .ok (true, locked) =>
    (applyEntries locked.entries locked).map fun after => (true, after)
  | other => other

def discard (s : Session T K R) (address : T × K) (element : Element R) : Session T K R :=
  if element.rwt = .insert ∧ element.isNew then
    match s.db.value element.val with
    | [] => s
    | version :: _ =>
      { s with freed := s.freed ++
          [.record address, .version version.id, .value element.val] }
  else if element.writeRec.isSome then { s with freed := s.freed ++ [.record address] }
  else s

def discardEntries : List (T × K) → Session T K R → Except Fault (Session T K R)
  | [], s => .ok s
  | address :: rest, s =>
    match s.rws address with
    | none => .error .dangling
    | some element => discardEntries rest (s.discard address element)

def abort (s : Session T K R) : Except Fault (Session T K R) :=
  (discardEntries s.entries s).map fun after =>
    { after with tables := [], rws := fun _ => none, ws := fun _ => [] }

end Session

end TpccRunner.Mvto
