import TpccRunner.Lib.StepSystem
import TpccRunner.Lib.Serial
import TpccRunner.Lib.Reclamation
import TpccRunner.Common.ReadWriteSet
import TpccRunner.Mvto.VersionChain

/-!
# MVTO

The point operations, `precommit` and `abort` of `protocols/mvto/include/mvto.hpp`, for
any number of workers that each run one transaction after another.  What happens under
the lock of one value is cut where another step could matter: the selection of the
version, `gc_version_chain`, and the update of `read_ts` with the unlock; in
`precommit` one element of the write set at a time.

A key stands for a table with a key of it.  Scans are not part of this model; whether
the leaf of a new key carries a timestamp above `start_ts` is an input of the step.
-/

set_option autoImplicit false

namespace TpccRunner.Mvto

open Lib

variable {n : Nat} {K R : Type}

inductive Operation where
  | read
  | insert
  | update
  | upsert
  | remove
  deriving DecidableEq

/-- `ReadWriteElement`; records are modelled by their contents. -/
structure Element (R : Type) where
  readRec : Option R
  writeRec : Option R
  rwt : ReadWriteType
  isNew : Bool
  val : Nat
  deriving DecidableEq

structure Outcome (R : Type) where
  element : Option (Element R)
  /-- The key is appended to the write set. -/
  pushed : Bool
  /-- The record the operation returns; `none` for `nullptr`. -/
  result : Option R
  /-- The record is a new one, with arbitrary contents. -/
  created : Bool

def Outcome.null : Outcome R := ⟨none, false, none, false⟩

/-- An operation on a key that already has an element; `none` where the code throws. -/
def Element.perform (element : Element R) (op : Operation) : Option (Outcome R) :=
  let keep (result : Option R) : Outcome R := ⟨some element, false, result, false⟩
  match op, element.rwt with
  | .read, .read => some (keep element.readRec)
  | .read, .update | .read, .insert => some (keep element.writeRec)
  | .read, .delete => some (keep none)
  | .insert, .read | .insert, .update | .insert, .insert => some (keep none)
  | .insert, .delete =>
    some ⟨some { element with rwt := .update }, false, element.writeRec, false⟩
  | .update, .read | .upsert, .read =>
    some ⟨some { element with writeRec := element.readRec, rwt := .update }, true,
      element.readRec, false⟩
  | .update, .update | .update, .insert | .upsert, .update | .upsert, .insert =>
    some (keep element.writeRec)
  | .update, .delete => some (keep none)
  | .upsert, .delete =>
    some ⟨some { element with rwt := .update }, false, element.writeRec, false⟩
  | .remove, .read => some ⟨some { element with rwt := .delete }, true, element.readRec, false⟩
  | .remove, .update =>
    -- the element stays an UPDATE
    some ⟨some { element with writeRec := none }, false, element.readRec, false⟩
  | .remove, .insert => some Outcome.null
  | .remove, .delete => none

structure Access (K R : Type) where
  op : Operation
  key : K
  val : Nat
  version : Option (Version R)
  /-- `head_version == version` -/
  isHead : Bool

def Access.updateWith (access : Access K R) (version : Version R) : Outcome R :=
  ⟨some ⟨version.record, version.record, .update, false, access.val⟩, true, version.record, false⟩

def Access.insertWith (access : Access K R) (fresh : R) : Outcome R :=
  ⟨some ⟨none, some fresh, .insert, false, access.val⟩, true, some fresh, true⟩

/-- The end of an operation that has selected `version`; `fresh` is the content of a
newly allocated record. -/
def Access.perform (access : Access K R) (version : Version R) (fresh : R) : Outcome R :=
  match access.op with
  | .read =>
    if version.deleted then Outcome.null
    else ⟨some ⟨version.record, none, .read, false, access.val⟩, false, version.record, false⟩
  | .update => if version.deleted then Outcome.null else access.updateWith version
  | .insert =>
    if access.isHead ∧ version.deleted then access.insertWith fresh else Outcome.null
  | .upsert =>
    if access.isHead ∧ version.deleted then access.insertWith fresh
    else if version.deleted then Outcome.null
    else access.updateWith version
  | .remove =>
    if version.deleted then Outcome.null
    else ⟨some ⟨version.record, none, .delete, false, access.val⟩, true, version.record, false⟩

/-- Where a worker is.  The lists of `precommit` hold the elements that are locked:
those checked, those whose version has still to be pushed, those still to be taken out
of the index or unlocked. -/
inductive Phase (K R : Type) where
  | idle
  | running
  | selected (access : Access K R)
  | collected (access : Access K R)
  | locking (locked : List (K × Element R)) (rest : List K)
  | applying (rest : List (K × Element R))
  | applied (entry : K × Element R) (rest : List (K × Element R))
  | removing (rest locked : List (K × Element R))
  | unlocking (rest : List (K × Element R))
  | failed
  | aborted
  | committed

/-- A transaction.  `chosen` and `log` only record what it has done: the versions (as
value and version) it has selected, and what its operations have shown to and taken
from their caller. -/
structure Tx (K R : Type) where
  startTs : Nat
  smallestTs : Nat
  phase : Phase K R
  rws : K → Option (Element R)
  ws : List K
  chosen : List (Nat × Nat)
  log : List (Event K (Option R))

def Tx.new (startTs smallestTs : Nat) : Tx K R where
  startTs := startTs
  smallestTs := smallestTs
  phase := .running
  rws _ := none
  ws := []
  chosen := []
  log := []

structure Value (n : Nat) (R : Type) where
  /-- Who holds the exclusive lock. -/
  owner : Option (Fin n)
  chain : List (Version R)

structure State (n : Nat) (K R : Type) where
  tx : Fin n → Tx K R
  index : K → Option Nat
  value : Nat → Value n R
  nextValue : Nat
  nextVersion : Nat
  /-- The versions that `gc_version_chain` has deallocated. -/
  freed : Nat → Nat → Bool
  /-- The timestamps given out and, in the order in which they passed their last check,
  the committed transactions. -/
  drawn : List Nat
  committed : List (Tx K R)

/-- The loaded keys have one version each, with `read_ts` and `write_ts` 0. -/
def start (loaded : Loaded K) (records : Nat → R) : State n K R where
  tx _ := { Tx.new 0 0 with phase := .idle }
  index := loaded.slots
  value val := ⟨none, [⟨0, 0, 0, some (records val), false⟩]⟩
  nextValue := loaded.next
  nextVersion := 1
  freed _ _ := false
  drawn := []
  committed := []

inductive Label (n : Nat) (K R : Type) where
  | beginTx (worker : Fin n) (startTs smallestTs : Nat)
  | setNewTs (worker : Fin n) (startTs smallestTs : Nat)
  | own (worker : Fin n) (op : Operation) (key : K)
  | miss (worker : Fin n) (op : Operation) (key : K) (fresh : R)
  | access (worker : Fin n) (op : Operation) (key : K)
  | gcAccess (worker : Fin n)
  | finishAccess (worker : Fin n) (fresh : R)
  | store (worker : Fin n) (key : K) (record : R)
  | precommit (worker : Fin n) (order : List K)
  | lockNext (worker : Fin n) (leafOld : Bool)
  | commit (worker : Fin n)
  | applyNext (worker : Fin n)
  | gcApply (worker : Fin n)
  | removeNext (worker : Fin n)
  | unlockNext (worker : Fin n)
  | abort (worker : Fin n)
  | finish (worker : Fin n)

def State.setTx (state : State n K R) (worker : Fin n) (tx : Tx K R) : State n K R :=
  { state with tx := Function.update state.tx worker tx }

def State.setPhase (state : State n K R) (worker : Fin n) (phase : Phase K R) : State n K R :=
  state.setTx worker { state.tx worker with phase }

def State.setValue (state : State n K R) (val : Nat) (value : Value n R) : State n K R :=
  { state with value := Function.update state.value val value }

def State.setOwner (state : State n K R) (val : Nat) (owner : Option (Fin n)) : State n K R :=
  state.setValue val { state.value val with owner }

def State.setChain (state : State n K R) (val : Nat) (chain : List (Version R)) : State n K R :=
  state.setValue val { state.value val with chain }

section Updates
variable (state : State n K R) (val : Nat) (chain : List (Version R)) (owner : Option (Fin n))

@[simp] theorem setOwner_chain (other : Nat) :
    ((state.setOwner val owner).value other).chain = (state.value other).chain := by
  by_cases same : other = val
  · subst same
    simp [State.setOwner, State.setValue]
  · simp [State.setOwner, State.setValue, same]

@[simp] theorem setOwner_owner : ((state.setOwner val owner).value val).owner = owner := by
  simp [State.setOwner, State.setValue]

theorem setOwner_of_ne {other : Nat} (different : other ≠ val) :
    (state.setOwner val owner).value other = state.value other :=
  Function.update_of_ne different ..

@[simp] theorem setChain_owner (other : Nat) :
    ((state.setChain val chain).value other).owner = (state.value other).owner := by
  by_cases same : other = val
  · subst same
    simp [State.setChain, State.setValue]
  · simp [State.setChain, State.setValue, same]

@[simp] theorem setChain_chain : ((state.setChain val chain).value val).chain = chain := by
  simp [State.setChain, State.setValue]

theorem setChain_of_ne {other : Nat} (different : other ≠ val) :
    (state.setChain val chain).value other = state.value other :=
  Function.update_of_ne different ..

theorem setValue_eq :
    state.setValue val ⟨owner, chain⟩ = (state.setChain val chain).setOwner val owner := by
  simp [State.setOwner, State.setChain, State.setValue]

end Updates

def events (op : Operation) (key : K) (created : Bool) (record : R) :
    List (Event K (Option R)) :=
  match op, created with
  | .remove, _ => [.write key none]
  | .insert, _ => [.read key none, .write key (some record)]
  | .upsert, true => [.write key (some record)]
  | _, _ => [.read key (some record)]

section Keys
variable [DecidableEq K]

def Tx.settle (tx : Tx K R) (op : Operation) (key : K) (outcome : Outcome R) : Tx K R :=
  { tx with
    rws := Function.update tx.rws key outcome.element
    ws := if outcome.pushed then tx.ws ++ [key] else tx.ws
    phase := if outcome.result.isSome then .running else .failed
    log := tx.log ++ (outcome.result.elim [] (events op key outcome.created)) }

def State.miss (state : State n K R) (worker : Fin n) (op : Operation) (key : K) (fresh : R) :
    State n K R :=
  let tx := state.tx worker
  match op with
  | .insert | .upsert =>
    { state.setValue state.nextValue
          ⟨none, [⟨state.nextVersion, tx.startTs, tx.startTs, some fresh, false⟩]⟩ with
      tx := Function.update state.tx worker
        (tx.settle op key
          ⟨some ⟨none, some fresh, .insert, true, state.nextValue⟩, true, some fresh, true⟩)
      nextValue := state.nextValue + 1
      nextVersion := state.nextVersion + 1 }
  | .read | .update | .remove => state.setPhase worker .failed

/-- `is_empty`, for a value that is not detached. -/
def isEmpty : List (Version R) → Bool
  | [version] => version.deleted
  | _ => false

/-- The part of an operation up to `get_correct_version`. -/
def State.access (state : State n K R) (worker : Fin n) (op : Operation) (key : K) (val : Nat) :
    State n K R :=
  let tx := state.tx worker
  let chain := (state.value val).chain
  if chain.isEmpty then state.setPhase worker .failed
  else if isEmpty chain then
    -- delete_from_tree
    { (state.setChain val []).setPhase worker .failed with
      index := Function.update state.index key none }
  else
    let version := getCorrectVersion tx.startTs chain
    let isHead := decide (version.map Version.id = chain.head?.map Version.id)
    (state.setOwner val (some worker)).setTx worker
      { tx with
        phase := .selected ⟨op, key, val, version, isHead⟩
        chosen := (version.map fun version => (val, version.id)).toList ++ tx.chosen }

def State.gc (state : State n K R) (worker : Fin n) (val : Nat) : State n K R :=
  let chain := (state.value val).chain
  let smallestTs := (state.tx worker).smallestTs
  { state.setChain val (gcVersionChain smallestTs chain) with
    freed := fun val' id => state.freed val' id ||
      (decide (val' = val) && (gcFreed smallestTs chain).any fun version => version.id = id) }

/-- `update_readts`, `unlock` and the rest of the operation. -/
def State.finishAccess (state : State n K R) (worker : Fin n) (access : Access K R) (fresh : R) :
    State n K R :=
  let tx := state.tx worker
  match access.version with
  | none => (state.setOwner access.val none).setPhase worker .failed
  | some version =>
    let chain := touch version.id tx.startTs (state.value access.val).chain
    (state.setValue access.val ⟨none, chain⟩).setTx worker
      (tx.settle access.op access.key (access.perform version fresh))

/-- The caller writes into the record that `update`, `insert` or `upsert` returned. -/
def Tx.store (tx : Tx K R) (key : K) (element : Element R) (record : R) : Tx K R :=
  { tx with
    rws := Function.update tx.rws key (some { element with writeRec := some record })
    log := tx.log ++ [.write key (some record)] }

/-- What the lock-and-check loop of `precommit` finds: the element passes, or does not,
or it has to be taken out of the index again. -/
inductive Verdict where
  | accept
  | reject
  | retract

def State.check (state : State n K R) (startTs : Nat) (key : K) (element : Element R)
    (leafOld : Bool) : Verdict :=
  match (state.value element.val).chain with
  | [] => .reject
  | head :: _ =>
    match element.rwt, element.isNew with
    | .insert, true =>
      if (state.index key).isSome then .reject else if leafOld then .accept else .retract
    | .insert, false =>
      if startTs < head.readTs ∨ startTs < head.writeTs ∨ head.deleted = false then .reject
      else .accept
    | .update, _ | .delete, _ =>
      if startTs < head.readTs ∨ startTs < head.writeTs ∨ head.deleted = true then .reject
      else .accept
    | .read, _ => .accept

/-- `idx.insert` of a new value, whose version holds the local record. -/
def State.insertNew (state : State n K R) (key : K) (element : Element R) : State n K R :=
  if element.rwt = .insert ∧ element.isNew then
    { state.setChain element.val
        ((state.value element.val).chain.map fun version =>
          { version with record := element.writeRec }) with
      index := Function.update state.index key (some element.val) }
  else state

/-- One round of the lock-and-check loop, once the lock is free. -/
def State.lockNext (state : State n K R) (worker : Fin n) (key : K) (element : Element R)
    (leafOld : Bool) (locked : List (K × Element R)) (rest : List K) : State n K R :=
  let taken := state.setOwner element.val (some worker)
  let locked' := locked ++ [(key, element)]
  match state.check (state.tx worker).startTs key element leafOld with
  | .accept => (taken.insertNew key element).setPhase worker (.locking locked' rest)
  | .reject => taken.setPhase worker (.removing locked locked')
  | .retract => (taken.insertNew key element).setPhase worker (.removing locked' locked')

/-- One round of the apply loop up to `gc_version_chain`. -/
def State.push (state : State n K R) (worker : Fin n) (element : Element R) : State n K R :=
  if element.isNew then state
  else
    let startTs := (state.tx worker).startTs
    { state.setChain element.val
        (⟨state.nextVersion, startTs, startTs, element.writeRec, element.rwt = .delete⟩ ::
          (state.value element.val).chain) with
      nextVersion := state.nextVersion + 1 }

/-- One round of `remove_already_inserted`. -/
def State.retract (state : State n K R) (key : K) (element : Element R) : State n K R :=
  if element.rwt = .insert ∧ element.isNew then
    { state.setChain element.val [] with index := Function.update state.index key none }
  else state

section Transactions
variable {state : State n K R} {worker : Fin n} {key : K} {element : Element R}

theorem insertNew_tx : (state.insertNew key element).tx = state.tx := by
  unfold State.insertNew
  split <;> rfl

theorem lockNext_tx (leafOld : Bool) (locked : List (K × Element R)) (rest : List K) :
    ∃ phase, (state.lockNext worker key element leafOld locked rest).tx =
      Function.update state.tx worker { state.tx worker with phase } := by
  have inserted : ((state.setOwner element.val (some worker)).insertNew key element).tx =
      state.tx := insertNew_tx
  unfold State.lockNext State.setPhase State.setTx
  dsimp only
  split
  · exact ⟨_, by rw [inserted]⟩
  · exact ⟨_, rfl⟩
  · exact ⟨_, by rw [inserted]⟩

omit [DecidableEq K] in
theorem push_tx : (state.push worker element).tx = state.tx := by
  unfold State.push
  split <;> rfl

theorem retract_tx : (state.retract key element).tx = state.tx := by
  unfold State.retract
  split <;> rfl

end Transactions

def step (state : State n K R) : Label n K R → Option (State n K R)
  | .beginTx worker startTs smallestTs =>
    match (state.tx worker).phase with
    | .idle =>
      some { state.setTx worker (Tx.new startTs smallestTs) with
        drawn := startTs :: state.drawn }
    | _ => none
  | .setNewTs worker startTs smallestTs =>
    match (state.tx worker).phase with
    | .aborted =>
      some { state.setTx worker (Tx.new startTs smallestTs) with
        drawn := startTs :: state.drawn }
    | _ => none
  | .own worker op key =>
    match (state.tx worker).phase, (state.tx worker).rws key with
    | .running, some element =>
      (element.perform op).map fun outcome =>
        state.setTx worker ((state.tx worker).settle op key outcome)
    | _, _ => none
  | .miss worker op key fresh =>
    match (state.tx worker).phase, (state.tx worker).rws key, state.index key with
    | .running, none, none => some (state.miss worker op key fresh)
    | _, _, _ => none
  | .access worker op key =>
    match (state.tx worker).phase, (state.tx worker).rws key, state.index key with
    | .running, none, some val =>
      if (state.value val).owner = none then some (state.access worker op key val) else none
    | _, _, _ => none
  | .gcAccess worker =>
    match (state.tx worker).phase with
    | .selected access =>
      some ((state.gc worker access.val).setPhase worker (.collected access))
    | _ => none
  | .finishAccess worker fresh =>
    match (state.tx worker).phase with
    | .collected access => some (state.finishAccess worker access fresh)
    | _ => none
  | .store worker key record =>
    match (state.tx worker).phase, (state.tx worker).rws key with
    | .running, some element =>
      if element.writeRec.isSome then
        some (state.setTx worker ((state.tx worker).store key element record))
      else none
    | _, _ => none
  | .precommit worker order =>
    match (state.tx worker).phase with
    | .running =>
      -- the tables in their order, the keys of each sorted
      if order.Perm (state.tx worker).ws then
        some (state.setPhase worker (.locking [] order))
      else none
    | _ => none
  | .lockNext worker leafOld =>
    match (state.tx worker).phase with
    | .locking locked (key :: rest) =>
      -- the write set points into the read/write set
      ((state.tx worker).rws key).bind fun element =>
        if (state.value element.val).owner = none then
          some (state.lockNext worker key element leafOld locked rest)
        else none
    | _ => none
  | .commit worker =>
    match (state.tx worker).phase with
    | .locking locked [] =>
      some { state.setPhase worker (.applying locked) with
        committed := state.committed ++ [state.tx worker] }
    | _ => none
  | .applyNext worker =>
    match (state.tx worker).phase with
    | .applying (entry :: rest) =>
      some ((state.push worker entry.2).setPhase worker (.applied entry rest))
    | .applying [] => some (state.setPhase worker .committed)
    | _ => none
  | .gcApply worker =>
    match (state.tx worker).phase with
    | .applied entry rest =>
      some (((state.gc worker entry.2.val).setOwner entry.2.val none).setPhase worker
        (.applying rest))
    | _ => none
  | .removeNext worker =>
    match (state.tx worker).phase with
    | .removing (entry :: rest) locked =>
      some ((state.retract entry.1 entry.2).setPhase worker (.removing rest locked))
    | .removing [] locked => some (state.setPhase worker (.unlocking locked))
    | _ => none
  | .unlockNext worker =>
    match (state.tx worker).phase with
    | .unlocking (entry :: rest) =>
      some ((state.setOwner entry.2.val none).setPhase worker (.unlocking rest))
    | .unlocking [] => some (state.setPhase worker .failed)
    | _ => none
  | .abort worker =>
    match (state.tx worker).phase with
    | .running | .failed =>
      some (state.setTx worker
        { state.tx worker with
          phase := .aborted
          rws := fun _ => none
          ws := []
          chosen := [] })
    | _ => none
  | .finish worker =>
    match (state.tx worker).phase with
    | .committed | .aborted => some (state.setPhase worker .idle)
    | _ => none

inductive Transition (state : State n K R) : Label n K R → State n K R → Prop
  | starts {label : Label n K R} {worker : Fin n} {startTs smallestTs : Nat}
      (called : label = .beginTx worker startTs smallestTs ∨
        label = .setNewTs worker startTs smallestTs) :
      Transition state label { state.setTx worker (Tx.new startTs smallestTs) with
        drawn := startTs :: state.drawn }
  | own {worker : Fin n} {op : Operation} {key : K} {element : Element R} {outcome : Outcome R}
      (running : (state.tx worker).phase = .running)
      (present : (state.tx worker).rws key = some element)
      (performed : element.perform op = some outcome) :
      Transition state (.own worker op key)
        (state.setTx worker ((state.tx worker).settle op key outcome))
  | miss {worker : Fin n} {op : Operation} {key : K} {fresh : R}
      (running : (state.tx worker).phase = .running)
      (unread : (state.tx worker).rws key = none) (absent : state.index key = none) :
      Transition state (.miss worker op key fresh) (state.miss worker op key fresh)
  | access {worker : Fin n} {op : Operation} {key : K} {val : Nat}
      (running : (state.tx worker).phase = .running)
      (unread : (state.tx worker).rws key = none) (present : state.index key = some val)
      (free : (state.value val).owner = none) :
      Transition state (.access worker op key) (state.access worker op key val)
  | gcAccess {worker : Fin n} {access : Access K R}
      (selected : (state.tx worker).phase = .selected access) :
      Transition state (.gcAccess worker)
        ((state.gc worker access.val).setPhase worker (.collected access))
  | finishAccess {worker : Fin n} {access : Access K R} {fresh : R}
      (collected : (state.tx worker).phase = .collected access) :
      Transition state (.finishAccess worker fresh) (state.finishAccess worker access fresh)
  | store {worker : Fin n} {key : K} {element : Element R} {record : R}
      (running : (state.tx worker).phase = .running)
      (present : (state.tx worker).rws key = some element) :
      Transition state (.store worker key record)
        (state.setTx worker ((state.tx worker).store key element record))
  | precommit {worker : Fin n} {order : List K} (running : (state.tx worker).phase = .running)
      (same : order.Perm (state.tx worker).ws) :
      Transition state (.precommit worker order) (state.setPhase worker (.locking [] order))
  | lockNext {worker : Fin n} {leafOld : Bool} {locked : List (K × Element R)} {key : K}
      {rest : List K} {element : Element R}
      (locking : (state.tx worker).phase = .locking locked (key :: rest))
      (present : (state.tx worker).rws key = some element)
      (free : (state.value element.val).owner = none) :
      Transition state (.lockNext worker leafOld)
        (state.lockNext worker key element leafOld locked rest)
  | commit {worker : Fin n} {locked : List (K × Element R)}
      (locking : (state.tx worker).phase = .locking locked []) :
      Transition state (.commit worker) { state.setPhase worker (.applying locked) with
        committed := state.committed ++ [state.tx worker] }
  | applyNext {worker : Fin n} {entry : K × Element R} {rest : List (K × Element R)}
      (applying : (state.tx worker).phase = .applying (entry :: rest)) :
      Transition state (.applyNext worker)
        ((state.push worker entry.2).setPhase worker (.applied entry rest))
  | applyEnd {worker : Fin n} (applying : (state.tx worker).phase = .applying []) :
      Transition state (.applyNext worker) (state.setPhase worker .committed)
  | gcApply {worker : Fin n} {entry : K × Element R} {rest : List (K × Element R)}
      (applied : (state.tx worker).phase = .applied entry rest) :
      Transition state (.gcApply worker)
        (((state.gc worker entry.2.val).setOwner entry.2.val none).setPhase worker
          (.applying rest))
  | removeNext {worker : Fin n} {entry : K × Element R} {rest locked : List (K × Element R)}
      (removing : (state.tx worker).phase = .removing (entry :: rest) locked) :
      Transition state (.removeNext worker)
        ((state.retract entry.1 entry.2).setPhase worker (.removing rest locked))
  | removeEnd {worker : Fin n} {locked : List (K × Element R)}
      (removing : (state.tx worker).phase = .removing [] locked) :
      Transition state (.removeNext worker) (state.setPhase worker (.unlocking locked))
  | unlockNext {worker : Fin n} {entry : K × Element R} {rest : List (K × Element R)}
      (unlocking : (state.tx worker).phase = .unlocking (entry :: rest)) :
      Transition state (.unlockNext worker)
        ((state.setOwner entry.2.val none).setPhase worker (.unlocking rest))
  | unlockEnd {worker : Fin n} (unlocking : (state.tx worker).phase = .unlocking []) :
      Transition state (.unlockNext worker) (state.setPhase worker .failed)
  | abort {worker : Fin n} :
      Transition state (.abort worker) (state.setTx worker
        { state.tx worker with phase := .aborted, rws := fun _ => none, ws := [], chosen := [] })
  | finish {worker : Fin n} (ended : (state.tx worker).phase = .committed ∨
        (state.tx worker).phase = .aborted) :
      Transition state (.finish worker) (state.setPhase worker .idle)

theorem Transition.of_step {state state' : State n K R} {label : Label n K R}
    (taken : step state label = some state') : Transition state label state' := by
  cases label with (simp only [step] at taken; split at taken <;> try cases taken)
  | beginTx => exact .starts (.inl rfl)
  | setNewTs => exact .starts (.inr rfl)
  | own =>
    obtain ⟨outcome, performed, rfl⟩ := Option.map_eq_some_iff.mp taken
    exact .own ‹_› ‹_› performed
  | miss => exact .miss ‹_› ‹_› ‹_›
  | access =>
    obtain ⟨free, taken⟩ := Option.ite_none_right_eq_some.mp taken
    cases taken
    exact .access ‹_› ‹_› ‹_› free
  | gcAccess => exact .gcAccess ‹_›
  | finishAccess => exact .finishAccess ‹_›
  | store =>
    obtain ⟨-, taken⟩ := Option.ite_none_right_eq_some.mp taken
    cases taken
    exact .store ‹_› ‹_›
  | precommit =>
    obtain ⟨same, taken⟩ := Option.ite_none_right_eq_some.mp taken
    cases taken
    exact .precommit ‹_› same
  | lockNext =>
    obtain ⟨element, present, taken⟩ := Option.bind_eq_some_iff.mp taken
    obtain ⟨free, taken⟩ := Option.ite_none_right_eq_some.mp taken
    cases taken
    exact .lockNext ‹_› present free
  | commit => exact .commit ‹_›
  | applyNext => first | exact .applyNext ‹_› | exact .applyEnd ‹_›
  | gcApply => exact .gcApply ‹_›
  | removeNext => first | exact .removeNext ‹_› | exact .removeEnd ‹_›
  | unlockNext => first | exact .unlockNext ‹_› | exact .unlockEnd ‹_›
  | abort => exact .abort
  | finish => first | exact .finish (.inl ‹_›) | exact .finish (.inr ‹_›)

end Keys

end TpccRunner.Mvto
