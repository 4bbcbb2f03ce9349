import TpccRunner.Lib.StepSystem

/-!
# `WaitDieLock`

The lock of `waitdielock.hpp`: an owner list with its mode and a list of
spinning waiters, both kept from the largest to the smallest timestamp.  Every
entry point runs under the latch, so it is one function of the lock.  A request
that must spin leaves a node in `waiterList`; the promotion loop removes the
node and clears the spin variable of its client.  The exceptions of the source
are the error cases; `owner_list.get_min_timestamp()` on an empty list, which
the source leaves undefined, is an error case as well.  A client is named by its
timestamp.
-/

set_option autoImplicit false

namespace TpccRunner.WaitDie

inductive Operation where
  | I  -- invalid
  | S  -- shared
  | E  -- exclusive
  | U  -- upgrade
  deriving DecidableEq, Repr

inductive LockException where
  | unhandledState
  | failedPromotingWaiter
  | noLockToUpgrade
  | noSharedLockToUnlock
  | noExclusiveLockToUnlock
  | timestampNotInList
  | emptyOwnerList
  deriving DecidableEq, Repr

def LockException.what : LockException → String
  | .unhandledState => "Unhandled State Found"
  | .failedPromotingWaiter => "Failed Promoting Waiter"
  | .noLockToUpgrade => "No lock to upgrade"
  | .noSharedLockToUnlock => "No shared lock to unlock"
  | .noExclusiveLockToUnlock => "No exclusive lock to unlock"
  | .timestampNotInList => "timestamp not in list"
  | .emptyOwnerList => "back() of an empty list"

/-! ## `TimestampSortedList`, with the timestamp of an item given by `key` -/

namespace TimestampSortedList

variable {Item : Type}

def insert (key : Item → Nat) (item : Item) : List Item → List Item
  | [] => [item]
  | head :: rest =>
    if key head < key item then item :: head :: rest else head :: insert key item rest

def remove (key : Item → Nat) (ts : Nat) : List Item → Except LockException (List Item)
  | [] => .error .timestampNotInList
  | head :: rest =>
    if key head = ts then .ok rest
    else match remove key ts rest with
      | .ok tail => .ok (head :: tail)
      | .error failure => .error failure

def getBackTimestamp (key : Item → Nat) (items : List Item) : Except LockException Nat :=
  match items.getLast? with
  | some item => .ok (key item)
  | none => .error .emptyOwnerList

end TimestampSortedList

structure WaiterNode where
  ts : Nat
  op : Operation  -- S, E, U
  deriving DecidableEq, Repr

structure OwnerList where
  op : Operation := .I  -- I, S, E
  owners : List Nat := []
  deriving DecidableEq, Repr

namespace OwnerList

def insert (list : OwnerList) (ts : Nat) : OwnerList :=
  { list with owners := TimestampSortedList.insert id ts list.owners }

def remove (list : OwnerList) (ts : Nat) : Except LockException OwnerList :=
  match TimestampSortedList.remove id ts list.owners with
  | .error failure => .error failure
  | .ok owners => .ok { op := if owners = [] then .I else list.op, owners }

def getSize (list : OwnerList) : Nat := list.owners.length

def getMinTimestamp (list : OwnerList) : Except LockException Nat :=
  TimestampSortedList.getBackTimestamp id list.owners

end OwnerList

structure WaitDieLock where
  waiterList : List WaiterNode := []
  ownerList : OwnerList := {}
  deriving DecidableEq, Repr

/-- What a lock request comes back with: the lock, a spinning node, or `false`. -/
inductive Reply where
  | granted
  | spins
  | refused
  deriving DecidableEq, Repr

/-- `promote_waiters`.  The third component lists the clients whose spin
variable was cleared, in that order. -/
def promoteWaiters : OwnerList → List WaiterNode →
    Except LockException (OwnerList × List WaiterNode × List Nat)
  | owners, [] => .ok (owners, [], [])
  | owners, waiter :: rest =>
    if (waiter.op = .S ∧ owners.op = .E) ∨ (waiter.op = .E ∧ (owners.op = .S ∨ owners.op = .E))
        ∨ (waiter.op = .U ∧ owners.op = .S ∧ 1 < owners.getSize) then
      .ok (owners, waiter :: rest, [])
    else if waiter.op = .U ∧ (owners.op = .I ∨ owners.op = .E) then
      .error .failedPromotingWaiter
    else if waiter.op = .S ∧ (owners.op = .I ∨ owners.op = .S) then
      match promoteWaiters { owners.insert waiter.ts with op := .S } rest with
      | .ok (owners', waiters', released) => .ok (owners', waiters', waiter.ts :: released)
      | .error failure => .error failure
    else if waiter.op = .E ∧ owners.op = .I then
      match promoteWaiters { owners.insert waiter.ts with op := .E } rest with
      | .ok (owners', waiters', released) => .ok (owners', waiters', waiter.ts :: released)
      | .error failure => .error failure
    else if waiter.op = .U ∧ owners.op = .S ∧ owners.getSize = 1 then
      match promoteWaiters { owners with op := .E } rest with
      | .ok (owners', waiters', released) => .ok (owners', waiters', waiter.ts :: released)
      | .error failure => .error failure
    else .error .unhandledState

namespace WaitDieLock

/-- The common branch of the two requests: an older client spins, a younger
one is sent away. -/
def waitOrDie (lock : WaitDieLock) (ts : Nat) (op : Operation) :
    Except LockException (Reply × WaitDieLock) :=
  match lock.ownerList.getMinTimestamp with
  | .error failure => .error failure
  | .ok minTs =>
    if ts < minTs then
      .ok (.spins, { lock with
        waiterList := TimestampSortedList.insert WaiterNode.ts ⟨ts, op⟩ lock.waiterList })
    else .ok (.refused, lock)

def tryLockShared (lock : WaitDieLock) (ts : Nat) : Except LockException (Reply × WaitDieLock) :=
  let noWaiter := lock.waiterList = []
  let op := lock.ownerList.op
  if (op = .I ∨ op = .S) ∧ noWaiter then
    .ok (.granted, { lock with ownerList := { lock.ownerList.insert ts with op := .S } })
  else if op = .I ∧ ¬ noWaiter then
    .ok (.spins, { lock with
      waiterList := TimestampSortedList.insert WaiterNode.ts ⟨ts, .S⟩ lock.waiterList })
  else if (op = .S ∧ ¬ noWaiter) ∨ op = .E then lock.waitOrDie ts .S
  else .error .unhandledState

def tryLock (lock : WaitDieLock) (ts : Nat) : Except LockException (Reply × WaitDieLock) :=
  let noWaiter := lock.waiterList = []
  let op := lock.ownerList.op
  if op = .I ∧ noWaiter then
    .ok (.granted, { lock with ownerList := { lock.ownerList.insert ts with op := .E } })
  else if op = .I ∧ ¬ noWaiter then
    .ok (.spins, { lock with
      waiterList := TimestampSortedList.insert WaiterNode.ts ⟨ts, .E⟩ lock.waiterList })
  else if op = .S ∨ op = .E then lock.waitOrDie ts .E
  else .error .unhandledState

def tryLockUpgrade (lock : WaitDieLock) (ts : Nat) : Except LockException (Reply × WaitDieLock) :=
  let op := lock.ownerList.op
  if op = .I ∨ op = .E then .error .noLockToUpgrade
  else if op = .S then
    match lock.ownerList.getMinTimestamp with
    | .error failure => .error failure
    | .ok minTs =>
      if minTs = ts ∧ 1 < lock.ownerList.getSize then
        .ok (.spins, { lock with
          waiterList := TimestampSortedList.insert WaiterNode.ts ⟨ts, .U⟩ lock.waiterList })
      else if minTs = ts ∧ lock.ownerList.getSize = 1 then
        .ok (.granted, { lock with ownerList := { lock.ownerList with op := .E } })
      else .ok (.refused, lock)
  else .error .unhandledState

/-- The common tail of the two unlocks: drop the owner, then promote. -/
def removeAndPromote (lock : WaitDieLock) (ts : Nat) :
    Except LockException (List Nat × WaitDieLock) :=
  match lock.ownerList.remove ts with
  | .error failure => .error failure
  | .ok owners =>
    match promoteWaiters owners lock.waiterList with
    | .error failure => .error failure
    | .ok (ownerList, waiterList, released) => .ok (released, { waiterList, ownerList })

def unlockShared (lock : WaitDieLock) (ts : Nat) : Except LockException (List Nat × WaitDieLock) :=
  let op := lock.ownerList.op
  if op = .I ∨ op = .E then .error .noSharedLockToUnlock
  else if op = .S then lock.removeAndPromote ts
  else .error .unhandledState

def unlock (lock : WaitDieLock) (ts : Nat) : Except LockException (List Nat × WaitDieLock) :=
  let op := lock.ownerList.op
  if op = .I ∨ op = .S then .error .noExclusiveLockToUnlock
  else if op = .E then lock.removeAndPromote ts
  else .error .unhandledState

end WaitDieLock

end TpccRunner.WaitDie
