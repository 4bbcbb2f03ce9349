import TpccRunner.WaitDie.LockCalls

/-!
# Any number of clients around one `WaitDieLock`

A client knows only what its own calls returned and whether its spin variable
is still set.  It requests when it is outside, upgrades what it holds shared,
unlocks what it holds, and makes no call while it spins.  The lists of the lock
agree with these views in every reachable state, so no call throws.
-/

set_option autoImplicit false

namespace TpccRunner.WaitDie

open TpccRunner.Lib
open TimestampSortedList (Descending)

inductive ClientState where
  | outside
  | shared
  | exclusive
  | spinning (request : Operation)
  deriving DecidableEq, Repr

structure System where
  lock : WaitDieLock
  client : Nat → ClientState
  /-- The `waiting` flag of the client's latest `WaiterNode`. -/
  waiting : Nat → Bool

namespace System

def new : System := ⟨{}, fun _ => .outside, fun _ => false⟩

inductive Action where
  | tryLockShared (ts : Nat)
  | tryLock (ts : Nat)
  | tryLockUpgrade (ts : Nat)
  | unlockShared (ts : Nat)
  | unlock (ts : Nat)
  /-- A spinning client finds its flag cleared and returns `true`. -/
  | wake (ts : Nat)
  deriving DecidableEq, Repr

def acquired : Operation → ClientState
  | .S => .shared
  | _ => .exclusive

def request (system : System) (ts : Nat) (op : Operation) :
    Except LockException (Reply × WaitDieLock) → Except LockException System
  | .error failure => .error failure
  | .ok (.granted, lock) =>
    .ok { system with lock, client := Function.update system.client ts (acquired op) }
  | .ok (.spins, lock) =>
    .ok { lock, client := Function.update system.client ts (.spinning op),
          waiting := Function.update system.waiting ts true }
  | .ok (.refused, lock) => .ok { system with lock }

def release (system : System) (ts : Nat) :
    Except LockException (List Nat × WaitDieLock) → Except LockException System
  | .error failure => .error failure
  | .ok (released, lock) =>
    .ok { lock, client := Function.update system.client ts .outside,
          waiting := fun other => if other ∈ released then false else system.waiting other }

/-- The call a client makes; `none` when a well-behaved client does not make it. -/
def call (system : System) : Action → Option (Except LockException System)
  | .tryLockShared ts =>
    if system.client ts = .outside then
      some (system.request ts .S (system.lock.tryLockShared ts)) else none
  | .tryLock ts =>
    if system.client ts = .outside then
      some (system.request ts .E (system.lock.tryLock ts)) else none
  | .tryLockUpgrade ts =>
    if system.client ts = .shared then
      some (system.request ts .U (system.lock.tryLockUpgrade ts)) else none
  | .unlockShared ts =>
    if system.client ts = .shared then
      some (system.release ts (system.lock.unlockShared ts)) else none
  | .unlock ts =>
    if system.client ts = .exclusive then
      some (system.release ts (system.lock.unlock ts)) else none
  | .wake ts =>
    match system.client ts with
    | .spinning op =>
      if system.waiting ts = false then
        some (.ok { system with client := Function.update system.client ts (acquired op) })
      else none
    | _ => none

def step (system : System) (action : Action) : Option System :=
  match system.call action with
  | some (.ok next) => some next
  | _ => none

def view (system : System) (ts : Nat) : Status :=
  match system.client ts with
  | .outside => .free
  | .shared => .shared
  | .exclusive => .exclusive
  | .spinning op => if system.waiting ts then op.waitStatus else op.waitStatus.promoted

structure Agrees (system : System) : Prop where
  wellFormed : WellFormed system.lock
  views : ∀ ts, system.lock.status ts = system.view ts
  requests : ∀ ts op, system.client ts = .spinning op → op ≠ .I

theorem new_agrees : new.Agrees where
  wellFormed := wellFormed_new
  views := fun _ => rfl
  requests := by simp [new]

section Steps
variable {system : System} {ts : Nat}

theorem view_update (state : ClientState) (flag : Nat → Bool) (lock : WaitDieLock) {other : Nat}
    (differs : other ≠ ts) (sameFlag : flag other = system.waiting other) :
    view ⟨lock, Function.update system.client ts state, flag⟩ other = system.view other := by
  simp only [view, Function.update_of_ne differs, sameFlag]

theorem requests_update (agrees : system.Agrees) {state : ClientState}
    (valid : ∀ op, state = .spinning op → op ≠ .I) (other : Nat) (op : Operation) :
    Function.update system.client ts state other = .spinning op → op ≠ .I := by
  by_cases same : other = ts
  · subst same
    simpa using valid op
  · rw [Function.update_of_ne same]
    exact agrees.requests other op

theorem request_agrees (agrees : system.Agrees) {op : Operation} (valid : op ≠ .I)
    {result : Except LockException (Reply × WaitDieLock)}
    (replied : ∃ reply after, result = .ok (reply, after) ∧ Moves system.lock after ts
      (reply.standing (system.view ts) op.waitStatus.promoted op.waitStatus)) :
    ∃ next, system.request ts op result = .ok next ∧ next.Agrees := by
  obtain ⟨reply, after, rfl, moves⟩ := replied
  have others (other : Nat) (differs : other ≠ ts) : after.status other = system.view other := by
    rw [moves.others other differs, agrees.views]
  cases reply with
  | granted =>
    refine ⟨_, rfl, moves.wellFormed, fun other => ?_, ?_⟩
    · by_cases same : other = ts
      · subst same
        rw [moves.caller]
        cases op <;> simp [view, acquired, Reply.standing, Operation.waitStatus,
          Status.promoted] at valid ⊢
      · rw [view_update _ _ _ same rfl]
        exact others other same
    · exact requests_update agrees (by cases op <;> simp [acquired])
  | spins =>
    refine ⟨_, rfl, moves.wellFormed, fun other => ?_, ?_⟩
    · by_cases same : other = ts
      · subst same
        rw [moves.caller]
        simp [view, Reply.standing]
      · rw [view_update _ _ _ same (Function.update_of_ne same _ _)]
        exact others other same
    · refine requests_update agrees fun request same => ?_
      cases same
      exact valid
  | refused =>
    refine ⟨_, rfl, moves.wellFormed, fun other => ?_, agrees.requests⟩
    by_cases same : other = ts
    · subst same
      exact moves.caller
    · exact others other same

/-- An unlock takes the caller out and clears the flags of the promoted
clients, which were spinning. -/
theorem release_agrees (agrees : system.Agrees)
    {result : Except LockException (List Nat × WaitDieLock)}
    (replied : ∃ released after, result = .ok (released, after) ∧
      Releases system.lock after ts released) :
    ∃ next, system.release ts result = .ok next ∧ next.Agrees := by
  obtain ⟨released, after, rfl, releases⟩ := replied
  refine ⟨_, rfl, releases.wellFormed, fun other => ?_, requests_update agrees (by simp)⟩
  by_cases same : other = ts
  · subst same
    rw [releases.caller]
    simp [view]
  by_cases member : other ∈ released
  · obtain ⟨spinning, promoted⟩ := releases.promoted other member
    rw [promoted]
    rw [agrees.views] at spinning ⊢
    simp only [view, Function.update_of_ne same, if_pos member] at spinning ⊢
    cases client : system.client other with
    | spinning op =>
      rw [client] at spinning
      -- only a client whose flag is still set can be among the promoted ones
      cases flag : system.waiting other with
      | true => simp
      | false =>
        rw [flag] at spinning
        cases op <;> simp [Operation.waitStatus, Status.promoted, Status.spinning] at spinning
    | _ =>
      rw [client] at spinning
      simp [Status.spinning] at spinning
  · rw [view_update _ _ _ same (by simp [member]), releases.others other same member]
    exact agrees.views other

theorem wake_agrees (agrees : system.Agrees) {op : Operation}
    (spinning : system.client ts = .spinning op) (cleared : system.waiting ts = false) :
    Agrees { system with client := Function.update system.client ts (acquired op) } := by
  refine ⟨agrees.wellFormed, fun other => ?_,
    requests_update agrees (by cases op <;> simp [acquired])⟩
  by_cases same : other = ts
  · subst same
    have valid := agrees.requests other op spinning
    have := agrees.views other
    simp only [view, spinning, cleared] at this
    rw [this]
    cases op <;> simp [view, acquired, Operation.waitStatus, Status.promoted] at valid ⊢
  · rw [view_update _ _ _ same rfl]
    exact agrees.views other

/-- What a call made by a well-behaved client does: it never throws and keeps
the views right. -/
theorem call_agrees (agrees : system.Agrees) {action : Action}
    {result : Except LockException System} (called : system.call action = some result) :
    ∃ next, result = .ok next ∧ next.Agrees := by
  have standing (ts : Nat) := agrees.views ts
  cases action with
  | tryLockShared ts =>
    obtain ⟨outside, rfl⟩ := Option.ite_some_none_eq_some.mp called
    have free : system.view ts = .free := by simp [view, outside]
    refine request_agrees agrees (by simp) ?_
    rw [free]
    exact tryLockShared_spec agrees.wellFormed (by rw [standing, free])
  | tryLock ts =>
    obtain ⟨outside, rfl⟩ := Option.ite_some_none_eq_some.mp called
    have free : system.view ts = .free := by simp [view, outside]
    refine request_agrees agrees (by simp) ?_
    rw [free]
    exact tryLock_spec agrees.wellFormed (by rw [standing, free])
  | tryLockUpgrade ts =>
    obtain ⟨holds, rfl⟩ := Option.ite_some_none_eq_some.mp called
    have shared : system.view ts = .shared := by simp [view, holds]
    refine request_agrees agrees (by simp) ?_
    rw [shared]
    exact tryLockUpgrade_spec agrees.wellFormed (by rw [standing, shared])
  | unlockShared ts =>
    obtain ⟨holds, rfl⟩ := Option.ite_some_none_eq_some.mp called
    have shared : system.view ts = .shared := by simp [view, holds]
    exact release_agrees agrees (unlockShared_spec agrees.wellFormed (by rw [standing, shared]))
  | unlock ts =>
    obtain ⟨holds, rfl⟩ := Option.ite_some_none_eq_some.mp called
    have exclusive : system.view ts = .exclusive := by simp [view, holds]
    exact release_agrees agrees (unlock_spec agrees.wellFormed (by rw [standing, exclusive]))
  | wake ts =>
    cases client : system.client ts with
    | spinning op =>
      simp only [call, client] at called
      obtain ⟨cleared, rfl⟩ := Option.ite_some_none_eq_some.mp called
      exact ⟨_, rfl, wake_agrees agrees client cleared⟩
    | _ => simp [call, client] at called

theorem step_agrees (agrees : system.Agrees) {action : Action} {after : System}
    (taken : system.step action = some after) : after.Agrees := by
  unfold step at taken
  split at taken
  next called =>
    cases taken
    obtain ⟨next, same, kept⟩ := call_agrees agrees called
    cases same
    exact kept
  next => cases taken

theorem run_agrees {trace : List Action} {final : System}
    (run : Run step always new trace final) : final.Agrees :=
  run.invariant Agrees new_agrees fun _ _ _ agrees _ taken => step_agrees agrees taken

end Steps

end System

/-! ## The invariant in the words of the two lists -/

def WaitersBelow (lock : WaitDieLock) : Prop :=
  ∀ waiter ∈ lock.waiterList,
    (waiter.op = .U ∧ lock.ownerList.owners.getLast? = some waiter.ts ∧
      lock.waiterList.head? = some waiter) ∨
    (waiter.op ≠ .U ∧ ∀ owner ∈ lock.ownerList.owners, waiter.ts < owner)

structure ListInvariant (lock : WaitDieLock) : Prop where
  op_known : lock.ownerList.op = .I ∨ lock.ownerList.op = .S ∨ lock.ownerList.op = .E
  idle : lock.ownerList.op = .I ↔ lock.ownerList.owners = []
  exclusive : lock.ownerList.op = .E → lock.ownerList.owners.length = 1
  shared : lock.ownerList.op = .S → 1 ≤ lock.ownerList.owners.length
  owners_descending : Descending id lock.ownerList.owners
  waiters_descending : Descending WaiterNode.ts lock.waiterList
  no_waiter : lock.ownerList.owners = [] → lock.waiterList = []
  waiters_below : WaitersBelow lock

/-- The waiters behind the first one are smaller, while an upgrading owner is
larger than every waiter that owns nothing. -/
theorem upgrade_at_head {lock : WaitDieLock} (wellFormed : WellFormed lock) {waiter : WaiterNode}
    (member : waiter ∈ lock.waiterList) (upgrade : waiter.op = .U) :
    lock.waiterList.head? = some waiter := by
  obtain ⟨-, last⟩ := wellFormed.upgrade_smallest waiter member upgrade
  have owner := List.mem_of_getLast? last
  cases waiters : lock.waiterList with
  | nil => simp [waiters] at member
  | cons head rest =>
    have sorted := wellFormed.waiters_descending
    rw [waiters] at sorted member
    have headMem : head ∈ lock.waiterList := by simp [waiters]
    rcases List.mem_cons.mp member with rfl | behind
    · rfl
    · have smaller := (List.pairwise_cons.mp sorted).1 waiter behind
      by_cases headUpgrade : head.op = .U
      · obtain ⟨-, headLast⟩ := wellFormed.upgrade_smallest head headMem headUpgrade
        rw [last, Option.some.injEq] at headLast
        omega
      · have := wellFormed.waiter_below head headMem headUpgrade waiter.ts owner
        omega

theorem WellFormed.listInvariant {lock : WaitDieLock} (wellFormed : WellFormed lock) :
    ListInvariant lock where
  op_known := by
    rcases op_cases wellFormed with ⟨op, -⟩ | ⟨op, -⟩ | ⟨op, -⟩ <;> simp [op]
  idle := wellFormed.idle_iff
  exclusive := wellFormed.exclusive_single
  shared := by
    intro op
    rcases op_cases wellFormed with ⟨other, -⟩ | ⟨-, busy⟩ | ⟨-, busy⟩
    · rw [op] at other
      cases other
    · exact List.length_pos_of_ne_nil busy
    · exact List.length_pos_of_ne_nil busy
  owners_descending := wellFormed.owners_descending
  waiters_descending := wellFormed.waiters_descending
  no_waiter := wellFormed.waiter_needs_owner
  waiters_below := by
    intro waiter member
    by_cases upgrade : waiter.op = .U
    · exact .inl ⟨upgrade, (wellFormed.upgrade_smallest waiter member upgrade).2,
        upgrade_at_head wellFormed member upgrade⟩
    · exact .inr ⟨upgrade, wellFormed.waiter_below waiter member upgrade⟩

/-- In every state that well-behaved clients can bring a fresh lock to, the
lists satisfy the invariant and the next call of any of them does not throw. -/
theorem reachable_listInvariant {trace : List System.Action} {system : System}
    (run : Run System.step always System.new trace system) :
    ListInvariant system.lock ∧
      ∀ action failure, system.call action ≠ some (.error failure) := by
  have agrees := System.run_agrees run
  refine ⟨agrees.wellFormed.listInvariant, fun action failure called => ?_⟩
  obtain ⟨next, ok, -⟩ := System.call_agrees agrees called
  cases ok

def contention : List System.Action :=
  [.tryLockShared 9, .tryLockShared 7, .tryLock 4, .tryLockShared 3, .tryLockUpgrade 7,
    .unlockShared 9, .wake 7]

theorem contention_listInvariant :
    ∃ system, Run System.step always System.new contention system ∧
      system.lock = ⟨[⟨4, .E⟩, ⟨3, .S⟩], ⟨.E, [7]⟩⟩ ∧ ListInvariant system.lock ∧
      ∀ action failure, system.call action ≠ some (.error failure) := by
  have reached : (exec System.step System.new contention).map System.lock =
      some ⟨[⟨4, .E⟩, ⟨3, .S⟩], ⟨.E, [7]⟩⟩ := by decide
  obtain ⟨system, success, lock⟩ := Option.map_eq_some_iff.mp reached
  have run := Run.of_exec success
  exact ⟨system, run, lock, reachable_listInvariant run⟩

end TpccRunner.WaitDie
