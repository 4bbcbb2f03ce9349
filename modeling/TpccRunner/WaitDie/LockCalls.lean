import TpccRunner.WaitDie.LockInvariant

/-!
# The five calls of a `WaitDieLock`

One lemma for each entry point, over well-formed locks, and from them the
invariant of a lock used by any number of well-behaved clients.
-/

set_option autoImplicit false

namespace TpccRunner.WaitDie

open TimestampSortedList (Descending)

def Reply.standing (before acquired waiting : Status) : Reply → Status
  | .granted => acquired
  | .spins => waiting
  | .refused => before

theorem wellFormed_new : WellFormed {} where
  idle_iff := by simp
  exclusive_single := by simp
  op_ne_upgrade := by simp
  owners_descending := by simp [Descending]
  waiters_descending := by simp [Descending]
  waiter_op := by simp
  waiter_below := by simp
  upgrade_smallest := by simp
  waiter_needs_owner := by simp
  upgrade_waits := by simp

section Calls
variable {lock : WaitDieLock} {ts : Nat}

theorem moves_refl (wellFormed : WellFormed lock) (ts : Nat) :
    Moves lock lock ts (lock.status ts) :=
  ⟨wellFormed, rfl, fun _ _ => rfl⟩

theorem join_wellFormed (wellFormed : WellFormed lock) (free : lock.status ts = .free)
    (noWaiter : lock.waiterList = []) (op : Operation) (opCases : op = .S ∨ op = .E)
    (single : op = .E → lock.ownerList.owners = [])
    (mode : lock.ownerList.owners ≠ [] → lock.ownerList.op = op) :
    Moves lock { lock with ownerList := { lock.ownerList.insert ts with op := op } } ts
      (if op = .E then .exclusive else .shared) := by
  obtain ⟨absent, notOwner⟩ := status_free wellFormed free
  have mem := TimestampSortedList.mem_insert (id : Nat → Nat) ts
  have sorted := TimestampSortedList.insert_descending (id : Nat → Nat) ts lock.ownerList.owners
    wellFormed.owners_descending (by
      rintro owner member rfl
      exact notOwner member)
  have nonempty : TimestampSortedList.insert (id : Nat → Nat) ts lock.ownerList.owners ≠ [] :=
    List.ne_nil_of_mem ((mem ts _).mpr (.inl rfl))
  have none : ∀ waiter ∈ lock.waiterList, False := by simp [noWaiter]
  refine ⟨{
      idle_iff := ?_
      exclusive_single := ?_
      op_ne_upgrade := ?_
      owners_descending := sorted
      waiters_descending := wellFormed.waiters_descending
      waiter_op := fun waiter member => (none waiter member).elim
      waiter_below := fun waiter member => (none waiter member).elim
      upgrade_smallest := fun waiter member => (none waiter member).elim
      waiter_needs_owner := fun _ => noWaiter
      upgrade_waits := fun waiter member => (none waiter member).elim }, ?_, ?_⟩
  · rcases opCases with rfl | rfl <;> simp [OwnerList.insert, nonempty]
  · intro exclusive
    simp only [OwnerList.insert, single exclusive]
    rfl
  · rcases opCases with rfl | rfl <;> simp
  · rw [status_of_not_waiter (by intro waiter member; exact (none waiter member).elim)]
    simp [OwnerList.insert, mem]
  · intro other differs
    refine status_congr wellFormed.waiters_descending wellFormed.waiters_descending
      (fun _ _ => Iff.rfl) ?_ ?_
    · simp [OwnerList.insert, mem, differs]
    · intro owner
      rw [mode (List.ne_nil_of_mem owner)]

theorem waitOrDie_spec (wellFormed : WellFormed lock) (free : lock.status ts = .free)
    (busy : lock.ownerList.owners ≠ []) (op : Operation) (opCases : op = .S ∨ op = .E)
    (acquired : Status) :
    ∃ reply after, lock.waitOrDie ts op = .ok (reply, after) ∧
      Moves lock after ts (reply.standing .free acquired op.waitStatus) := by
  obtain ⟨minTs, minEq, -, -, smallest⟩ :=
    getMinTimestamp_spec wellFormed.owners_descending busy
  by_cases older : ts < minTs
  · refine ⟨.spins, _, by simp only [WaitDieLock.waitOrDie, minEq, if_pos older]; rfl, ?_⟩
    refine spin_wellFormed wellFormed (status_free wellFormed free).1 busy ?_ ?_ ?_
    · rcases opCases with rfl | rfl <;> simp
    · intro _ owner member
      have := smallest owner member
      omega
    · rcases opCases with rfl | rfl <;> simp
  · refine ⟨.refused, lock, by simp only [WaitDieLock.waitOrDie, minEq, if_neg older], ?_⟩
    simpa only [Reply.standing, free] using moves_refl wellFormed ts

theorem op_cases (wellFormed : WellFormed lock) :
    (lock.ownerList.op = .I ∧ lock.ownerList.owners = [] ∧ lock.waiterList = []) ∨
      (lock.ownerList.op = .S ∧ lock.ownerList.owners ≠ []) ∨
      (lock.ownerList.op = .E ∧ lock.ownerList.owners ≠ []) := by
  have idle := wellFormed.idle_iff
  have notUpgrade := wellFormed.op_ne_upgrade
  have noWaiter := wellFormed.waiter_needs_owner
  cases op : lock.ownerList.op <;> simp_all

theorem tryLockShared_spec (wellFormed : WellFormed lock) (free : lock.status ts = .free) :
    ∃ reply after, lock.tryLockShared ts = .ok (reply, after) ∧
      Moves lock after ts (reply.standing .free .shared .waitShared) := by
  rcases op_cases wellFormed with ⟨op, owners, waiters⟩ | ⟨op, busy⟩ | ⟨op, busy⟩
  · have joined := join_wellFormed wellFormed free waiters .S (.inl rfl) (by simp)
      (fun nonempty => absurd owners nonempty)
    exact ⟨.granted, _, by simp [WaitDieLock.tryLockShared, op, waiters], joined⟩
  · by_cases waiters : lock.waiterList = []
    · have joined := join_wellFormed wellFormed free waiters .S (.inl rfl) (by simp) (fun _ => op)
      exact ⟨.granted, _, by simp [WaitDieLock.tryLockShared, op, waiters], joined⟩
    · have branch : lock.tryLockShared ts = lock.waitOrDie ts .S := by
        simp [WaitDieLock.tryLockShared, op, waiters]
      rw [branch]
      exact waitOrDie_spec wellFormed free busy .S (.inl rfl) .shared
  · have branch : lock.tryLockShared ts = lock.waitOrDie ts .S := by
      simp [WaitDieLock.tryLockShared, op]
    rw [branch]
    exact waitOrDie_spec wellFormed free busy .S (.inl rfl) .shared

theorem tryLock_spec (wellFormed : WellFormed lock) (free : lock.status ts = .free) :
    ∃ reply after, lock.tryLock ts = .ok (reply, after) ∧
      Moves lock after ts (reply.standing .free .exclusive .waitExclusive) := by
  have branch (busy : lock.ownerList.op = .S ∨ lock.ownerList.op = .E) :
      lock.tryLock ts = lock.waitOrDie ts .E := by
    rcases busy with op | op <;> simp [WaitDieLock.tryLock, op]
  rcases op_cases wellFormed with ⟨op, owners, waiters⟩ | ⟨op, busy⟩ | ⟨op, busy⟩
  · have joined := join_wellFormed wellFormed free waiters .E (.inr rfl) (fun _ => owners)
      (fun nonempty => absurd owners nonempty)
    exact ⟨.granted, _, by simp [WaitDieLock.tryLock, op, waiters], joined⟩
  · rw [branch (.inl op)]
    exact waitOrDie_spec wellFormed free busy .E (.inr rfl) .exclusive
  · rw [branch (.inr op)]
    exact waitOrDie_spec wellFormed free busy .E (.inr rfl) .exclusive

theorem tryLockUpgrade_spec (wellFormed : WellFormed lock) (shared : lock.status ts = .shared) :
    ∃ reply after, lock.tryLockUpgrade ts = .ok (reply, after) ∧
      Moves lock after ts (reply.standing .shared .exclusive .waitUpgrade) := by
  obtain ⟨absent, owner, sharedOp, -⟩ := status_owner wellFormed (.inl shared)
  have op := sharedOp shared
  have busy : lock.ownerList.owners ≠ [] := List.ne_nil_of_mem owner
  obtain ⟨minTs, minEq, last, minMem, smallest⟩ :=
    getMinTimestamp_spec wellFormed.owners_descending busy
  by_cases isMin : minTs = ts
  · subst minTs
    by_cases single : lock.ownerList.owners.length = 1
    · refine ⟨.granted, { lock with ownerList := { lock.ownerList with op := .E } }, ?_, ?_⟩
      · simp [WaitDieLock.tryLockUpgrade, op, minEq, OwnerList.getSize, single]
      obtain ⟨only, onlyEq⟩ := List.length_eq_one_iff.mp single
      have onlyTs : lock.ownerList.owners = [ts] := by
        rw [onlyEq] at owner ⊢
        simp_all
      have noUpgrade : ∀ waiter ∈ lock.waiterList, waiter.op ≠ .U := by
        intro waiter member upgrade
        have := wellFormed.upgrade_waits waiter member upgrade
        omega
      refine ⟨{ wellFormed with
          idle_iff := by simp [busy]
          exclusive_single := fun _ => single
          op_ne_upgrade := by simp
          upgrade_smallest := fun waiter member upgrade =>
            absurd upgrade (noUpgrade waiter member) }, ?_, ?_⟩
      · rw [status_of_not_waiter (by exact absent)]
        simp [owner, Reply.standing]
      · intro other differs
        refine status_congr wellFormed.waiters_descending wellFormed.waiters_descending
          (fun _ _ => Iff.rfl) Iff.rfl ?_
        simp [onlyTs, differs]
    · have several : 1 < lock.ownerList.owners.length := by
        have := List.length_pos_of_ne_nil busy
        omega
      refine ⟨.spins, _, by
        simp only [WaitDieLock.tryLockUpgrade, op, minEq, OwnerList.getSize, several]; rfl, ?_⟩
      exact @spin_wellFormed _ _ .U wellFormed absent busy (by simp) (by simp)
        (fun _ => ⟨op, last, several⟩)
  · refine ⟨.refused, lock, by simp [WaitDieLock.tryLockUpgrade, op, minEq, isMin], ?_⟩
    simpa only [Reply.standing, shared] using moves_refl wellFormed ts

structure Releases (before after : WaitDieLock) (ts : Nat) (released : List Nat) : Prop where
  wellFormed : WellFormed after
  caller : after.status ts = .free
  callerFree : ts ∉ released
  promoted : ∀ other ∈ released, (before.status other).spinning = true ∧
    after.status other = (before.status other).promoted
  others : ∀ other, other ≠ ts → other ∉ released → after.status other = before.status other

theorem removeAndPromote_spec (wellFormed : WellFormed lock)
    (held : lock.status ts = .shared ∨ lock.status ts = .exclusive) :
    ∃ released after, lock.removeAndPromote ts = .ok (released, after) ∧
      Releases lock after ts released := by
  obtain ⟨absent, owner, -, -⟩ := status_owner wellFormed held
  obtain ⟨owners, removed, sorted, sub, length, mem⟩ := TimestampSortedList.remove_spec
    (id : Nat → Nat) ts lock.ownerList.owners ⟨ts, owner, rfl⟩ wellFormed.owners_descending
  have removedEq : lock.ownerList.remove ts =
      .ok { op := if owners = [] then .I else lock.ownerList.op, owners } := by
    simp [OwnerList.remove, removed]
  have promotable :
      Promotable { op := if owners = [] then .I else lock.ownerList.op, owners }
        lock.waiterList := {
    idle_iff := by
      have busy : lock.ownerList.op ≠ .I := by
        intro idle
        rw [wellFormed.idle_iff.mp idle] at owner
        cases owner
      by_cases empty : owners = [] <;> simp [empty, busy]
    exclusive_single := by
      intro exclusive
      by_cases empty : owners = []
      · simp [empty] at exclusive
      · have := wellFormed.exclusive_single (by simpa [empty] using exclusive)
        have := List.length_pos_of_ne_nil empty
        omega
    op_ne_upgrade := by
      by_cases empty : owners = [] <;> simp [empty, wellFormed.op_ne_upgrade]
    owners_descending := sorted
    waiters_descending := wellFormed.waiters_descending
    waiter_op := wellFormed.waiter_op
    waiter_below := fun waiter member notUpgrade other otherMem =>
      wellFormed.waiter_below waiter member notUpgrade other ((mem other).mp otherMem).1
    upgrade_smallest := by
      intro waiter member upgrade
      obtain ⟨op, last⟩ := wellFormed.upgrade_smallest waiter member upgrade
      have stays : waiter.ts ∈ owners :=
        (mem waiter.ts).mpr ⟨List.mem_of_getLast? last, absent waiter member⟩
      have nonempty := List.ne_nil_of_mem stays
      refine ⟨by simp [nonempty, op], ?_⟩
      obtain ⟨last', lastEq⟩ := Option.isSome_iff_exists.mp (List.getLast?_isSome.mpr nonempty)
      obtain ⟨lastMem, smallest'⟩ := TimestampSortedList.getLast_smallest id sorted lastEq
      obtain ⟨-, smallest⟩ :=
        TimestampSortedList.getLast_smallest id wellFormed.owners_descending last
      rw [lastEq]
      congr 1
      rcases smallest' waiter.ts stays with same | below
      · exact same.symm
      · rcases smallest last' ((mem last').mp lastMem).1 with same | below'
        · exact same
        · simp only [id] at below below'
          omega }
  obtain ⟨list', waiters', released, success, wellFormed', promotes⟩ :=
    promoteWaiters_spec lock.waiterList _ promotable
  have removedStatus : WaitDieLock.status
      ⟨lock.waiterList, { op := if owners = [] then .I else lock.ownerList.op, owners }⟩ ts =
        .free := by
    have gone : ts ∉ owners := fun member => ((mem ts).mp member).2 rfl
    rw [status_of_not_waiter (by exact absent)]
    simp [gone]
  have callerFree : ts ∉ released := by
    intro again
    have := ((promotes ts).1 again).1
    rw [removedStatus] at this
    cases this
  have unchanged : ∀ other, other ≠ ts → WaitDieLock.status
      ⟨lock.waiterList, { op := if owners = [] then .I else lock.ownerList.op, owners }⟩ other =
        lock.status other := by
    intro other differs
    refine status_congr wellFormed.waiters_descending wellFormed.waiters_descending
      (fun _ _ => Iff.rfl) ?_ ?_
    · simp [mem, differs]
    · intro otherOwner
      have : owners ≠ [] := List.ne_nil_of_mem ((mem other).mpr ⟨otherOwner, differs⟩)
      simp [this]
  refine ⟨released, ⟨waiters', list'⟩, by
    simp [WaitDieLock.removeAndPromote, removedEq, success], wellFormed', ?_, callerFree, ?_, ?_⟩
  · rw [(promotes ts).2 callerFree, removedStatus]
  · intro other member
    have differs : other ≠ ts := by
      rintro rfl
      exact callerFree member
    have := (promotes other).1 member
    rwa [unchanged other differs] at this
  · intro other differs notReleased
    rw [(promotes other).2 notReleased, unchanged other differs]

theorem unlockShared_spec (wellFormed : WellFormed lock) (shared : lock.status ts = .shared) :
    ∃ released after, lock.unlockShared ts = .ok (released, after) ∧
      Releases lock after ts released := by
  obtain ⟨-, -, sharedOp, -⟩ := status_owner wellFormed (.inl shared)
  have branch : lock.unlockShared ts = lock.removeAndPromote ts := by
    simp [WaitDieLock.unlockShared, sharedOp shared]
  rw [branch]
  exact removeAndPromote_spec wellFormed (.inl shared)

theorem unlock_spec (wellFormed : WellFormed lock) (exclusive : lock.status ts = .exclusive) :
    ∃ released after, lock.unlock ts = .ok (released, after) ∧
      Releases lock after ts released := by
  obtain ⟨-, -, -, exclusiveOp⟩ := status_owner wellFormed (.inr exclusive)
  have branch : lock.unlock ts = lock.removeAndPromote ts := by
    simp [WaitDieLock.unlock, exclusiveOp exclusive]
  rw [branch]
  exact removeAndPromote_spec wellFormed (.inr exclusive)

end Calls

end TpccRunner.WaitDie
