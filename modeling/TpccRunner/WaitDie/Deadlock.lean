import TpccRunner.WaitDie.LockClients

/-!
# Wait-die never deadlocks

Any finite number of locks and any number of transactions.  A transaction that
spins on a lock makes no call on another one.  A waiter waits for the other
owners of its lock and for the waiters ahead of it, all of which have larger
timestamps, so nobody waits for itself through any number of locks.
-/

set_option autoImplicit false

namespace TpccRunner.WaitDie

open TpccRunner.Lib

def System.Action.caller : System.Action → Nat
  | .tryLockShared ts | .tryLock ts | .tryLockUpgrade ts | .unlockShared ts | .unlock ts
  | .wake ts => ts

def System.spins (system : System) (ts : Nat) : Bool :=
  match system.client ts with
  | .spinning _ => true
  | _ => false

abbrev Locks (Lock : Type) := Lock → System

namespace Locks

variable {Lock : Type} [Fintype Lock] [DecidableEq Lock]

def new : Locks Lock := fun _ => System.new

/-- A call on one lock, by a transaction that spins on no other. -/
def step (locks : Locks Lock) (call : Lock × System.Action) : Option (Locks Lock) :=
  if ∀ other, other ≠ call.1 → (locks other).spins call.2.caller = false then
    ((locks call.1).step call.2).map (Function.update locks call.1)
  else none

end Locks

/-- At one of the locks, `one` is in the waiter list and `two` is another owner or
a waiter ahead of it. -/
def WaitsFor {Lock : Type} (locks : Locks Lock) (one two : Nat) : Prop :=
  ∃ lock ahead op behind, (locks lock).lock.waiterList = ahead ++ ⟨one, op⟩ :: behind ∧
    ((two ∈ (locks lock).lock.ownerList.owners ∧ two ≠ one) ∨ ∃ waiter ∈ ahead, waiter.ts = two)

/-- Whom a waiter waits for has a larger timestamp. -/
theorem ListInvariant.waitsFor_lt {lock : WaitDieLock} (inv : ListInvariant lock)
    {ahead behind : List WaiterNode} {one two : Nat} {op : Operation}
    (waits : lock.waiterList = ahead ++ ⟨one, op⟩ :: behind)
    (blocked : (two ∈ lock.ownerList.owners ∧ two ≠ one) ∨ ∃ waiter ∈ ahead, waiter.ts = two) :
    one < two := by
  rcases blocked with ⟨owner, differs⟩ | ⟨waiter, member, rfl⟩
  · have listed : (⟨one, op⟩ : WaiterNode) ∈ lock.waiterList := by simp [waits]
    rcases inv.waiters_below ⟨one, op⟩ listed with ⟨-, smallest, -⟩ | ⟨-, below⟩
    · -- an upgrading waiter is the smallest owner
      obtain ⟨-, others⟩ := TimestampSortedList.getLast_smallest id inv.owners_descending smallest
      exact (others two owner).resolve_left differs
    · exact below two owner
  · have sorted := inv.waiters_descending
    rw [waits] at sorted
    exact (List.pairwise_append.mp sorted).2.2 waiter member ⟨one, op⟩ (by simp)

section Runs
variable {Lock : Type} [Fintype Lock] [DecidableEq Lock] {locks : Locks Lock}

theorem Locks.run_agrees {trace : List (Lock × System.Action)}
    (run : Run Locks.step always Locks.new trace locks) (lock : Lock) : (locks lock).Agrees := by
  refine run.invariant (fun locks : Locks Lock => ∀ lock, (locks lock).Agrees)
    (fun _ => System.new_agrees) ?_ lock
  intro before call after agrees _ taken other
  rw [Locks.step, Option.ite_none_right_eq_some] at taken
  obtain ⟨-, taken⟩ := taken
  obtain ⟨next, stepped, rfl⟩ := Option.map_eq_some_iff.mp taken
  by_cases same : other = call.1
  · subst same
    rw [Function.update_self]
    exact System.step_agrees (agrees call.1) stepped
  · rw [Function.update_of_ne same]
    exact agrees other

/-- In no reachable state does a transaction wait for itself. -/
theorem no_deadlock {trace : List (Lock × System.Action)}
    (run : Run Locks.step always Locks.new trace locks) (ts : Nat) :
    ¬ Relation.TransGen (WaitsFor locks) ts ts := by
  have increases (one two : Nat) (edge : WaitsFor locks one two) : one < two := by
    obtain ⟨lock, ahead, op, behind, waits, blocked⟩ := edge
    exact (Locks.run_agrees run lock).wellFormed.listInvariant.waitsFor_lt waits blocked
  intro cycle
  have upwards : Relation.TransGen (· < ·) ts ts := Relation.TransGen.mono increases ts ts cycle
  rw [Relation.transGen_eq_self] at upwards
  exact lt_irrefl ts upwards

end Runs

def waitChain : List (Bool × System.Action) :=
  [(false, .tryLock 9), (true, .tryLock 7), (false, .tryLockShared 7), (true, .tryLockShared 5),
    (true, .tryLock 3)]

theorem waitChain_no_deadlock :
    ∃ locks : Locks Bool, Run Locks.step always Locks.new waitChain locks ∧
      WaitsFor locks 3 5 ∧ WaitsFor locks 5 7 ∧ WaitsFor locks 7 9 ∧
      ∀ ts, ¬ Relation.TransGen (WaitsFor locks) ts ts := by
  have reached : (exec Locks.step (Locks.new : Locks Bool) waitChain).map (fun locks =>
      ((locks false).lock, (locks true).lock)) =
        some (⟨[⟨7, .S⟩], ⟨.E, [9]⟩⟩, ⟨[⟨5, .S⟩, ⟨3, .E⟩], ⟨.E, [7]⟩⟩) := by
    decide
  obtain ⟨locks, success, summary⟩ := Option.map_eq_some_iff.mp reached
  obtain ⟨first, second⟩ := Prod.mk.inj summary
  have run := Run.of_exec success
  refine ⟨locks, run, ⟨true, [⟨5, .S⟩], .E, [], by rw [second]; rfl, .inr ⟨⟨5, .S⟩, by simp, rfl⟩⟩,
    ⟨true, [], .S, [⟨3, .E⟩], by rw [second]; rfl, .inl ⟨by simp [second], by decide⟩⟩,
    ⟨false, [], .S, [], by rw [first]; rfl, .inl ⟨by simp [first], by decide⟩⟩, no_deadlock run⟩

end TpccRunner.WaitDie
