import TpccRunner.Common.ReadWriteLock

/-!
# Locks and values of NoWait

What the transactions hold of the lock of a key, and how the value in the table follows the
value in the serial order, which a committing transaction has still to write.
-/

set_option autoImplicit false

namespace TpccRunner.NoWait

open Function (update)

inductive LockMode where
  | shared
  | exclusive
  deriving DecidableEq

def thread : Option LockMode → RWLock.Thread
  | none => ⟨.outside, 0, false⟩
  | some .shared => ⟨.outside, 1, false⟩
  | some .exclusive => ⟨.outside, 0, true⟩

variable {n : Nat} {R : Type} {held : Fin n → Option LockMode} {cnt : Int} {worker : Fin n}

def Counted (held : Fin n → Option LockMode) (cnt : Int) : Prop :=
  RWLock.Inv ⟨cnt, fun worker => thread (held worker)⟩

theorem Counted.of_next (counted : Counted held cnt) {mode : Option LockMode} {cnt' : Int}
    (pc : RWLock.Pc) (ok : RWLock.Thread.Ok { thread (held worker) with pc })
    (taken : RWLock.State.next ⟨cnt, update (fun other => thread (held other)) worker
        { thread (held worker) with pc }⟩ worker =
      some ⟨cnt', update (fun other => thread (held other)) worker (thread mode)⟩) :
    Counted (update held worker mode) cnt' := by
  rw [Counted, funext (Function.apply_update (fun _ => thread) held worker mode)]
  exact RWLock.Inv.next ⟨counted.counts.move, counted.setThread ok⟩ taken

theorem Counted.tryLock (counted : Counted held cnt) {mode : RWLock.Mode} {result : LockMode}
    (admits : mode.admits cnt = true)
    (upgrades : mode = .upgrade → 0 < (thread (held worker)).shares)
    (acquired : (thread (held worker)).acquired mode = thread (some result)) :
    Counted (update held worker (some result)) (mode.desired cnt) := by
  refine counted.of_next (.exchange ⟨mode, true⟩ cnt) ⟨admits, upgrades⟩ ?_
  rw [← acquired]
  cases mode <;> simp [RWLock.State.next, RWLock.State.setThread, RWLock.Thread.acquired]

theorem Counted.unlockShared (counted : Counted held cnt) (holds : held worker = some .shared) :
    Counted (update held worker none) (cnt - 1) := by
  refine counted.of_next (.fetchAdd .unlockShared) (by simp [RWLock.Thread.Ok, holds, thread]) ?_
  simp [RWLock.State.next, RWLock.State.setThread, holds, thread]

theorem Counted.unlock (counted : Counted held cnt) (holds : held worker = some .exclusive) :
    Counted (update held worker none) (cnt + 1) := by
  refine counted.of_next (.fetchAdd .unlock) (by simp [RWLock.Thread.Ok, holds, thread]) ?_
  simp [RWLock.State.next, RWLock.State.setThread, holds, thread]

theorem Counted.alone (counted : Counted held cnt) (owned : held worker = some .exclusive)
    (other : Fin n) (different : other ≠ worker) : held other = none := by
  rcases counted.counts with ⟨-, ⟨owner, -, unique⟩, none⟩ | ⟨-, free⟩
  · have mine := unique worker (by simp [owned, thread])
    have theirs := unique other
    have shares := none other
    rcases taken : held other with _ | _ | _ <;> simp_all [thread]
  · have mine := free worker
    simp [owned, thread] at mine

/-- A key whose record in the serial order is `serial` and whose record in the table is `stored`.
`held` is what each transaction holds of its lock, and `unwritten` the record that a committing
transaction has still to write. -/
structure Guarded (serial stored : R) (cnt : Int) (held : Fin n → Option LockMode)
    (unwritten : Fin n → Option R) : Prop where
  counted : Counted held cnt
  pending : ∀ worker record, unwritten worker = some record →
    held worker = some .exclusive ∧ serial = record
  written : (∀ worker, unwritten worker = none) → stored = serial

namespace Guarded
variable {serial stored : R} {unwritten : Fin n → Option R}
  (guarded : Guarded serial stored cnt held unwritten)
include guarded

/-- Who holds the lock and has nothing to write sees the record of the serial order. -/
theorem settled {mode : LockMode} (holds : held worker = some mode)
    (idle : unwritten worker = none) : stored = serial := by
  refine guarded.written fun other => ?_
  by_contra waits
  obtain ⟨record, waits⟩ := Option.ne_none_iff_exists'.mp waits
  have owned := (guarded.pending other record waits).1
  by_cases self : worker = other
  · simp [← self, idle] at waits
  · simp [guarded.counted.alone owned worker self] at holds

theorem relock {cnt' : Int} {mode : Option LockMode} (idle : unwritten worker = none)
    (counted : Counted (update held worker mode) cnt') :
    Guarded serial stored cnt' (update held worker mode) (update unwritten worker none) := by
  rw [← idle, Function.update_eq_self]
  refine ⟨counted, fun other record waits => ?_, guarded.written⟩
  have different : other ≠ worker := by
    rintro rfl
    simp [idle] at waits
  rw [Function.update_of_ne different]
  exact guarded.pending other record waits

theorem own (owned : held worker = some .exclusive) {serial' stored' : R} {record : Option R}
    (commits : ∀ waiting, record = some waiting → serial' = waiting)
    (writes : record = none → stored' = serial') :
    Guarded serial' stored' cnt (update held worker (some .exclusive))
      (update unwritten worker record) := by
  rw [← owned, Function.update_eq_self]
  refine ⟨guarded.counted, fun other waiting waits => ?_, fun all => writes ?_⟩
  · by_cases self : other = worker
    · subst self
      exact ⟨owned, commits waiting (by simpa using waits)⟩
    · rw [Function.update_of_ne self] at waits
      have shared := (guarded.pending other waiting waits).1
      rw [guarded.counted.alone owned other self] at shared
      cases shared
  · simpa using all worker

end Guarded

end TpccRunner.NoWait
