import TpccRunner.Lib.StepSystem

/-!
# The reader-writer lock

`RWLock` of `protocols/common/readwritelock.hpp`.  Its counter is `-1` while a thread holds
the lock exclusively and otherwise says how often it is held shared.  Every atomic load,
compare-exchange and fetch-and-add is a step of its own.  `cnt` is an `int64_t`; it never
exceeds the number of shares held at the same time, so it is an integer here.
-/

set_option autoImplicit false

namespace TpccRunner.RWLock

open Lib

variable {n : Nat}

/-- The ways to take the lock: `lock_shared`, `lock`, `lock_upgrade`; each with its `try_`
variant, which gives up where the other one starts over. -/
inductive Mode where
  | shared
  | exclusive
  | upgrade
  deriving DecidableEq

structure Acquire where
  mode : Mode
  try_ : Bool
  deriving DecidableEq

inductive Release where
  | unlockShared
  | unlock
  deriving DecidableEq

/-- Where a thread is: before the load, or before the compare-exchange with the value of
`expected`, or before the fetch-and-add of an unlock. -/
inductive Pc where
  | outside
  | load (op : Acquire)
  | exchange (op : Acquire) (expected : Int)
  | fetchAdd (op : Release)
  deriving DecidableEq

/-- `shares` and `holds` record what the thread holds: how many shares of the lock, and
whether it holds it exclusively. -/
structure Thread where
  pc : Pc
  shares : Nat
  holds : Bool

structure State (n : Nat) where
  cnt : Int
  thread : Fin n → Thread

def start : State n where
  cnt := 0
  thread _ := ⟨.outside, 0, false⟩

inductive Label (n : Nat) where
  | acquire (worker : Fin n) (op : Acquire)
  | release (worker : Fin n) (op : Release)
  | next (worker : Fin n)

/-- The values of `expected` with which the operation tries the compare-exchange. -/
def Mode.admits : Mode → Int → Bool
  | .shared, expected => decide (0 ≤ expected)
  | .exclusive, expected => decide (expected = 0)
  | .upgrade, expected => decide (expected = 1)

def Mode.desired : Mode → Int → Int
  | .shared, expected => expected + 1
  | .exclusive, _ => -1
  | .upgrade, _ => -1

def Thread.acquired (thread : Thread) : Mode → Thread
  | .shared => { thread with pc := .outside, shares := thread.shares + 1 }
  | .exclusive => { thread with pc := .outside, holds := true }
  | .upgrade => { thread with pc := .outside, shares := thread.shares - 1, holds := true }

def Acquire.loaded (op : Acquire) (cnt : Int) : Pc :=
  if op.mode.admits cnt then .exchange op cnt else if op.try_ then .outside else .load op

/-- After a compare-exchange that failed and wrote `cnt` back to `expected`:
`try_lock_shared` goes on with it, the other `try_` operations give up. -/
def Acquire.failed (op : Acquire) (cnt : Int) : Pc :=
  if op.try_ then
    match op.mode with
    | .shared => op.loaded cnt
    | .exclusive | .upgrade => .outside
  else .load op

/-- Threads unlock what they hold and upgrade a share that they hold. -/
def Thread.mayAcquire (thread : Thread) (op : Acquire) : Bool :=
  thread.pc = .outside ∧ (op.mode = .upgrade → 0 < thread.shares)

def Thread.mayRelease (thread : Thread) : Release → Bool
  | .unlockShared => thread.pc = .outside ∧ 0 < thread.shares
  | .unlock => thread.pc = .outside ∧ thread.holds = true

def State.setThread (state : State n) (worker : Fin n) (thread : Thread) : State n :=
  { state with thread := Function.update state.thread worker thread }

def State.next (state : State n) (worker : Fin n) : Option (State n) :=
  let thread := state.thread worker
  match thread.pc with
  | .outside => none
  | .load op => some (state.setThread worker { thread with pc := op.loaded state.cnt })
  | .exchange op expected =>
    if state.cnt = expected then
      some { state.setThread worker (thread.acquired op.mode) with
        cnt := op.mode.desired expected }
    else some (state.setThread worker { thread with pc := op.failed state.cnt })
  | .fetchAdd .unlockShared =>
    some { state.setThread worker
        { thread with pc := .outside, shares := thread.shares - 1 } with
      cnt := state.cnt - 1 }
  | .fetchAdd .unlock =>
    some { state.setThread worker { thread with pc := .outside, holds := false } with
      cnt := state.cnt + 1 }

def step (state : State n) : Label n → Option (State n)
  | .acquire worker op =>
    if (state.thread worker).mayAcquire op then
      some (state.setThread worker { state.thread worker with pc := .load op })
    else none
  | .release worker op =>
    if (state.thread worker).mayRelease op then
      some (state.setThread worker { state.thread worker with pc := .fetchAdd op })
    else none
  | .next worker => state.next worker

def State.shares (state : State n) : Nat := ∑ worker, (state.thread worker).shares

def State.Counts (state : State n) : Prop :=
  (state.cnt = -1 ∧ (∃! worker, (state.thread worker).holds = true) ∧
      ∀ worker, (state.thread worker).shares = 0) ∨
    (state.cnt = state.shares ∧ ∀ worker, (state.thread worker).holds = false)

def Thread.Ok (thread : Thread) : Prop :=
  match thread.pc with
  | .outside => True
  | .load op => op.mode = .upgrade → 0 < thread.shares
  | .exchange op expected =>
    op.mode.admits expected = true ∧ (op.mode = .upgrade → 0 < thread.shares)
  | .fetchAdd .unlockShared => 0 < thread.shares
  | .fetchAdd .unlock => thread.holds = true

structure Inv (state : State n) : Prop where
  counts : state.Counts
  thread : ∀ worker, (state.thread worker).Ok

section Threads
variable {state : State n} {worker : Fin n} {thread : Thread}

theorem setThread_self : (state.setThread worker thread).thread worker = thread :=
  Function.update_self ..

theorem setThread_of_ne {other : Fin n} (different : other ≠ worker) :
    (state.setThread worker thread).thread other = state.thread other :=
  Function.update_of_ne different ..

theorem shares_setThread (state : State n) (worker : Fin n) (thread : Thread) :
    (state.setThread worker thread).shares + (state.thread worker).shares =
      state.shares + thread.shares := by
  have others : ∑ other ∈ Finset.univ.erase worker,
      ((state.setThread worker thread).thread other).shares =
        ∑ other ∈ Finset.univ.erase worker, (state.thread other).shares := by
    apply Finset.sum_congr rfl
    intro other member
    rw [setThread_of_ne (Finset.ne_of_mem_erase member)]
  have after := Finset.add_sum_erase Finset.univ
    (fun other => ((state.setThread worker thread).thread other).shares) (Finset.mem_univ worker)
  have before := Finset.add_sum_erase Finset.univ
    (fun other => (state.thread other).shares) (Finset.mem_univ worker)
  simp only [setThread_self, others] at after before
  unfold State.shares
  omega

theorem shares_le (state : State n) (worker : Fin n) :
    (state.thread worker).shares ≤ state.shares := by
  unfold State.shares
  exact Finset.single_le_sum (f := fun worker => (state.thread worker).shares)
    (fun _ _ => Nat.zero_le _) (Finset.mem_univ worker)

theorem shares_eq_zero (none : state.shares = 0) (worker : Fin n) :
    (state.thread worker).shares = 0 := by
  have := shares_le state worker
  omega

theorem State.Counts.move {pc : Pc} (counts : state.Counts) :
    (state.setThread worker { state.thread worker with pc }).Counts := by
  have same : ∀ other, ((state.setThread worker { state.thread worker with pc }).thread other).holds
      = (state.thread other).holds ∧
      ((state.setThread worker { state.thread worker with pc }).thread other).shares =
        (state.thread other).shares := by
    intro other
    by_cases self : other = worker
    · subst self
      rw [setThread_self]
      exact ⟨rfl, rfl⟩
    · rw [setThread_of_ne self]
      exact ⟨rfl, rfl⟩
  unfold State.Counts State.shares
  simp only [same]
  exact counts

theorem Inv.setThread (inv : Inv state) (ok : thread.Ok) (other : Fin n) :
    ((state.setThread worker thread).thread other).Ok := by
  by_cases self : other = worker
  · subst self
    rw [setThread_self]
    exact ok
  · rw [setThread_of_ne self]
    exact inv.thread other

theorem loaded_ok {op : Acquire} {cnt : Int} (upgrade : op.mode = .upgrade → 0 < thread.shares) :
    Thread.Ok { thread with pc := op.loaded cnt } := by
  unfold Acquire.loaded
  split
  · rename_i admitted
    exact ⟨admitted, upgrade⟩
  · split
    · trivial
    · exact upgrade

theorem failed_ok {op : Acquire} {cnt : Int} (upgrade : op.mode = .upgrade → 0 < thread.shares) :
    Thread.Ok { thread with pc := op.failed cnt } := by
  unfold Acquire.failed
  split
  · cases op.mode with
    | shared => exact loaded_ok upgrade
    | exclusive | upgrade => trivial
  · exact upgrade

theorem State.Counts.shared_of_shares (counts : state.Counts)
    (held : 0 < (state.thread worker).shares) :
    state.cnt = state.shares ∧ ∀ worker, (state.thread worker).holds = false := by
  obtain ⟨-, -, none⟩ | shared := counts
  · rw [none worker] at held
    cases held
  · exact shared

theorem State.Counts.shared_of_nonneg (counts : state.Counts) (nonneg : 0 ≤ state.cnt) :
    state.cnt = state.shares ∧ ∀ worker, (state.thread worker).holds = false := by
  obtain ⟨exclusive, -⟩ | shared := counts
  · omega
  · exact shared

end Threads

section Steps
variable {before after : State n} {worker : Fin n}

theorem counts_of_taken {thread : Thread} (free : ∀ other, (before.thread other).holds = false)
    (holds : thread.holds = true)
    (none : (before.setThread worker thread).shares = 0) :
    State.Counts { before.setThread worker thread with cnt := -1 } := by
  refine .inl ⟨rfl, ⟨worker, ?_, fun other held => ?_⟩, shares_eq_zero none⟩
  · simpa [setThread_self] using holds
  · by_contra different
    have held : (before.thread other).holds = true := by
      simpa [setThread_of_ne different] using held
    rw [free other] at held
    cases held

theorem counts_of_shared {thread : Thread} {cnt : Int}
    (free : ∀ other, (before.thread other).holds = false) (holds : thread.holds = false)
    (counted : cnt = (before.setThread worker thread).shares) :
    State.Counts { before.setThread worker thread with cnt } := by
  refine .inr ⟨counted, fun other => ?_⟩
  by_cases self : other = worker
  · subst self
    simpa [setThread_self] using holds
  · simpa [setThread_of_ne self] using free other

theorem Inv.exchange {op : Acquire} (inv : Inv before)
    (atExchange : (before.thread worker).pc = .exchange op before.cnt) :
    Inv { before.setThread worker ((before.thread worker).acquired op.mode) with
      cnt := op.mode.desired before.cnt } := by
  have ok := inv.thread worker
  unfold Thread.Ok at ok
  rw [atExchange] at ok
  obtain ⟨admitted, upgrade⟩ := ok
  have total := shares_setThread before worker ((before.thread worker).acquired op.mode)
  refine ⟨?_, inv.setThread (by cases op.mode <;> trivial)⟩
  cases mode : op.mode with
  | shared =>
    rw [mode] at admitted total
    obtain ⟨counted, free⟩ := inv.counts.shared_of_nonneg (of_decide_eq_true admitted)
    refine counts_of_shared free (free worker :) ?_
    have one : ((before.thread worker).acquired .shared).shares =
      (before.thread worker).shares + 1 := rfl
    have desired : Mode.shared.desired before.cnt = before.cnt + 1 := rfl
    omega
  | exclusive =>
    rw [mode] at admitted total
    have zero : before.cnt = 0 := of_decide_eq_true admitted
    obtain ⟨counted, free⟩ := inv.counts.shared_of_nonneg zero.ge
    refine counts_of_taken free rfl ?_
    have same : ((before.thread worker).acquired .exclusive).shares =
      (before.thread worker).shares := rfl
    omega
  | upgrade =>
    rw [mode] at admitted total
    have one : before.cnt = 1 := of_decide_eq_true admitted
    obtain ⟨counted, free⟩ := inv.counts.shared_of_shares (upgrade mode)
    refine counts_of_taken free rfl ?_
    -- the one share there is belongs to this thread
    have positive := upgrade mode
    have fewer : ((before.thread worker).acquired .upgrade).shares =
      (before.thread worker).shares - 1 := rfl
    omega

theorem Inv.unlockShared (inv : Inv before)
    (atFetchAdd : (before.thread worker).pc = .fetchAdd .unlockShared) :
    Inv { before.setThread worker { before.thread worker with
        pc := .outside, shares := (before.thread worker).shares - 1 } with
      cnt := before.cnt - 1 } := by
  have held : 0 < (before.thread worker).shares := by
    have ok := inv.thread worker
    unfold Thread.Ok at ok
    rwa [atFetchAdd] at ok
  obtain ⟨counted, free⟩ := inv.counts.shared_of_shares held
  refine ⟨?_, inv.setThread trivial⟩
  have total := shares_setThread before worker { before.thread worker with
    pc := .outside, shares := (before.thread worker).shares - 1 }
  refine counts_of_shared free (free worker :) ?_
  dsimp only at total ⊢
  omega

theorem Inv.unlock (inv : Inv before)
    (atFetchAdd : (before.thread worker).pc = .fetchAdd .unlock) :
    Inv { before.setThread worker { before.thread worker with pc := .outside, holds := false } with
      cnt := before.cnt + 1 } := by
  have held : (before.thread worker).holds = true := by
    have ok := inv.thread worker
    unfold Thread.Ok at ok
    rwa [atFetchAdd] at ok
  refine ⟨?_, inv.setThread trivial⟩
  obtain ⟨exclusive, ⟨owner, -, unique⟩, none⟩ | ⟨-, free⟩ := inv.counts
  · have sole : ∀ other, other ≠ worker → (before.thread other).holds = false := by
      intro other different
      by_contra holds
      exact different ((unique other (by simpa using holds)).trans (unique worker held).symm)
    refine .inr ⟨?_, fun other => ?_⟩
    · have total := shares_setThread before worker { before.thread worker with
        pc := .outside, holds := false }
      have empty : before.shares = 0 := Finset.sum_eq_zero fun other _ => none other
      dsimp only [State.shares] at total empty ⊢
      omega
    · by_cases self : other = worker
      · subst self
        simp [setThread_self]
      · simpa [setThread_of_ne self] using sole other self
  · rw [free worker] at held
    cases held

theorem Inv.next (inv : Inv before) (taken : before.next worker = some after) : Inv after := by
  have ok := inv.thread worker
  unfold Thread.Ok at ok
  unfold State.next at taken
  dsimp only at taken
  split at taken
  · cases taken
  · rename_i op atLoad
    rw [atLoad] at ok
    obtain rfl := Option.some.inj taken
    exact ⟨inv.counts.move, inv.setThread (loaded_ok ok)⟩
  · rename_i op expected atExchange
    rw [atExchange] at ok
    split at taken
    · rename_i same
      subst same
      obtain rfl := Option.some.inj taken
      exact inv.exchange atExchange
    · obtain rfl := Option.some.inj taken
      exact ⟨inv.counts.move, inv.setThread (failed_ok ok.2)⟩
  · rename_i atFetchAdd
    obtain rfl := Option.some.inj taken
    exact inv.unlockShared atFetchAdd
  · rename_i atFetchAdd
    obtain rfl := Option.some.inj taken
    exact inv.unlock atFetchAdd

theorem Inv.step {label : Label n} (inv : Inv before) (taken : step before label = some after) :
    Inv after := by
  cases label with
  | acquire worker op =>
    simp only [RWLock.step, Option.ite_none_right_eq_some, Option.some.injEq] at taken
    obtain ⟨may, rfl⟩ := taken
    simp only [Thread.mayAcquire, decide_eq_true_eq] at may
    exact ⟨inv.counts.move, inv.setThread may.2⟩
  | release worker op =>
    simp only [RWLock.step, Option.ite_none_right_eq_some, Option.some.injEq] at taken
    obtain ⟨may, rfl⟩ := taken
    refine ⟨inv.counts.move, inv.setThread ?_⟩
    cases op with
    | unlockShared | unlock =>
      simp only [Thread.mayRelease, decide_eq_true_eq] at may
      exact may.2
  | next worker => exact inv.next taken

end Steps

theorem Inv.start : Inv (start : State n) where
  counts := .inr ⟨by simp [State.shares, RWLock.start], fun _ => rfl⟩
  thread _ := trivial

theorem card_sharing {state : State n} (once : ∀ worker, (state.thread worker).shares ≤ 1) :
    (Finset.univ.filter fun worker => 0 < (state.thread worker).shares).card = state.shares := by
  rw [Finset.card_filter]
  apply Finset.sum_congr rfl
  intro worker _
  have := once worker
  split <;> omega

theorem rwLock_counts (trace : List (Label n)) (state : State n)
    (run : Run step always start trace state) :
    (state.cnt = -1 ∧ (∃! worker, (state.thread worker).holds = true) ∧
        ∀ worker, (state.thread worker).shares = 0) ∨
      (∃ count : Nat, state.cnt = count ∧ ∑ worker, (state.thread worker).shares = count ∧
        ((∀ worker, (state.thread worker).shares ≤ 1) →
          (Finset.univ.filter fun worker => 0 < (state.thread worker).shares).card = count) ∧
        ∀ worker, (state.thread worker).holds = false) := by
  have inv := run.invariant Inv Inv.start fun _ _ _ inv _ taken => inv.step taken
  refine inv.counts.imp_right fun ⟨counted, free⟩ => ?_
  exact ⟨state.shares, counted, rfl, card_sharing, free⟩

/-- Two readers, one of which waits for an upgrade while the other's `try_lock_shared` is
under way; a failed exchange is retried with the value it wrote back. -/
theorem twoReaders_counts :
    ∃ state : State 3, (state.cnt = 2 ∧ (state.thread 2).pc = .load ⟨.upgrade, false⟩) ∧
      ((state.cnt = -1 ∧ (∃! worker, (state.thread worker).holds = true) ∧
          ∀ worker, (state.thread worker).shares = 0) ∨
        (∃ count : Nat, state.cnt = count ∧ ∑ worker, (state.thread worker).shares = count ∧
          ((∀ worker, (state.thread worker).shares ≤ 1) →
            (Finset.univ.filter fun worker => 0 < (state.thread worker).shares).card = count) ∧
          ∀ worker, (state.thread worker).holds = false)) := by
  have reached : (exec step (start : State 3)
      [.acquire 0 ⟨.shared, true⟩, .next 0, .acquire 2 ⟨.shared, false⟩, .next 2, .next 2,
        .next 0, .next 0, .acquire 2 ⟨.upgrade, false⟩, .next 2]).map
      (fun state => (state.cnt, (state.thread 2).pc)) =
        some (2, .load ⟨.upgrade, false⟩) := by
    decide +kernel
  obtain ⟨state, success, seen⟩ := Option.map_eq_some_iff.mp reached
  exact ⟨state, Prod.mk.inj seen, rwLock_counts _ state (Run.of_exec success)⟩

/-- `lock_shared` does not ask who holds the lock: one thread takes two shares, so that `cnt`
is 2 while only one thread holds the lock. -/
theorem twoShares_oneThread :
    ∃ trace, ∃ state : State 2, Run step always start trace state ∧ state.cnt = 2 ∧
      (Finset.univ.filter fun worker => 0 < (state.thread worker).shares).card = 1 ∧
      ∀ worker, (state.thread worker).holds = false := by
  have reached : (exec step (start : State 2)
      [.acquire 0 ⟨.shared, false⟩, .next 0, .next 0,
        .acquire 0 ⟨.shared, false⟩, .next 0, .next 0]).map (fun state =>
      (state.cnt, (Finset.univ.filter fun worker => 0 < (state.thread worker).shares).card,
        decide (∀ worker, (state.thread worker).holds = false))) = some (2, 1, true) := by
    decide +kernel
  obtain ⟨state, success, summary⟩ := Option.map_eq_some_iff.mp reached
  simp only [Prod.mk.injEq, decide_eq_true_eq] at summary
  exact ⟨_, state, Run.of_exec success, summary⟩

end TpccRunner.RWLock
