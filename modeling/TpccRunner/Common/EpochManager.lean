import TpccRunner.Lib.StepSystem

/-!
# The epoch manager

`protocols/common/epoch_manager.hpp`.  A worker publishes the global epoch when
it begins a transaction (`begin_tx`: a load, then a store into `worker_epoch`).
The epoch thread (`increment_epoch`) loads the global epoch, then one
`worker_epoch` after the other, and adds one when the smallest of them is the
epoch it loaded.  Each load, store and addition is a step of its own.

`Worker` leaves `worker_epoch` uninitialised, so a run starts with arbitrary
values there, and `begun` remembers which workers have stored once.
-/

set_option autoImplicit false

namespace TpccRunner.Epoch

open Lib

variable {n : Nat}

/-- Where the epoch thread is inside `increment_epoch`: the epoch `e` it loaded,
the smallest worker epoch so far and the workers still to visit. -/
inductive EpochThread (n : Nat) where
  | asleep
  | sampling (e smallest : Nat) (rest : List (Fin n))

structure State (n : Nat) where
  globalEpoch : Nat
  workerEpoch : Fin n → Nat
  /-- `set_worker` has been called: the slot of `workers` is not null. -/
  registered : Fin n → Bool
  /-- The epoch `begin_tx` has loaded and not yet stored. -/
  loaded : Fin n → Option Nat
  begun : Fin n → Bool
  thread : EpochThread n

inductive Label (n : Nat) where
  | setWorker (worker : Fin n)
  | beginLoad (worker : Fin n)
  | beginStore (worker : Fin n)
  | incrementLoad
  | sampleWorker
  | incrementAdd

def start (uninitialised : Fin n → Nat) : State n where
  globalEpoch := 1
  workerEpoch := uninitialised
  registered _ := false
  loaded _ := none
  begun _ := false
  thread := .asleep

/-- One visit of the loop of `get_smallest_worker_epoch`. -/
def State.sample (state : State n) (smallest : Nat) (worker : Fin n) : Nat :=
  if state.registered worker then min (state.workerEpoch worker) smallest else smallest

def step (state : State n) : Label n → Option (State n)
  | .setWorker worker =>
    if state.registered worker then none
    else some { state with registered := Function.update state.registered worker true }
  | .beginLoad worker =>
    -- the drivers register a worker before its first transaction
    if state.registered worker ∧ state.loaded worker = none then
      some { state with
        loaded := Function.update state.loaded worker (some state.globalEpoch) }
    else none
  | .beginStore worker =>
    match state.loaded worker with
    | none => none
    | some e => some { state with
        workerEpoch := Function.update state.workerEpoch worker e
        loaded := Function.update state.loaded worker none
        begun := Function.update state.begun worker true }
  | .incrementLoad =>
    match state.thread with
    | .asleep => some { state with
        thread := .sampling state.globalEpoch 0xFFFFFFFF (List.finRange n) }
    | .sampling _ _ _ => none
  | .sampleWorker =>
    match state.thread with
    | .sampling e smallest (worker :: rest) => some { state with
        thread := .sampling e (state.sample smallest worker) rest }
    | _ => none
  | .incrementAdd =>
    match state.thread with
    | .sampling e smallest [] => some { state with
        globalEpoch :=
          if e = smallest then (state.globalEpoch + 1) % 2 ^ 32 else state.globalEpoch
        thread := .asleep }
    | _ => none

/-- `increment_epoch` is called with workers that have each begun a transaction. -/
def Settled (state : State n) : Label n → Prop
  | .incrementLoad => ∀ worker, state.registered worker → state.begun worker
  | _ => True

def Fits (state : State n) : Label n → Prop
  | .incrementAdd => state.globalEpoch + 1 < 2 ^ 32
  | _ => True

def Regular (state : State n) (label : Label n) : Prop :=
  Settled state label ∧ Fits state label

instance (state : State n) (label : Label n) : Decidable (Settled state label) :=
  match label with
  | .incrementLoad =>
    inferInstanceAs (Decidable (∀ worker, state.registered worker → state.begun worker))
  | .setWorker _ | .beginLoad _ | .beginStore _ | .sampleWorker | .incrementAdd => .isTrue trivial

instance (state : State n) (label : Label n) : Decidable (Fits state label) :=
  match label with
  | .incrementAdd => inferInstanceAs (Decidable (state.globalEpoch + 1 < 2 ^ 32))
  | .setWorker _ | .beginLoad _ | .beginStore _ | .incrementLoad | .sampleWorker => .isTrue trivial

instance (state : State n) (label : Label n) : Decidable (Regular state label) :=
  inferInstanceAs (Decidable (Settled state label ∧ Fits state label))

structure Lag (state : State n) : Prop where
  positive : 1 ≤ state.globalEpoch
  member : ∀ worker, state.begun worker ∨ state.loaded worker ≠ none →
    state.registered worker
  stored : ∀ worker, state.begun worker →
    state.workerEpoch worker ≤ state.globalEpoch ∧
      state.globalEpoch ≤ state.workerEpoch worker + 1
  inFlight : ∀ worker e, state.loaded worker = some e →
    e ≤ state.globalEpoch ∧ state.globalEpoch ≤ e + 1 ∧
      (state.begun worker → state.workerEpoch worker ≤ e)
  sampled : ∀ e smallest rest, state.thread = .sampling e smallest rest →
    e = state.globalEpoch ∧
      (∀ worker, state.begun worker → worker ∉ rest →
        min smallest e ≤ state.workerEpoch worker) ∧
      ∀ worker e', state.loaded worker = some e' → ¬ state.begun worker → e' = e

theorem Lag.start (uninitialised : Fin n → Nat) : Lag (start uninitialised) := by
  constructor <;> simp [Epoch.start]

variable {before after : State n} {worker : Fin n}

theorem Lag.setWorker (lag : Lag before)
    (taken : step before (.setWorker worker) = some after) : Lag after := by
  simp only [step, Option.ite_none_left_eq_some, Option.some.injEq] at taken
  obtain ⟨-, rfl⟩ := taken
  refine ⟨lag.positive, ?_, lag.stored, lag.inFlight, lag.sampled⟩
  intro other active
  by_cases same : other = worker
  · simp [same]
  · simpa [same] using lag.member other active

theorem Lag.beginLoad (lag : Lag before)
    (taken : step before (.beginLoad worker) = some after) : Lag after := by
  simp only [step, Option.ite_none_right_eq_some, Option.some.injEq] at taken
  obtain ⟨⟨registered, idle⟩, rfl⟩ := taken
  refine ⟨lag.positive, ?_, lag.stored, ?_, ?_⟩
  · intro other active
    by_cases same : other = worker
    · exact same ▸ registered
    · exact lag.member other (by simpa [same] using active)
  · intro other e loaded
    by_cases same : other = worker
    · subst same
      simp only [Function.update_self, Option.some.injEq] at loaded
      subst loaded
      exact ⟨le_rfl, Nat.le_succ _, fun begun => (lag.stored other begun).1⟩
    · exact lag.inFlight other e (by simpa [same] using loaded)
  · intro e smallest rest sampling
    obtain ⟨current, seen, fresh⟩ := lag.sampled e smallest rest sampling
    refine ⟨current, seen, ?_⟩
    intro other e' loaded first
    by_cases same : other = worker
    · subst same
      simp only [Function.update_self, Option.some.injEq] at loaded
      exact loaded.symm.trans current.symm
    · exact fresh other e' (by simpa [same] using loaded) first

theorem Lag.beginStore (lag : Lag before)
    (taken : step before (.beginStore worker) = some after) : Lag after := by
  simp only [step] at taken
  split at taken
  · cases taken
  · rename_i e loaded
    obtain rfl := Option.some.inj taken
    obtain ⟨below, above, -⟩ := lag.inFlight worker e loaded
    refine ⟨lag.positive, ?_, ?_, ?_, ?_⟩
    · intro other active
      by_cases same : other = worker
      · exact same ▸ lag.member worker (.inr (by simp [loaded]))
      · exact lag.member other (by simpa [same] using active)
    · intro other begun
      by_cases same : other = worker
      · subst same
        simpa using ⟨below, above⟩
      · simpa [same] using lag.stored other (by simpa [same] using begun)
    · intro other e' loaded'
      by_cases same : other = worker
      · simp [same] at loaded'
      · simpa [same] using lag.inFlight other e' (by simpa [same] using loaded')
    · intro e' smallest rest sampling
      obtain ⟨current, seen, fresh⟩ := lag.sampled e' smallest rest sampling
      refine ⟨current, ?_, ?_⟩
      · intro other begun visited
        by_cases same : other = worker
        · subst same
          simp only [Function.update_self]
          by_cases again : before.begun other
          · -- it had stored before: the new epoch is not smaller
            exact le_trans (seen other again visited) ((lag.inFlight other e loaded).2.2 again)
          · exact (fresh other e loaded again) ▸ min_le_right _ _
        · simpa [same] using seen other (by simpa [same] using begun) visited
      · intro other e'' loaded' first
        by_cases same : other = worker
        · simp [same] at loaded'
        · exact fresh other e'' (by simpa [same] using loaded') (by simpa [same] using first)

theorem Lag.incrementLoad (lag : Lag before) (settled : Settled before .incrementLoad)
    (taken : step before .incrementLoad = some after) : Lag after := by
  simp only [step] at taken
  split at taken
  · obtain rfl := Option.some.inj taken
    refine ⟨lag.positive, lag.member, lag.stored, lag.inFlight, ?_⟩
    intro e smallest rest sampling
    simp only [EpochThread.sampling.injEq] at sampling
    obtain ⟨rfl, rfl, rfl⟩ := sampling
    refine ⟨rfl, ?_, ?_⟩
    · intro other _ visited
      exact absurd (List.mem_finRange other) visited
    · intro other e' loaded first
      have member := lag.member other (.inr (Option.ne_none_iff_exists'.mpr ⟨e', loaded⟩))
      exact absurd (settled other member) first
  · cases taken

theorem Lag.sampleWorker (lag : Lag before)
    (taken : step before .sampleWorker = some after) : Lag after := by
  simp only [step] at taken
  split at taken
  · rename_i e smallest visited rest sampling
    obtain rfl := Option.some.inj taken
    obtain ⟨current, seen, fresh⟩ := lag.sampled e smallest (visited :: rest) sampling
    refine ⟨lag.positive, lag.member, lag.stored, lag.inFlight, ?_⟩
    intro e' smallest' rest' sampling'
    simp only [EpochThread.sampling.injEq] at sampling'
    obtain ⟨rfl, rfl, rfl⟩ := sampling'
    refine ⟨current, ?_, fresh⟩
    intro other begun notRest
    have smaller : before.sample smallest visited ≤ smallest := by
      simp only [State.sample]
      split
      · exact min_le_right _ _
      · exact le_rfl
    by_cases same : other = visited
    · subst same
      simp only [State.sample, lag.member other (.inl begun), ↓reduceIte]
      exact le_trans (min_le_left _ _) (min_le_left _ _)
    · have unseen := seen other begun (by simp [same, notRest])
      exact le_trans (min_le_min_right e smaller) unseen
  · cases taken

theorem Lag.incrementAdd (lag : Lag before) (fits : Fits before .incrementAdd)
    (taken : step before .incrementAdd = some after) : Lag after := by
  simp only [step] at taken
  split at taken
  · rename_i e smallest sampling
    obtain rfl := Option.some.inj taken
    obtain ⟨current, seen, fresh⟩ := lag.sampled e smallest [] sampling
    by_cases reached : e = smallest
    · -- every worker has stored the epoch the thread loaded
      have next : (before.globalEpoch + 1) % 2 ^ 32 = before.globalEpoch + 1 :=
        Nat.mod_eq_of_lt fits
      have caughtUp : ∀ worker, before.begun worker →
          before.globalEpoch ≤ before.workerEpoch worker := by
        intro worker begun
        have least := seen worker begun (List.not_mem_nil)
        rw [← reached, min_self, current] at least
        exact least
      simp only [reached, ↓reduceIte, next]
      refine ⟨by simp, lag.member, ?_, ?_, by simp⟩
      · intro worker begun
        have bounds := lag.stored worker begun
        have least := caughtUp worker begun
        exact ⟨by simp only; omega, by simp only; omega⟩
      · intro worker e' loaded
        obtain ⟨below, above, grows⟩ := lag.inFlight worker e' loaded
        have least : before.globalEpoch ≤ e' := by
          by_cases begun : before.begun worker
          · exact le_trans (caughtUp worker begun) (grows begun)
          · exact (fresh worker e' loaded begun).symm ▸ current.ge
        exact ⟨by simp only; omega, by simp only; omega, grows⟩
    · simp only [reached, ↓reduceIte]
      exact ⟨lag.positive, lag.member, lag.stored, lag.inFlight, by simp⟩
  · cases taken

theorem Lag.step {label : Label n} (lag : Lag before) (regular : Regular before label)
    (taken : step before label = some after) : Lag after := by
  cases label with
  | setWorker worker => exact lag.setWorker taken
  | beginLoad worker => exact lag.beginLoad taken
  | beginStore worker => exact lag.beginStore taken
  | incrementLoad => exact lag.incrementLoad regular.1 taken
  | sampleWorker => exact lag.sampleWorker taken
  | incrementAdd => exact lag.incrementAdd regular.2 taken

theorem run_lag {uninitialised : Fin n → Nat} {trace : List (Label n)} {final : State n}
    (run : Run step Regular (start uninitialised) trace final) : Lag final :=
  run.invariant Lag (Lag.start uninitialised) fun _ _ _ => Lag.step

theorem Lag.workerEpoch_le {label : Label n} (lag : Lag before)
    (taken : Epoch.step before label = some after) (begun : before.begun worker) :
    after.begun worker ∧ before.workerEpoch worker ≤ after.workerEpoch worker := by
  cases label with
  | beginStore storing =>
    simp only [Epoch.step] at taken
    split at taken
    · cases taken
    · rename_i e loaded
      obtain rfl := Option.some.inj taken
      by_cases same : worker = storing
      · subst same
        simpa using (lag.inFlight worker e loaded).2.2 begun
      · simpa [same] using begun
  | setWorker _ | beginLoad _ | incrementLoad | sampleWorker | incrementAdd =>
    simp only [Epoch.step] at taken
    split at taken <;> cases taken
    exact ⟨begun, le_rfl⟩

theorem epoch_lag {uninitialised : Fin n → Nat} {earlier later : List (Label n)}
    {middle final : State n}
    (reached : Run step Regular (start uninitialised) earlier middle)
    (run : Run step Regular middle later final) :
    (∀ worker, middle.begun worker →
      middle.workerEpoch worker ≤ final.workerEpoch worker) ∧
    ∀ worker, final.begun worker →
      final.globalEpoch - 1 ≤ final.workerEpoch worker ∧
        final.workerEpoch worker ≤ final.globalEpoch := by
  constructor
  · intro worker begun
    have grown := run.invariant
      (fun state => Lag state ∧ state.begun worker ∧
        middle.workerEpoch worker ≤ state.workerEpoch worker)
      ⟨run_lag reached, begun, le_rfl⟩ ?_
    · exact grown.2.2
    · intro before label after holds regular taken
      obtain ⟨lag, begun, below⟩ := holds
      obtain ⟨begun', further⟩ := lag.workerEpoch_le taken begun
      exact ⟨lag.step regular taken, begun', le_trans below further⟩
  · intro worker begun
    have bounds := (run_lag (reached.trans run)).stored worker begun
    omega

/-- Two workers; the global epoch moves on between the load and the store of the
second worker's next `begin_tx`. -/
theorem lateStore_epoch_lag :
    ∃ middle final : State 2,
      (middle.globalEpoch = 2 ∧ middle.workerEpoch 1 = 1 ∧ middle.loaded 1 = some 1) ∧
      (∀ worker, middle.begun worker →
        middle.workerEpoch worker ≤ final.workerEpoch worker) ∧
      ∀ worker, final.begun worker →
        final.globalEpoch - 1 ≤ final.workerEpoch worker ∧
          final.workerEpoch worker ≤ final.globalEpoch := by
  have first : (execWhen step Regular (start fun _ : Fin 2 => 0)
      [.setWorker 0, .setWorker 1, .beginLoad 0, .beginStore 0, .beginLoad 1, .beginStore 1,
        .beginLoad 1, .incrementLoad, .sampleWorker, .sampleWorker, .incrementAdd]).map
      (fun state => (state.globalEpoch, state.workerEpoch 1, state.loaded 1)) =
        some (2, 1, some 1) := by
    decide +kernel
  obtain ⟨middle, success, seen⟩ := Option.map_eq_some_iff.mp first
  simp only [Prod.mk.injEq] at seen
  have store : ∃ final, step middle (.beginStore 1) = some final := by
    simp [step, seen.2.2]
  obtain ⟨final, taken⟩ := store
  have last : Run step Regular middle [.beginStore 1] final := .single ⟨trivial, trivial⟩ taken
  exact ⟨middle, final, seen, epoch_lag (Run.of_execWhen success) last⟩

structure CaughtUp (state : State 1) (e : Nat) : Prop where
  globalEpoch : state.globalEpoch = e
  workerEpoch : state.workerEpoch 0 = e
  registered : state.registered 0
  loaded : state.loaded 0 = none
  begun : state.begun 0
  asleep : state.thread = .asleep

theorem CaughtUp.settled {state : State 1} {e : Nat} (level : CaughtUp state e) :
    ∀ worker, state.registered worker → state.begun worker := by
  intro worker _
  rw [Subsingleton.elim worker 0]
  exact level.begun

theorem CaughtUp.increment {state : State 1} {e : Nat} (level : CaughtUp state e)
    (word : e < 2 ^ 32) :
    Run step Settled state [.incrementLoad, .sampleWorker, .incrementAdd]
      { state with globalEpoch := (e + 1) % 2 ^ 32 } := by
  have smallest : min e 0xFFFFFFFF = e := by omega
  have load : step state .incrementLoad =
      some { state with thread := .sampling e 0xFFFFFFFF [0] } := by
    simp [step, level.asleep, level.globalEpoch, List.finRange]
  have sample : step { state with thread := .sampling e 0xFFFFFFFF [0] } .sampleWorker =
      some { state with thread := .sampling e e [] } := by
    simp [step, State.sample, level.registered, level.workerEpoch, smallest]
  have add : step { state with thread := .sampling e e [] } .incrementAdd =
      some { state with globalEpoch := (e + 1) % 2 ^ 32 } := by
    simp [step, level.globalEpoch, level.asleep]
  exact .cons level.settled load (.cons trivial sample (.single trivial add))

theorem CaughtUp.next {state : State 1} {e : Nat} (level : CaughtUp state e)
    (fits : e + 1 < 2 ^ 32) :
    ∃ trace final, Run step Settled state trace final ∧ CaughtUp final (e + 1) := by
  have added := level.increment (by omega)
  rw [Nat.mod_eq_of_lt fits] at added
  have load : step { state with globalEpoch := e + 1 } (.beginLoad 0) =
      some { state with
        globalEpoch := e + 1
        loaded := Function.update state.loaded 0 (some (e + 1)) } := by
    simp [step, level.registered, level.loaded]
  have beginTx : Run step Settled { state with globalEpoch := e + 1 }
      [.beginLoad 0, .beginStore 0] _ := .cons trivial load (.single trivial rfl)
  refine ⟨_, _, added.trans beginTx, ?_⟩
  constructor <;> simp [level.registered, level.asleep]

theorem first_caughtUp :
    ∃ trace final, Run step Settled (start fun _ => 0) trace final ∧ CaughtUp final 1 := by
  refine ⟨[.setWorker 0, .beginLoad 0, .beginStore 0], _,
    .cons trivial rfl (.cons trivial rfl (.single trivial rfl)), ?_⟩
  constructor <;> simp [start]

theorem reach_caughtUp (e : Nat) (fits : e + 1 < 2 ^ 32) :
    ∃ trace final, Run step Settled (start fun _ => 0) trace final ∧ CaughtUp final (e + 1) := by
  induction e with
  | zero => exact first_caughtUp
  | succ e ih =>
    obtain ⟨trace, middle, run, level⟩ := ih (by omega)
    obtain ⟨more, final, further, level'⟩ := level.next fits
    exact ⟨trace ++ more, final, run.trans further, level'⟩

/-- After 2^32 epochs the global epoch is 0, below what the worker has stored. -/
theorem wrappedEpoch_below_worker :
    ∃ (trace : List (Label 1)) (final : State 1),
      Run step Settled (start fun _ => 0) trace final ∧ final.begun 0 ∧
        final.globalEpoch < final.workerEpoch 0 := by
  obtain ⟨trace, middle, run, level⟩ := reach_caughtUp (2 ^ 32 - 2) (by norm_num)
  refine ⟨_, _, run.trans (level.increment (by norm_num)), level.begun, ?_⟩
  simp [level.workerEpoch]

end TpccRunner.Epoch
