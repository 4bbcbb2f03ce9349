import TpccRunner.Common.TimeStampManager

/-!
# Timestamps are unique

Only a worker itself writes its counter, and it never makes the counter smaller: `fetch_add`
adds at least one, and `synchronize` stores only a larger counter than the one it has loaded
after its own `fetch_add`.  The lowest byte of a timestamp tells the workers apart.
-/

set_option autoImplicit false

namespace TpccRunner.TimeStamp

open Lib

variable {n : Nat}

/-- The manager with the timestamps that its workers were returned, in order. -/
structure Issuer (n : Nat) where
  manager : State n
  returned : List (Fin n × Nat)

def Issuer.start : Issuer n := ⟨TimeStamp.start, []⟩

inductive IssueLabel (n : Nat) where
  | manage (label : Label n)
  /-- The return from `get_new_ts` or `get_abort_boosted_ts`. -/
  | return (worker : Fin n)

def Issuer.step (synchronizeCnt : Nat) (issuer : Issuer n) : IssueLabel n → Option (Issuer n)
  | .manage label =>
    (TimeStamp.step synchronizeCnt issuer.manager label).map fun manager =>
      { issuer with manager }
  | .return worker =>
    let record := issuer.manager.worker worker
    record.ts.map fun ts =>
      { manager := issuer.manager.setWorker worker { record with ts := none }
        returned := issuer.returned ++ [(worker, ts)] }

def Issuer.CountersFit (issuer : Issuer n) (_label : IssueLabel n) : Prop :=
  ∀ worker, (issuer.manager.worker worker).txnCnt < 2 ^ 56

instance (issuer : Issuer n) (label : IssueLabel n) : Decidable (issuer.CountersFit label) :=
  inferInstanceAs (Decidable (∀ _, _))

/-! ## What a step does to a worker -/

inductive Worker.Move (synchronizeCnt : Nat) (worker : Fin n) (record : Worker) : Worker → Prop
  | quiet {after : Worker} (txnCnt : after.txnCnt = record.txnCnt)
      (stage : after.stage = record.stage) (ts : after.ts = record.ts) :
      Move synchronizeCnt worker record after
  | draw {abortCnt increment : Nat} (idle : record.stage = .idle) (free : record.ts = none)
      (positive : 1 ≤ increment) (small : increment ≤ 4) :
      Move synchronizeCnt worker record
        ({ record with abortCnt }.fetchAdd synchronizeCnt increment worker)
  | finish {cnt nextWorkerOffset : Nat} (stage : record.stage = .synchronizing cnt) :
      Move synchronizeCnt worker record ({ record with nextWorkerOffset }.finishTs cnt worker)
  | await {cnt next nextWorkerOffset : Nat} (stage : record.stage = .synchronizing cnt)
      (behind : record.txnCnt < next) :
      Move synchronizeCnt worker record
        { record with nextWorkerOffset, stage := .storing cnt next }
  | catchUp {cnt next : Nat} (stage : record.stage = .storing cnt next) :
      Move synchronizeCnt worker record ({ record with txnCnt := next }.finishTs cnt worker)

section Moves
variable {synchronizeCnt : Nat} {state after : State n}

theorem move_update {worker : Fin n} {record : Worker}
    (changed : after.worker = Function.update state.worker worker record)
    (move : Worker.Move synchronizeCnt worker (state.worker worker) record) (other : Fin n) :
    Worker.Move synchronizeCnt other (state.worker other) (after.worker other) := by
  rw [changed]
  by_cases same : other = worker
  · subst same
    rw [Function.update_self]
    exact move
  · rw [Function.update_of_ne same]
    exact .quiet rfl rfl rfl

theorem move_syncLoad {worker : Fin n} {cnt : Nat}
    (stage : (state.worker worker).stage = .synchronizing cnt) (other : Fin n) :
    Worker.Move synchronizeCnt other (state.worker other)
      ((state.syncLoad worker cnt).worker other) := by
  simp only [State.syncLoad]
  split
  · exact move_update rfl (.finish stage) other
  · rename_i ahead
    push Not at ahead
    exact move_update rfl (.await stage ahead.2.2) other

theorem move_gcStore (stored : state.gcStore = some after) (other : Fin n) :
    Worker.Move synchronizeCnt other (state.worker other) (after.worker other) := by
  simp only [State.gcStore] at stored
  split at stored
  · split at stored <;> cases stored
    · exact move_update rfl (by exact .quiet rfl rfl rfl) other
    · exact .quiet rfl rfl rfl
  · cases stored
    exact move_update rfl (by exact .quiet rfl rfl rfl) other
  · cases stored
    exact .quiet rfl rfl rfl
  · cases stored

theorem step_moves {label : Label n} (taken : step synchronizeCnt state label = some after)
    (other : Fin n) :
    Worker.Move synchronizeCnt other (state.worker other) (after.worker other) := by
  cases label with
  | setWorker worker =>
    cases taken
    exact move_update rfl (by exact .quiet rfl rfl rfl) other
  | newTs worker =>
    simp only [step, Option.ite_none_right_eq_some] at taken
    obtain ⟨⟨-, idle, free⟩, taken⟩ := taken
    cases taken
    exact move_update rfl (.draw idle free le_rfl (by decide)) other
  | abortBoostedTs worker =>
    simp only [step, Option.ite_none_right_eq_some] at taken
    obtain ⟨⟨-, idle, free⟩, taken⟩ := taken
    cases taken
    exact move_update rfl (.draw idle free Nat.one_le_two_pow
      (Nat.pow_le_pow_right (by decide) (min_le_right _ 2))) other
  | syncLoad worker =>
    simp only [step] at taken
    split at taken <;> cases taken
    rename_i stage
    exact move_syncLoad stage other
  | syncStore worker =>
    simp only [step] at taken
    split at taken <;> cases taken
    rename_i stage
    exact move_update rfl (.catchUp stage) other
  | loadSmallest worker =>
    simp only [step, Option.ite_none_right_eq_some] at taken
    obtain ⟨-, taken⟩ := taken
    cases taken
    exact move_update rfl (by exact .quiet rfl rfl rfl) other
  | loadLargest worker =>
    simp only [step, Option.ite_none_right_eq_some] at taken
    obtain ⟨-, taken⟩ := taken
    cases taken
    exact move_update rfl (by exact .quiet rfl rfl rfl) other
  | gcStart =>
    simp only [step] at taken
    split at taken <;> cases taken
    exact .quiet rfl rfl rfl
  | gcSample =>
    simp only [step] at taken
    split at taken <;> cases taken <;> exact .quiet rfl rfl rfl
  | gcStore => exact move_gcStore taken other

end Moves

/-! ## The order of a worker's timestamps -/

theorem getTs_eq {cnt : Nat} (fits : cnt < 2 ^ 56) (few : n ≤ 255) (worker : Fin n) :
    getTs cnt worker = 2 ^ 8 * cnt + worker.val := by
  have small : worker.val < 2 ^ 8 := by omega
  rw [getTs, Nat.shiftLeft_eq, Nat.mul_comm cnt, ← Nat.two_pow_add_eq_or_of_lt small]
  omega

/-- The counter of the timestamp that the worker is about to return, or will draw next. -/
def Worker.nextCnt (record : Worker) : Nat :=
  match record.stage, record.ts with
  | .synchronizing cnt, _ | .storing cnt _, _ => cnt
  | .idle, some ts => ts / 2 ^ 8
  | .idle, none => record.txnCnt

structure Worker.Orderly (worker : Fin n) (record : Worker) (returned : Nat → Prop) : Prop where
  pending : ∀ ts, record.ts = some ts →
    record.stage = .idle ∧ ts % 2 ^ 8 = worker.val ∧ ts / 2 ^ 8 < record.txnCnt
  synchronizing : ∀ cnt, record.stage = .synchronizing cnt →
    cnt < record.txnCnt ∧ cnt < 2 ^ 56
  storing : ∀ cnt next, record.stage = .storing cnt next → cnt < next ∧ cnt < 2 ^ 56
  returned : ∀ ts, returned ts → ts % 2 ^ 8 = worker.val ∧ ts / 2 ^ 8 < record.nextCnt

section Orderly
variable {worker : Fin n} {record : Worker} {returned : Nat → Prop}

theorem Worker.Orderly.finished (few : n ≤ 255) {cnt : Nat} (fits : cnt < 2 ^ 56)
    (stage : record.stage = .idle) (ts : record.ts = some (getTs cnt worker))
    (below : cnt < record.txnCnt)
    (older : ∀ ts, returned ts → ts % 2 ^ 8 = worker.val ∧ ts / 2 ^ 8 < cnt) :
    record.Orderly worker returned := by
  have value := getTs_eq fits few worker
  have own : getTs cnt worker % 2 ^ 8 = worker.val ∧ getTs cnt worker / 2 ^ 8 = cnt := by omega
  refine ⟨fun drawn same => ?_, fun _ busy => ?_, fun _ _ busy => ?_, fun old member => ?_⟩
  · cases ts.symm.trans same
    exact ⟨stage, own.1, own.2.symm ▸ below⟩
  · cases stage.symm.trans busy
  · cases stage.symm.trans busy
  · obtain ⟨same, less⟩ := older old member
    refine ⟨same, ?_⟩
    simp only [Worker.nextCnt, stage, ts, own.2]
    exact less

theorem Worker.Orderly.fetchAdd {synchronizeCnt abortCnt increment : Nat} (few : n ≤ 255)
    (orderly : record.Orderly worker returned) (fits : record.txnCnt < 2 ^ 56)
    (idle : record.stage = .idle) (free : record.ts = none) (positive : 1 ≤ increment)
    (small : increment ≤ 4) :
    ({ record with abortCnt }.fetchAdd synchronizeCnt increment worker).Orderly worker
      returned := by
  have older : ∀ ts, returned ts → ts % 2 ^ 8 = worker.val ∧ ts / 2 ^ 8 < record.txnCnt := by
    simpa only [Worker.nextCnt, idle, free] using orderly.returned
  have above : record.txnCnt < (record.txnCnt + increment) % 2 ^ 64 := by omega
  simp only [Worker.fetchAdd]
  split
  · refine ⟨fun ts drawn => ?_, fun cnt busy => ?_, fun _ _ busy => ?_, older⟩
    · cases free.symm.trans drawn
    · cases busy
      exact ⟨above, fits⟩
    · cases busy
  · exact .finished few fits idle rfl above older

theorem Worker.Orderly.move {synchronizeCnt : Nat} {after : Worker} (few : n ≤ 255)
    (orderly : record.Orderly worker returned) (fits : record.txnCnt < 2 ^ 56)
    (move : Worker.Move synchronizeCnt worker record after) : after.Orderly worker returned := by
  cases move with
  | quiet txnCnt stage ts =>
    obtain ⟨pending, synchronizing, storing, older⟩ := orderly
    exact ⟨by rwa [ts, stage, txnCnt], by rwa [stage, txnCnt], by rwa [stage],
      by rwa [Worker.nextCnt, stage, ts, txnCnt]⟩
  | draw idle free positive small => exact orderly.fetchAdd few fits idle free positive small
  | @finish cnt _ stage =>
    obtain ⟨below, small⟩ := orderly.synchronizing cnt stage
    refine .finished few small rfl rfl below ?_
    simpa only [Worker.nextCnt, stage] using orderly.returned
  | @await cnt next _ stage behind =>
    obtain ⟨below, small⟩ := orderly.synchronizing cnt stage
    refine ⟨fun ts drawn => ?_, fun _ busy => ?_, fun _ _ busy => ?_, ?_⟩
    · cases (orderly.pending ts drawn).1.symm.trans stage
    · cases busy
    · cases busy
      exact ⟨below.trans behind, small⟩
    · simpa only [Worker.nextCnt, stage] using orderly.returned
  | @catchUp cnt next stage =>
    obtain ⟨below, small⟩ := orderly.storing cnt next stage
    refine .finished few small rfl rfl below ?_
    simpa only [Worker.nextCnt, stage] using orderly.returned

end Orderly

structure Issuer.Ordered (issuer : Issuer n) : Prop where
  worker : ∀ worker, (issuer.manager.worker worker).Orderly worker
    fun ts => (worker, ts) ∈ issuer.returned
  increasing : issuer.returned.Pairwise fun first second => first.1 = second.1 → first.2 < second.2

theorem Issuer.Ordered.start : (Issuer.start : Issuer n).Ordered where
  worker _ := ⟨nofun, nofun, nofun, nofun⟩
  increasing := List.Pairwise.nil

theorem Issuer.Ordered.return {issuer : Issuer n} (ordered : issuer.Ordered) {worker : Fin n}
    {ts : Nat} (drawn : (issuer.manager.worker worker).ts = some ts) :
    Issuer.Ordered
      { manager := issuer.manager.setWorker worker
          { issuer.manager.worker worker with ts := none }
        returned := issuer.returned ++ [(worker, ts)] } := by
  obtain ⟨pending, synchronizing, storing, returned⟩ := ordered.worker worker
  obtain ⟨idle, own, below⟩ := pending ts drawn
  have older : ∀ old, (worker, old) ∈ issuer.returned →
      old % 2 ^ 8 = worker.val ∧ old / 2 ^ 8 < ts / 2 ^ 8 := by
    simpa only [Worker.nextCnt, idle, drawn] using returned
  constructor
  · intro other
    by_cases same : other = worker
    · subst same
      simp only [State.setWorker, Function.update_self]
      refine ⟨nofun, synchronizing, storing, fun old member => ?_⟩
      simp only [Worker.nextCnt, idle]
      obtain member | last := List.mem_append.mp member
      · exact ⟨(older old member).1, (older old member).2.trans below⟩
      · cases List.mem_singleton.mp last
        exact ⟨own, below⟩
    · have kept := ordered.worker other
      simp only [State.setWorker, Function.update_of_ne same]
      refine ⟨kept.pending, kept.synchronizing, kept.storing, fun old member => ?_⟩
      obtain member | last := List.mem_append.mp member
      · exact kept.returned old member
      · cases List.mem_singleton.mp last
        exact absurd rfl same
  · refine List.pairwise_append.mpr ⟨ordered.increasing, List.pairwise_singleton _ _, ?_⟩
    rintro ⟨first, old⟩ member second last same
    cases List.mem_singleton.mp last
    cases same
    have less := (older old member).2
    change old < ts
    omega

theorem Issuer.Ordered.step {synchronizeCnt : Nat} (few : n ≤ 255) {before after : Issuer n}
    {label : IssueLabel n} (ordered : before.Ordered) (fits : before.CountersFit label)
    (taken : before.step synchronizeCnt label = some after) : after.Ordered := by
  cases label with
  | manage label =>
    obtain ⟨manager, moved, rfl⟩ := Option.map_eq_some_iff.mp taken
    exact ⟨fun worker => (ordered.worker worker).move few (fits worker) (step_moves moved worker),
      ordered.increasing⟩
  | «return» worker =>
    obtain ⟨ts, drawn, rfl⟩ := Option.map_eq_some_iff.mp taken
    exact ordered.return drawn

/-- In every run in which no counter reaches 2 ^ 56, the timestamps are distinct and those of
one worker increase. -/
theorem timestamps_unique {n : Nat} (few : n ≤ 255) {synchronizeCnt : Nat}
    {trace : List (IssueLabel n)} {final : Issuer n}
    (run : Run (Issuer.step synchronizeCnt) Issuer.CountersFit Issuer.start trace final) :
    (final.returned.map Prod.snd).Nodup ∧
      ∀ worker, ((final.returned.filter (·.1 = worker)).map Prod.snd).Pairwise (· < ·) := by
  have ordered : final.Ordered := run.invariant Issuer.Ordered .start
    fun before label after ordered fits taken => ordered.step few fits taken
  constructor
  · rw [List.nodup_iff_pairwise_ne, List.pairwise_map]
    refine ordered.increasing.imp_of_mem fun {first second} member member' less same => ?_
    have own := ((ordered.worker first.1).returned first.2 member).1
    have own' := ((ordered.worker second.1).returned second.2 member').1
    have sameWorker : first.1 = second.1 := Fin.ext (by rw [← own, ← own', same])
    exact (less sameWorker).ne same
  · intro worker
    rw [List.pairwise_map]
    refine (ordered.increasing.filter _).imp_of_mem fun {first second} member member' less => ?_
    have one : first.1 = worker := by simpa using (List.mem_filter.mp member).2
    have two : second.1 = worker := by simpa using (List.mem_filter.mp member').2
    exact less (one.trans two.symm)

/-- Worker 0 draws three timestamps, the last one boosted; worker 1 then catches up with it. -/
theorem timestamps_unique_two : ∃ final : Issuer 2,
    (final.returned = [(0, 256), (0, 512), (1, 257), (0, 768), (1, 1281)] ∧
      (final.returned.map Prod.snd).Nodup ∧
      ∀ worker, ((final.returned.filter (·.1 = worker)).map Prod.snd).Pairwise (· < ·)) := by
  have reached : (execWhen (Issuer.step 1) Issuer.CountersFit (Issuer.start : Issuer 2)
      [.manage (.setWorker 0), .manage (.setWorker 1),
        .manage (.newTs 0), .manage (.syncLoad 0), .return 0,
        .manage (.newTs 0), .manage (.syncLoad 0), .return 0,
        .manage (.newTs 1), .manage .gcStart, .manage (.abortBoostedTs 0),
        .manage (.syncLoad 1), .manage (.syncLoad 0), .manage (.syncStore 1),
        .return 1, .return 0, .manage (.newTs 1), .manage (.syncLoad 1),
        .return 1]).map (·.returned) =
      some [(0, 256), (0, 512), (1, 257), (0, 768), (1, 1281)] := by
    decide +kernel
  obtain ⟨final, executed, result⟩ := Option.map_eq_some_iff.mp reached
  exact ⟨final, result, timestamps_unique (by decide) (Run.of_execWhen executed)⟩

end TpccRunner.TimeStamp
