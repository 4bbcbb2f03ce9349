import TpccRunner.Common.TimeStampGarbage
import TpccRunner.Mvto.Preservation

/-!
# Garbage collection of versions

MVTO transactions whose `start_ts` and `smallest_ts` come from the timestamp manager.
`gc_version_chain` must not deallocate a version that an active transaction has selected
or would select.  It does not when no version of the chain was written between the
timestamp of an active transaction and the collecting one's `smallest_ts`; nothing in
the timestamp manager ensures that, and right after the start it fails.
-/

set_option autoImplicit false

namespace TpccRunner.Mvto

open Lib

variable {n : Nat} {K R : Type}

/-- From `begin_tx` or `set_new_ts` until `precommit` or `abort` has returned. -/
def Tx.active (tx : Tx K R) : Bool :=
  match tx.phase with
  | .idle | .aborted | .committed => false
  | _ => true

/-- The version is one that the worker's transaction has selected, or would select. -/
def State.Needs (state : State n K R) (worker : Fin n) (val id : Nat) : Prop :=
  (state.tx worker).active = true ∧
    ((val, id) ∈ (state.tx worker).chosen ∨
      ∃ version, getCorrectVersion (state.tx worker).startTs (state.value val).chain =
        some version ∧ version.id = id)

def State.collects (state : State n K R) : Label n K R → Option (Fin n × Nat)
  | .gcAccess worker =>
    match (state.tx worker).phase with
    | .selected access => some (worker, access.val)
    | _ => none
  | .gcApply worker =>
    match (state.tx worker).phase with
    | .applied entry _ => some (worker, entry.2.val)
    | _ => none
  | _ => none

def Tx.selectedFrom (tx : Tx K R) (val : Nat) : Bool := tx.chosen.any fun choice => choice.1 = val

/-- No version of the chain was written at or after the timestamp of an active
transaction and not after the caller's `smallest_ts`.  The version that the caller itself
has pushed counts only if it stands over one that the caller had selected. -/
def State.Separated (state : State n K R) (worker : Fin n) (val : Nat) : Prop :=
  ∀ other, (state.tx other).active = true → ∀ version ∈ (state.value val).chain,
    (state.tx other).startTs ≤ version.writeTs →
      (other = worker → version.writeTs = (state.tx worker).startTs →
        (state.tx worker).selectedFrom val = true) →
        (state.tx worker).smallestTs < version.writeTs

def State.Timely (state : State n K R) (label : Label n K R) : Prop :=
  ∀ collection ∈ state.collects label, state.Separated collection.1 collection.2

instance (state : State n K R) (worker : Fin n) (val : Nat) :
    Decidable (state.Separated worker val) :=
  inferInstanceAs (Decidable (∀ other, (state.tx other).active = true →
    ∀ version ∈ (state.value val).chain, (state.tx other).startTs ≤ version.writeTs →
      (other = worker → version.writeTs = (state.tx worker).startTs →
        (state.tx worker).selectedFrom val = true) →
        (state.tx worker).smallestTs < version.writeTs))

instance (state : State n K R) (label : Label n K R) : Decidable (state.Timely label) :=
  inferInstanceAs (Decidable (∀ collection ∈ state.collects label,
    state.Separated collection.1 collection.2))

def State.Kept (state : State n K R) : Prop :=
  ∀ worker, (state.tx worker).active = true →
    ∀ val id, (val, id) ∈ (state.tx worker).chosen → state.freed val id = false

section Steps
variable {before after : State n K R} {worker : Fin n} {val id : Nat}

/-- What `gc_version_chain` deallocates, nobody needs. -/
theorem State.Needs.gc (kept : before.Kept) (inv : Inv before) {other : Fin n}
    (separated : before.Separated worker val) {val' : Nat} (needed : before.Needs other val' id) :
    (before.gc worker val).freed val' id = false := by
  obtain ⟨active, needed⟩ := needed
  have old : before.freed val' id = false := by
    obtain chosen | ⟨version, selected, rfl⟩ := needed
    · exact kept other active val' id chosen
    · obtain ⟨-, newer, older, chain, -⟩ := getCorrectVersion_split selected
      exact (inv.value val').kept version (by rw [chain]; simp)
  simp only [State.gc, old, Bool.false_or, Bool.and_eq_false_imp, decide_eq_true_eq,
    List.any_eq_false]
  rintro rfl version freed same
  -- something not above `smallest_ts` is newer, but not older than the transaction
  obtain ⟨newer, older, keeps, chain, member, atMost⟩ := gcFreed_behind freed
  have late : (before.tx other).startTs ≤ keeps.writeTs ∧
      (keeps.writeTs = (before.tx other).startTs → (before.tx other).selectedFrom val' = true) := by
    obtain chosen | ⟨selected, found, rfl⟩ := needed
    · exact ⟨(inv.tx other).newest val' id chosen newer version older chain same keeps member,
        fun _ => List.any_eq_true.mpr ⟨_, chosen, by simp⟩⟩
    · have after :=
        Newest.of_select (inv.value val').ids found newer version older chain same keeps member
      exact ⟨by omega, by omega⟩
  have above := separated other active keeps (by rw [chain]; simp [member]) late.1
    fun isCaller => isCaller ▸ late.2
  omega

variable [DecidableEq K] {label : Label n K R}

theorem freed_step (taken : step before label = some after) :
    after.freed = before.freed ∨
      ∃ worker val, before.collects label = some (worker, val) ∧
        after.freed = (before.gc worker val).freed := by
  cases Transition.of_step taken with
  | gcAccess phase | gcApply phase => exact .inr ⟨_, _, by simp [State.collects, phase], rfl⟩
  | @miss _ op => cases op <;> exact .inl rfl
  | access =>
    unfold State.access
    dsimp only
    split
    · exact .inl rfl
    · split <;> exact .inl rfl
  | finishAccess =>
    unfold State.finishAccess
    dsimp only
    split <;> exact .inl rfl
  | lockNext =>
    unfold State.lockNext State.insertNew
    dsimp only
    split <;> (try split) <;> exact .inl rfl
  | applyNext =>
    unfold State.push
    split <;> exact .inl rfl
  | removeNext =>
    unfold State.retract
    split <;> exact .inl rfl
  | _ => exact .inl rfl

def Selectable (before after : State n K R) (worker : Fin n) (val id : Nat) : Prop :=
  ((before.tx worker).active = true ∧ (val, id) ∈ (before.tx worker).chosen) ∨
    after.freed = before.freed ∧ ∃ version ∈ (before.value val).chain, version.id = id

omit [DecidableEq K] in
theorem selectable_of_update {tx : Tx K R} (txs : after.tx = Function.update before.tx worker tx)
    (moved : tx.active = true → ∀ val id, (val, id) ∈ tx.chosen →
      Selectable before after worker val id)
    (other : Fin n) (active : (after.tx other).active = true)
    (chosen : (val, id) ∈ (after.tx other).chosen) : Selectable before after other val id := by
  by_cases same : other = worker
  · subst same
    rw [txs, Function.update_self] at active chosen
    exact moved active val id chosen
  · rw [txs, Function.update_of_ne same] at active chosen
    exact .inl ⟨active, chosen⟩

omit [DecidableEq K] in
theorem selectable_of_same {tx : Tx K R} (txs : after.tx = Function.update before.tx worker tx)
    (still : tx.active = true → (before.tx worker).active = true)
    (same : tx.chosen = (before.tx worker).chosen)
    (other : Fin n) (active : (after.tx other).active = true)
    (chosen : (val, id) ∈ (after.tx other).chosen) : Selectable before after other val id := by
  refine selectable_of_update txs (fun active val id chosen => ?_) other active chosen
  exact .inl ⟨still active, same ▸ chosen⟩

omit [DecidableEq K] in
theorem selectable_of_phase
    (txs : ∃ phase, after.tx = Function.update before.tx worker { before.tx worker with phase })
    (still : (before.tx worker).active = true)
    (other : Fin n) (active : (after.tx other).active = true)
    (chosen : (val, id) ∈ (after.tx other).chosen) : Selectable before after other val id := by
  obtain ⟨phase, txs⟩ := txs
  exact selectable_of_same txs (fun _ => still) rfl other active chosen

theorem chosen_step (taken : step before label = some after) (other : Fin n)
    (active : (after.tx other).active = true) (chosen : (val, id) ∈ (after.tx other).chosen) :
    Selectable before after other val id := by
  cases Transition.of_step taken with
  | starts => exact selectable_of_update rfl (by simp [Tx.new]) other active chosen
  | abort => exact selectable_of_update rfl (by simp) other active chosen
  | @miss _ op _ _ running =>
    cases op <;>
      exact selectable_of_same rfl (by simp [Tx.active, running]) (by rfl) other active chosen
  | @access worker op key val' running =>
    generalize accessed : before.access worker op key val' = next at *
    unfold State.access at accessed
    dsimp only at accessed
    split at accessed
    · subst accessed
      exact selectable_of_same rfl (by simp [Tx.active, running]) (by rfl) other active chosen
    · split at accessed
      · subst accessed
        exact selectable_of_same rfl (by simp [Tx.active, running]) (by rfl) other active chosen
      · subst accessed
        refine selectable_of_update rfl (fun _ val id chosen => ?_) other active chosen
        obtain new | old := List.mem_append.mp chosen
        · simp only [Option.mem_toList, Option.map_eq_some_iff, Prod.mk.injEq] at new
          obtain ⟨version, selected, rfl, rfl⟩ := new
          obtain ⟨-, newer, older, chain, -⟩ := getCorrectVersion_split selected
          exact .inr ⟨rfl, version, by rw [chain]; simp, rfl⟩
        · exact .inl ⟨by simp [Tx.active, running], old⟩
  | @finishAccess worker access fresh collected =>
    generalize finished : before.finishAccess worker access fresh = next at *
    unfold State.finishAccess at finished
    dsimp only at finished
    split at finished <;> subst finished <;>
      exact selectable_of_same rfl (by simp [Tx.active, collected]) (by rfl) other active chosen
  | lockNext locking =>
    exact selectable_of_phase (lockNext_tx _ _ _) (by simp [Tx.active, locking]) other active
      chosen
  | applyNext applying =>
    exact selectable_of_phase ⟨_, by simp only [State.setPhase, State.setTx, push_tx]; rfl⟩
      (by simp [Tx.active, applying]) other active chosen
  | removeNext removing =>
    exact selectable_of_phase ⟨_, by simp only [State.setPhase, State.setTx, retract_tx]; rfl⟩
      (by simp [Tx.active, removing]) other active chosen
  | own phase | store phase | gcAccess phase | precommit phase | commit phase | gcApply phase
  | removeEnd phase | unlockNext phase | unlockEnd phase =>
    exact selectable_of_same rfl (by simp [Tx.active, phase]) (by rfl) other active chosen
  | applyEnd | finish =>
    exact selectable_of_same rfl (by simp [Tx.active]) (by rfl) other active chosen

theorem State.Kept.step (kept : before.Kept) (inv : Inv before) (timely : before.Timely label)
    (taken : step before label = some after) :
    (∀ other val id, before.Needs other val id → after.freed val id = false) ∧ after.Kept := by
  have needed : ∀ other val id, before.Needs other val id → after.freed val id = false := by
    intro other val id needed
    obtain same | ⟨worker, val', collects, same⟩ := freed_step taken
    · rw [same]
      obtain ⟨active, chosen | ⟨version, selected, rfl⟩⟩ := needed
      · exact kept other active val id chosen
      · obtain ⟨-, newer, older, chain, -⟩ := getCorrectVersion_split selected
        exact (inv.value val).kept version (by rw [chain]; simp)
    · rw [same]
      exact needed.gc kept inv (timely _ collects)
  refine ⟨needed, fun other active val id chosen => ?_⟩
  obtain ⟨active', chosen'⟩ | ⟨same, version, member, rfl⟩ := chosen_step taken other active chosen
  · exact needed other val id ⟨active', .inl chosen'⟩
  · rw [same]
    exact (inv.value val).kept version member

end Steps

structure Managed (n : Nat) (K R : Type) where
  manager : TimeStamp.State n
  mvto : State n K R

def Managed.start (loaded : Loaded K) (records : Nat → R) : Managed n K R where
  manager := TimeStamp.start
  mvto := Mvto.start loaded records

inductive ManagedLabel (n : Nat) (K R : Type) where
  | manage (label : TimeStamp.Label n)
  | beginTx (worker : Fin n)
  | setNewTs (worker : Fin n)
  | act (label : Label n K R)

def Label.starts : Label n K R → Bool
  | .beginTx _ _ _ | .setNewTs _ _ _ => true
  | _ => false

def Managed.step [DecidableEq K] (synchronizeCnt : Nat) (managed : Managed n K R) :
    ManagedLabel n K R → Option (Managed n K R)
  | .manage label =>
    if label.mayDraw (fun worker => (managed.mvto.tx worker).phase matches .idle)
        (fun worker => (managed.mvto.tx worker).phase matches .aborted) then
      (TimeStamp.step synchronizeCnt managed.manager label).map fun manager =>
        { managed with manager }
    else none
  | .beginTx worker =>
    (managed.manager.worker worker).arguments.bind fun arguments =>
      (Mvto.step managed.mvto (.beginTx worker arguments.1 arguments.2.1)).map fun mvto =>
        ⟨managed.manager.takeArguments worker, mvto⟩
  | .setNewTs worker =>
    (managed.manager.worker worker).arguments.bind fun arguments =>
      (Mvto.step managed.mvto (.setNewTs worker arguments.1 arguments.2.1)).map fun mvto =>
        ⟨managed.manager.takeArguments worker, mvto⟩
  | .act label =>
    if label.starts then none
    else (Mvto.step managed.mvto label).map fun mvto => { managed with mvto }

def Managed.Timely (managed : Managed n K R) : ManagedLabel n K R → Prop
  | .act label => managed.mvto.Timely label
  | _ => True

instance (managed : Managed n K R) (label : ManagedLabel n K R) :
    Decidable (managed.Timely label) :=
  match label with
  | .act label => inferInstanceAs (Decidable (managed.mvto.Timely label))
  | .manage _ | .beginTx _ | .setNewTs _ => .isTrue trivial

section Runs
variable [DecidableEq K] {synchronizeCnt : Nat} {before after : Managed n K R}
  {label : ManagedLabel n K R}

theorem managed_step (taken : before.step synchronizeCnt label = some after)
    (timely : before.Timely label) :
    after.mvto = before.mvto ∨ ∃ label', before.mvto.Timely label' ∧
      step before.mvto label' = some after.mvto := by
  cases label with
  | manage label =>
    simp only [Managed.step, Option.ite_none_right_eq_some, Option.map_eq_some_iff] at taken
    obtain ⟨-, manager, -, rfl⟩ := taken
    exact .inl rfl
  | beginTx worker | setNewTs worker =>
    simp only [Managed.step, Option.bind_eq_some_iff, Option.map_eq_some_iff] at taken
    obtain ⟨arguments, -, mvto, taken, rfl⟩ := taken
    exact .inr ⟨_, by simp [State.Timely, State.collects], taken⟩
  | act label =>
    simp only [Managed.step, Option.ite_none_left_eq_some, Option.map_eq_some_iff] at taken
    obtain ⟨-, mvto, taken, rfl⟩ := taken
    exact .inr ⟨label, timely, taken⟩

theorem managed_safe (inv : Inv before.mvto ∧ before.mvto.Kept) (timely : before.Timely label)
    (taken : before.step synchronizeCnt label = some after) :
    (∀ other val id, before.mvto.Needs other val id → after.mvto.freed val id = false) ∧
      Inv after.mvto ∧ after.mvto.Kept := by
  obtain ⟨inv, kept⟩ := inv
  obtain same | ⟨label', timely', taken'⟩ := managed_step taken timely
  · rw [same]
    refine ⟨fun other val id needed => ?_, inv, kept⟩
    obtain ⟨active, chosen | ⟨version, selected, rfl⟩⟩ := needed
    · exact kept other active val id chosen
    · obtain ⟨-, newer, older, chain, -⟩ := getCorrectVersion_split selected
      exact (inv.value val).kept version (by rw [chain]; simp)
  · obtain ⟨needed, kept'⟩ := kept.step inv timely' taken'
    exact ⟨needed, inv.step taken', kept'⟩

end Runs

theorem versionGc_safe [DecidableEq K] (synchronizeCnt : Nat) (loaded : Loaded K)
    (records : Nat → R) (trace : List (ManagedLabel n K R)) (before after : Managed n K R)
    (label : ManagedLabel n K R)
    (run : Run (Managed.step synchronizeCnt) Managed.Timely (Managed.start loaded records) trace
      before)
    (timely : before.Timely label) (taken : before.step synchronizeCnt label = some after)
    (worker : Fin n) (val id : Nat) (needed : before.mvto.Needs worker val id) :
    after.mvto.freed val id = false := by
  have inv := run.invariant (fun managed => Inv managed.mvto ∧ managed.mvto.Kept)
    ⟨Inv.start loaded records, by simp [State.Kept, Managed.start, Mvto.start, Tx.active]⟩
    (fun _ _ _ inv timely taken => (managed_safe inv timely taken).2)
  exact (managed_safe inv timely taken).1 worker val id needed

section Runs

def beginTx (worker : Fin 2) : List (ManagedLabel 2 Unit Nat) :=
  (TimeStamp.drawArguments worker).map .manage ++ [.beginTx worker]

def operate (worker : Fin 2) (op : Operation) : List (ManagedLabel 2 Unit Nat) :=
  [.act (.access worker op ()), .act (.gcAccess worker), .act (.finishAccess worker 0)]

/-- Right after the start, the writer with timestamp 257 commits and deallocates the
version that the transaction with timestamp 256 has read. -/
theorem firstUpdate_frees_selected :
    ∃ before after : Managed 2 Unit Nat,
      Run (Managed.step 1) always (Managed.start Loaded.single fun _ => 0)
        ([.manage (.setWorker 0), .manage (.setWorker 1)] ++ beginTx 0 ++ beginTx 1 ++
          operate 0 .read ++ operate 1 .update ++
          [.act (.precommit 1 [()]), .act (.lockNext 1 true), .act (.commit 1),
            .act (.applyNext 1)]) before ∧
      before.step 1 (.act (.gcApply 1)) = some after ∧
      before.mvto.Needs 0 0 0 ∧ after.mvto.freed 0 0 = true := by
  have reached : (exec (Managed.step 1)
      (Managed.start Loaded.single fun _ => 0 : Managed 2 Unit Nat)
      ([.manage (.setWorker 0), .manage (.setWorker 1)] ++ beginTx 0 ++ beginTx 1 ++
        operate 0 .read ++ operate 1 .update ++
        [.act (.precommit 1 [()]), .act (.lockNext 1 true), .act (.commit 1),
          .act (.applyNext 1)])).map
      (fun before => ((before.mvto.tx 0).active, (before.mvto.tx 0).chosen,
        (before.step 1 (.act (.gcApply 1))).map fun after => after.mvto.freed 0 0)) =
        some (true, [(0, 0)], some true) := by
    decide +kernel
  obtain ⟨before, success, seen⟩ := Option.map_eq_some_iff.mp reached
  obtain ⟨active, seen⟩ := Prod.mk.inj seen
  obtain ⟨chosen, seen⟩ := Prod.mk.inj seen
  obtain ⟨after, taken, freed⟩ := Option.map_eq_some_iff.mp seen
  exact ⟨before, after, Run.of_exec success, taken, ⟨active, .inl (by simp [chosen])⟩, freed⟩

/-- An update, with `set_gc_ts` before the next transaction of the worker: its read
deallocates the loaded version and keeps the one it selects. -/
theorem secondUpdate_keeps_selected :
    ∃ before after : Managed 2 Unit Nat,
      before.step 1 (.act (.gcAccess 1)) = some after ∧ before.mvto.Needs 1 0 1 ∧
        after.mvto.freed 0 0 = true ∧ after.mvto.freed 0 1 = false := by
  have reached : (execWhen (Managed.step 1) Managed.Timely
      (Managed.start Loaded.single fun _ => 0 : Managed 2 Unit Nat)
      ([.manage (.setWorker 1)] ++ beginTx 1 ++
        [.act (.precommit 1 []), .act (.commit 1), .act (.applyNext 1), .act (.finish 1)] ++
        beginTx 1 ++ operate 1 .update ++
        [.act (.precommit 1 [()]), .act (.lockNext 1 true), .act (.commit 1),
          .act (.applyNext 1), .act (.gcApply 1), .act (.applyNext 1), .act (.finish 1)] ++
        [.manage .gcStart, .manage .gcSample, .manage .gcSample, .manage .gcSample,
          .manage .gcStore, .manage .gcStore, .manage .gcStore] ++
        beginTx 1 ++ [.act (.access 1 .read ())])).map
      (fun before => ((before.mvto.tx 1).active, (before.mvto.tx 1).chosen,
        decide (before.Timely (.act (.gcAccess 1))),
        (before.step 1 (.act (.gcAccess 1))).map fun after => after.mvto.freed 0 0)) =
        some (true, [(0, 1)], true, some true) := by
    decide +kernel
  obtain ⟨before, success, seen⟩ := Option.map_eq_some_iff.mp reached
  obtain ⟨active, seen⟩ := Prod.mk.inj seen
  obtain ⟨chosen, seen⟩ := Prod.mk.inj seen
  obtain ⟨timely, seen⟩ := Prod.mk.inj seen
  obtain ⟨after, taken, freed⟩ := Option.map_eq_some_iff.mp seen
  have needed : before.mvto.Needs 1 0 1 := ⟨active, .inl (by simp [chosen])⟩
  exact ⟨before, after, taken, needed, freed,
    versionGc_safe 1 Loaded.single _ _ before after _ (Run.of_execWhen success)
      (of_decide_eq_true timely) taken 1 0 1 needed⟩

end Runs

end TpccRunner.Mvto
