import TpccRunner.NoWait.System

/-!
# NoWait is serializable

The transactions lock in two phases, so a run does what the transactions that went to
`precommit` do one after another, in the order in which they went there.
-/

set_option autoImplicit false

namespace TpccRunner.NoWait

open Lib
open Function (update)

variable {n : Nat} {K R : Type} [DecidableEq K]

@[simp]
def ReadWriteElement.mode : ReadWriteElement R → LockMode
  | .read => .shared
  | .update _ => .exclusive

@[simp]
def Operation.mode : Operation → LockMode
  | .read => .shared
  | .update => .exclusive

namespace Tx

@[simp]
def held (tx : Tx K R) (key : K) : Option LockMode :=
  match tx.pc with
  | .fetch locked op => if key = locked then some op.mode else (tx.rws key).map (·.mode)
  | .unlock locked => if key = locked then some .exclusive else (tx.rws key).map (·.mode)
  | _ => (tx.rws key).map (·.mode)

/-- The record that the transaction has committed and not yet written. -/
@[simp]
def unwritten (tx : Tx K R) (key : K) : Option R :=
  match tx.pc with
  | .unlockShared | .write | .unlock _ => tx.own key
  | _ => none

def Reads (tx : Tx K R) (m : K → R) : Prop :=
  ∀ read ∈ tx.reads, tx.rws read.1 ≠ none ∧ m read.1 = read.2

def Ok (tx : Tx K R) (m : K → R) : Prop :=
  match tx.pc with
  | .running => tx.Reads m
  | .fetch key _ => tx.Reads m ∧ tx.own key = none
  | .unlock key => tx.rws key = none
  | .finished => ∀ key, tx.rws key = none
  | .unlockShared | .write | .abort => True

variable {tx : Tx K R} {m : K → R} {key : K}

theorem Reads.put (reads : tx.Reads m) (element : ReadWriteElement R) :
    ∀ read ∈ tx.reads, update tx.rws key (some element) read.1 ≠ none ∧ m read.1 = read.2 := by
  intro read member
  refine ⟨?_, (reads read member).2⟩
  by_cases self : read.1 = key
  · simp [self]
  · simpa [self] using (reads read member).1

theorem Ok.congr (ok : tx.Ok m) {m' : K → R}
    (same : ∀ key, tx.held key ≠ none → m' key = m key) : tx.Ok m' := by
  have transfer : (∀ key, tx.rws key ≠ none → tx.held key ≠ none) → tx.Reads m → tx.Reads m' :=
    fun locks reads read member =>
      have ⟨locked, value⟩ := reads read member
      ⟨locked, (same _ (locks _ locked)).trans value⟩
  unfold Ok at ok ⊢
  unfold held at transfer
  split at ok <;> simp_all
  exact transfer fun key _ => by split <;> simp_all

end Tx

structure Inv (loaded m : K → R) (state : State n K R) : Prop where
  log : Serial loaded state.log m
  keys : ∀ key, Guarded (m key) (state.value key).record (state.value key).cnt
    (fun worker => (state.tx worker).held key) fun worker => (state.tx worker).unwritten key
  txs : ∀ worker, (state.tx worker).Ok m

namespace Inv
variable {loaded m : K → R} {state after : State n K R} {worker : Fin n} {tx : Tx K R} {key : K}

theorem of_keys {value : K → Value R} {log : List (Summary K R)} (serial : Serial loaded log m)
    (ok : tx.Ok m) (others : ∀ other, other ≠ worker → (state.tx other).Ok m)
    (keys : ∀ key, Guarded (m key) (value key).record (value key).cnt
      (update (fun other => (state.tx other).held key) worker (tx.held key))
      (update (fun other => (state.tx other).unwritten key) worker (tx.unwritten key))) :
    Inv loaded m ⟨value, update state.tx worker tx, log⟩ where
  log := serial
  keys key := by
    have held := Function.apply_update (fun _ (tx : Tx K R) => tx.held key) state.tx worker tx
    have unwritten :=
      Function.apply_update (fun _ (tx : Tx K R) => tx.unwritten key) state.tx worker tx
    simp only [held, unwritten]
    exact keys key
  txs := (Function.forall_update_iff state.tx fun _ tx => tx.Ok m).mpr ⟨ok, others⟩

variable (inv : Inv loaded m state)
include inv

theorem still (ok : tx.Ok m) (held : tx.held = (state.tx worker).held)
    (unwritten : tx.unwritten = (state.tx worker).unwritten) :
    Inv loaded m (state.setTx worker tx) := by
  refine of_keys inv.log ok (fun other _ => inv.txs other) fun key => ?_
  rw [held, unwritten, Function.update_eq_self, Function.update_eq_self]
  exact inv.keys key

theorem touch {value : Value R} {mode : Option LockMode} (ok : tx.Ok m)
    (held : tx.held = update (state.tx worker).held key mode)
    (unwritten : tx.unwritten = update (state.tx worker).unwritten key none)
    (here : Guarded (m key) value.record value.cnt
      (update (fun other => (state.tx other).held key) worker mode)
      (update (fun other => (state.tx other).unwritten key) worker none)) :
    Inv loaded m ⟨update state.value key value, update state.tx worker tx, state.log⟩ := by
  refine of_keys inv.log ok (fun other _ => inv.txs other) fun other => ?_
  rw [held, unwritten]
  by_cases self : other = key
  · subst self
    simpa only [Function.update_self] using here
  · simpa only [Function.update_of_ne self, Function.update_eq_self] using inv.keys other

theorem abort (running : (state.tx worker).pc = .running) :
    Inv loaded m (state.setTx worker { state.tx worker with pc := .abort }) := by
  refine inv.still trivial ?_ ?_ <;> funext other <;> simp [running]

theorem tryLock (running : (state.tx worker).pc = .running) {op : Operation} {mode : RWLock.Mode}
    (reads : (state.tx worker).own key = none)
    (upgrades : mode = .upgrade → 0 < (thread ((state.tx worker).held key)).shares)
    (acquired : (thread ((state.tx worker).held key)).acquired mode = thread (some op.mode)) :
    Inv loaded m (state.tryLock worker op key mode) := by
  have ok := inv.txs worker
  simp only [Tx.Ok, running] at ok
  unfold State.tryLock
  dsimp only
  split
  · rename_i admits
    have counted := (inv.keys key).counted.tryLock admits upgrades acquired
    refine inv.touch ⟨ok, reads⟩ ?_ ?_ ((inv.keys key).relock (by simp [running]) counted)
    all_goals
      funext other
      by_cases self : other = key <;> simp [running, self]
  · exact inv.abort running

theorem access (running : (state.tx worker).pc = .running) (op : Operation) (key : K) :
    Inv loaded m (state.access worker op key) := by
  have ok := inv.txs worker
  simp only [Tx.Ok, running] at ok
  unfold State.access
  dsimp only
  split <;> rename_i found
  case h_3 =>
    have locked : (state.tx worker).held key = some .shared := by simp [running, found]
    have record := (inv.keys key).settled locked (by simp [running])
    refine inv.still ?_ rfl rfl
    simpa [Tx.Ok, running, Tx.Reads, found, record] using ok
  case h_5 => exact inv
  all_goals
    refine inv.tryLock running ?_ ?_ ?_ <;>
      simp [running, found, thread, RWLock.Thread.acquired]

theorem fetch {op : Operation} (atFetch : (state.tx worker).pc = .fetch key op) :
    Inv loaded m (state.fetch worker op key) := by
  have ok := inv.txs worker
  simp only [Tx.Ok, atFetch] at ok
  have locked : (state.tx worker).held key = some op.mode := by simp [atFetch]
  have record := (inv.keys key).settled locked (by simp [atFetch])
  refine inv.still (List.forall_mem_cons.mpr ⟨⟨by simp, record.symm⟩, ok.1.put _⟩) ?_ ?_
  all_goals
    funext other
    by_cases self : other = key <;> cases op <;> simp [atFetch, self]

theorem visit (taken : state.visit worker key = some after) : Inv loaded m after := by
  unfold State.visit at taken
  dsimp only at taken
  split at taken <;> cases taken <;> rename_i atLoop found
  case h_2 record =>
    have guarded := inv.keys key
    have owned : (state.tx worker).held key = some .exclusive := by simp [atLoop, found]
    have waits := (guarded.pending worker record (by simp [atLoop, found])).2
    refine inv.touch (by simp [Tx.Ok]) ?_ ?_ (guarded.own owned (by simp) fun _ => waits.symm)
    all_goals
      funext other
      by_cases self : other = key <;> simp [atLoop, self]
  case h_4 =>
    refine inv.touch (by simp [Tx.Ok, atLoop]) ?_ ?_ ((inv.keys key).relock (by simp [atLoop])
      ((inv.keys key).counted.unlock (by simp [atLoop, found])))
    all_goals
      funext other
      by_cases self : other = key <;> simp [atLoop, self]
  all_goals
    refine inv.touch (by simp [Tx.Ok, atLoop]) ?_ ?_
      ((inv.keys key).relock (by simp [atLoop, found])
        ((inv.keys key).counted.unlockShared (by simp [atLoop, found])))
    all_goals
      funext other
      by_cases self : other = key <;> simp [atLoop, self]

theorem precommit (running : (state.tx worker).pc = .running) :
    Inv loaded ((state.tx worker).summary.apply m)
      { state.setTx worker { state.tx worker with pc := .unlockShared } with
        log := state.log ++ [(state.tx worker).summary] } := by
  have ok := inv.txs worker
  simp only [Tx.Ok, running] at ok
  have owned : ∀ key record, (state.tx worker).own key = some record →
      (state.tx worker).held key = some .exclusive := by
    intro key record writes
    rcases found : (state.tx worker).rws key with _ | _ | _ <;> simp_all
  have unchanged : ∀ key, (state.tx worker).own key = none →
      (state.tx worker).summary.apply m key = m key := by
    intro key reads
    simp only [Summary.apply, Tx.summary, reads, Option.getD_none]
  refine of_keys (inv.log.snoc fun read member => (ok read member).2) trivial
    (fun other different => (inv.txs other).congr fun key locked => ?_) fun key => ?_
  · cases writes : (state.tx worker).own key with
    | none => exact unchanged key writes
    | some record =>
      exact absurd ((inv.keys key).counted.alone (owned key record writes) other different) locked
  · have guarded := inv.keys key
    have held : Tx.held { state.tx worker with pc := .unlockShared } =
        (state.tx worker).held := by
      funext other
      simp [running]
    have unwritten : Tx.unwritten { state.tx worker with pc := .unlockShared } key =
        (state.tx worker).own key := rfl
    rw [held, unwritten]
    cases writes : (state.tx worker).own key with
    | none =>
      have idle : (state.tx worker).unwritten key = none := by simp [running]
      rw [unchanged key writes, ← idle, Function.update_eq_self, Function.update_eq_self]
      exact guarded
    | some record =>
      rw [owned key record writes]
      refine guarded.own (owned key record writes) (fun waiting same => ?_) (by simp)
      simpa only [Summary.apply, Tx.summary, writes, Option.getD_some, Option.some.injEq] using same

theorem step {label : Fin n × Action K R} (visited : Visited state label)
    (taken : step state label = some after) : ∃ m', Inv loaded m' after := by
  obtain ⟨worker, action⟩ := label
  have ok := inv.txs worker
  unfold NoWait.step at taken
  unfold Tx.Ok at ok
  dsimp only at taken
  split at taken
  case h_6 key => exact ⟨m, inv.visit taken⟩
  all_goals
    rename_i atPc
    simp only [atPc, Visited] at ok visited
  case h_3 key record =>
    obtain ⟨old, writes, rfl⟩ := Option.map_eq_some_iff.mp taken
    have element : (state.tx worker).rws key = some (.update old) := by
      rcases found : (state.tx worker).rws key with _ | _ | _ <;> simp_all
    refine ⟨m, inv.still (by simpa only [Tx.Ok, atPc, Tx.Reads] using ok.put _) ?_ ?_⟩
    all_goals
      funext other
      by_cases self : other = key <;> simp [atPc, self, element]
  all_goals cases taken
  case h_1 =>
    refine ⟨m, inv.still (by simp [Tx.Ok, Tx.new, Tx.Reads]) ?_ ?_⟩
    all_goals
      funext key
      simp [atPc, Tx.new, ok]
  case h_2 op key => exact ⟨m, inv.access atPc op key⟩
  case h_4 => exact ⟨_, inv.precommit atPc⟩
  case h_5 => exact ⟨m, inv.abort atPc⟩
  case h_7 key op => exact ⟨m, inv.fetch atPc⟩
  case h_9 key =>
    refine ⟨m, inv.touch trivial ?_ ?_ ((inv.keys key).relock (by simp [atPc, ok])
      ((inv.keys key).counted.unlock (by simp [atPc])))⟩
    all_goals
      funext other
      by_cases self : other = key <;> simp [atPc, self, ok]
  all_goals
    refine ⟨m, inv.still (by simp [Tx.Ok, visited]) ?_ ?_⟩
    all_goals
      funext key
      simp [atPc, visited]

end Inv

theorem Inv.start (loaded : K → R) : Inv loaded loaded (start loaded : State n K R) where
  log := rfl
  keys key := ⟨RWLock.Inv.start, by simp [NoWait.start, Tx.new], fun _ => rfl⟩
  txs worker := by simp [NoWait.start, Tx.new, Tx.Ok, Tx.Reads]

theorem inv_of_run {loaded : K → R} {trace : List (Fin n × Action K R)} {state : State n K R}
    (run : Run step Visited (start loaded) trace state) : ∃ m, Inv loaded m state :=
  run.invariant (fun state => ∃ m, Inv loaded m state) ⟨loaded, .start loaded⟩
    fun _ _ _ ⟨_, inv⟩ visited taken => inv.step visited taken

/-- The committed transactions could have run one after another.  The locks account for the
elements of the transactions, which hold none when they have finished, and the records that
nobody has locked exclusively are those that the committed transactions leave. -/
def State.Serializable (loaded : K → R) (state : State n K R) : Prop :=
  ∃ m, Serial loaded state.log m ∧ ∀ key,
    Counted (fun worker => (state.tx worker).held key) (state.value key).cnt ∧
      (∀ worker, (state.tx worker).pc = .finished → (state.tx worker).held key = none) ∧
      (0 ≤ (state.value key).cnt → (state.value key).record = m key)

theorem run_serializable {loaded : K → R} {trace : List (Fin n × Action K R)}
    {state : State n K R} (run : Run step Visited (start loaded) trace state) :
    state.Serializable loaded := by
  obtain ⟨m, inv⟩ := inv_of_run run
  refine ⟨m, inv.log, fun key => ⟨(inv.keys key).counted, fun worker finished => ?_,
    fun nonneg => (inv.keys key).written fun worker => ?_⟩⟩
  · have ok := inv.txs worker
    simp only [Tx.Ok, finished] at ok
    simp [finished, ok]
  · by_contra waits
    obtain ⟨record, waits⟩ := Option.ne_none_iff_exists'.mp waits
    have owned := ((inv.keys key).pending worker record waits).1
    have free := ((inv.keys key).counted.counts.shared_of_nonneg nonneg).2 worker
    simp only [owned, thread] at free
    cases free

/-- One transaction updates a key, which another one reads afterwards. -/
theorem two_serializable : ∃ trace, ∃ state : State 2 Bool Nat,
    Run step Visited (start fun _ => 5) trace state ∧
      state.log.map (·.reads) = [[(true, 5)], [(true, 7)]] ∧
      state.Serializable fun _ => 5 := by
  have reached : (execWhen step Visited (start fun _ => 5 : State 2 Bool Nat)
      [(0, .access .update true), (0, .next), (0, .store true 7), (0, .precommit), (0, .next),
        (0, .visit true), (0, .next), (1, .access .read true), (0, .next), (1, .next),
        (1, .precommit)]).map (fun state => state.log.map (·.reads)) =
      some [[(true, 5)], [(true, 7)]] := by
    decide +kernel
  obtain ⟨state, final, reads⟩ := Option.map_eq_some_iff.mp reached
  have run := Run.of_execWhen final
  exact ⟨_, state, run, reads, run_serializable run⟩

end TpccRunner.NoWait
