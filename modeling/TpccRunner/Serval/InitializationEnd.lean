import TpccRunner.Serval.ReadCorrectness

/-!
# What the initialization phase of Serval leaves

When every worker has reached the barrier, a row that the epoch writes holds one
version for each of its writers, in its global array or in its region and never
in both, and its master is what the epochs before have left.
-/

set_option autoImplicit false

namespace TpccRunner.Serval

open TpccRunner.Utils TpccRunner.Lib
open SortedVector (Ascending)

section Contents
variable (serials : Set Nat) (pending : Nat → Option Nat)

structure ArrayComplete (array : GlobalVersionArray) : Prop where
  ascending : Ascending array
  entries : ∀ id version, (id, version) ∈ array ↔
    ∃ serial ∈ serials, id = ↑serial ∧ pending serial = some version

structure RegionComplete (region : RowRegion) : Prop where
  cores : ∀ core, core ∈ positions region.coreBitmap ↔ ∃ serial ∈ serials, serial / 64 = core
  slots : ∀ core ∈ positions region.coreBitmap,
    (region.arrays core).slots.length = {serial ∈ serials | serial / 64 = core}.ncard
  get : ∀ core tx, tx < 64 → 64 * core + tx ∈ serials →
    pending (64 * core + tx) = some ((region.arrays core).get tx)

end Contents

structure Initialized (load : Workload) (state : State) (key : Nat) : Prop where
  epoch : (state.rows key).epoch = state.epoch
  oneDirty : Xor ((state.rows key).globalArray.isDirty = true)
    ((state.rows key).hasDirtyRegion = true)
  globalArray : (state.rows key).globalArray.isDirty = true →
    ArrayComplete (load.writers key state.epoch) (state.pending state.epoch · key)
      (state.rows key).globalArray
  rowRegion : ∀ region, (state.rows key).rowRegion = some region → region.isDirty = true →
    RegionComplete (load.writers key state.epoch) (state.pending state.epoch · key) region
  distinct : ∀ one ∈ load.writers key state.epoch, ∀ two ∈ load.writers key state.epoch,
    state.pending state.epoch one key = state.pending state.epoch two key → one = two
  master : ∃ record, FinalBefore load key state.epoch record ∧
    (state.rows key).heap.versions (state.rows key).master = ⟨some record, .stable⟩

section Holding
variable {serials : Set Nat} {pointer : Nat → Nat} {pending : Nat → Option Nat}

theorem GlobalVersionArray.isDirty_iff {array : GlobalVersionArray} :
    array.isDirty = true ↔ array ≠ [] := by
  simp [GlobalVersionArray.isDirty]

theorem RowRegion.isDirty_iff {region : RowRegion} :
    region.isDirty = true ↔ region.coreBitmap ≠ 0 := by
  simp [RowRegion.isDirty]

theorem GlobalHolds.complete {array : GlobalVersionArray}
    (holds : GlobalHolds array serials pointer)
    (known : ∀ serial ∈ serials, pending serial = some (pointer serial)) :
    ArrayComplete serials pending array := by
  refine ⟨holds.ascending, fun id version => ?_⟩
  rw [holds.entries]
  refine exists_congr fun serial => and_congr_right fun member => ?_
  rw [known serial member, Option.some.injEq, Prod.mk.injEq, eq_comm (a := version)]

theorem RegionHolds.complete {region : RowRegion} (holds : RegionHolds region serials pointer)
    (known : ∀ serial ∈ serials, pending serial = some (pointer serial)) :
    RegionComplete serials pending region where
  cores := fun core => by
    rw [holds.holds.cores]
    constructor
    · rintro ⟨tx, bound, member⟩
      refine ⟨_, member, ?_⟩
      simp only [serialId]
      omega
    · rintro ⟨serial, member, rfl⟩
      exact ⟨serial % 64, Nat.mod_lt _ (by decide), by rwa [serialId_split]⟩
  slots := fun core member => by
    rw [holds.slots core member, holds.holds.card_core member, ranked, List.length_map,
      Finset.length_sort]
  get := fun core tx bound member => by
    have id : serialId (core, tx) = 64 * core + tx := by
      simp only [serialId]
      omega
    rw [← id] at member ⊢
    have coreMem : core ∈ positions region.coreBitmap :=
      (holds.holds.cores core).mpr ⟨tx, bound, member⟩
    have txMem : tx ∈ positions (region.transactionBitmap core) :=
      (holds.holds.txs core coreMem tx).mpr ⟨bound, member⟩
    rw [holds.get coreMem txMem, known _ member]

/-- A row that holds some version holds it in one place. -/
theorem RowHolds.oneDirty {val : Value} (holds : RowHolds val serials pointer)
    (written : serials.Nonempty) :
    Xor (val.globalArray.isDirty = true) (val.hasDirtyRegion = true) := by
  cases contended : val.rowRegion with
  | none =>
    rw [rowHolds_global contended] at holds
    have dirty : val.globalArray ≠ [] := by
      rw [Ne, holds.eq_nil_iff]
      exact written.ne_empty
    exact .inl ⟨GlobalVersionArray.isDirty_iff.mpr dirty, by simp [Value.hasDirtyRegion, contended]⟩
  | some region =>
    rw [rowHolds_region contended] at holds
    have dirty : region.coreBitmap ≠ 0 := by
      rw [Ne, holds.2.coreBitmap_eq_zero]
      exact written.ne_empty
    refine .inr ⟨?_, by simp [GlobalVersionArray.isDirty_iff, holds.1]⟩
    rw [Value.hasDirtyRegion, contended]
    exact RowRegion.isDirty_iff.mpr dirty

end Holding

/-- At the end of the initialization phase of every epoch of every run, a row
that the epoch writes holds exactly the versions of its writers. -/
theorem initializationEnd_initialized {load : Workload} {trace : List Label} {state : State}
    (run : Run (State.step load) always State.loaded trace state) (phase : state.phase = .init)
    (quiet : state.Quiet) {key : Nat} (written : (load.writers key state.epoch).Nonempty) :
    Initialized load state key := by
  have inv := run_inv run
  have row := inv.rows key
  have done (serial : Nat) : ¬ state.Left key serial :=
    Worklist.not_remains_of_empty (fun worker => (quiet worker).1) _
  have current : (state.rows key).epoch = state.epoch := by
    by_contra differs
    obtain ⟨serial, writer⟩ := written
    exact done serial (row.notStarted phase (lt_of_le_of_ne row.epoch_le differs) serial writer)
  have started : 1 ≤ (state.rows key).epoch := by
    rw [current]
    exact inv.positive phase
  have all : Appended load key state.epoch state.phase (state.rows key) (state.Left key) =
      load.writers key state.epoch := by
    rw [Appended, current]
    ext serial
    exact ⟨And.left, fun member => ⟨member, fun _ _ => done serial⟩⟩
  have holds := row.holds started
  have versions := row.versions started
  have distinct := row.distinct
  rw [all] at holds versions distinct
  have known (serial : Nat) (member : serial ∈ load.writers key state.epoch) :
      state.pending state.epoch serial key = some (pointerOf (state.rows key)
        (fun epoch serial => state.pending epoch serial key) serial) := by
    have := (versions serial member).known
    rwa [current] at this
  exact {
    epoch := current
    oneDirty := holds.oneDirty written
    globalArray := fun dirty => by
      cases contended : (state.rows key).rowRegion with
      | none =>
        rw [rowHolds_global contended] at holds
        exact holds.complete known
      | some region =>
        rw [rowHolds_region contended] at holds
        exact absurd holds.1 (GlobalVersionArray.isDirty_iff.mp dirty)
    rowRegion := fun region contended _ => by
      rw [rowHolds_region contended] at holds
      exact holds.2.complete known
    distinct := fun one oneMem two twoMem same => by
      rw [known one oneMem, known two twoMem, Option.some.injEq] at same
      exact distinct one oneMem two twoMem started same
    master := by
      have master := row.master.2
      rwa [current] at master }

/-! ## Two workers that contend for a row -/

def twoCores : Workload := fun epoch =>
  { rwSet := fun serial => if epoch = 1 ∧ (serial = 0 ∨ serial = 64) then [⟨.update, 0⟩] else []
    distinctKeys := fun serial => by split_ifs <;> simp }

def contention : List Label :=
  [.newEpoch] ++ List.replicate 5 (.worker (workerOf 0)) ++
    List.replicate 3 (.worker (workerOf 1)) ++ List.replicate 2 (.worker (workerOf 0)) ++
    List.replicate 4 (.worker (workerOf 1))

theorem contention_initialized :
    ∃ state, Run (State.step twoCores) always State.loaded contention state ∧
      (state.rows 0).hasDirtyRegion = true ∧ Initialized twoCores state 0 := by
  have reached : (exec (State.step twoCores) State.loaded contention).map (fun state =>
      (state.epoch, decide (state.phase = .init ∧ state.Quiet), (state.rows 0).hasDirtyRegion)) =
        some (1, true, true) := by
    decide +kernel
  obtain ⟨state, success, summary⟩ := Option.map_eq_some_iff.mp reached
  simp only [Prod.mk.injEq, decide_eq_true_eq] at summary
  obtain ⟨epoch, ⟨phase, quiet⟩, dirty⟩ := summary
  have run := Run.of_exec success
  have written : (twoCores.writers 0 state.epoch).Nonempty := by
    refine ⟨0, by decide, ?_⟩
    simp [Workload.rwSet, twoCores, epoch]
  exact ⟨state, run, dirty, initializationEnd_initialized run phase quiet written⟩

end TpccRunner.Serval
