import TpccRunner.Serval.Execution
import TpccRunner.Serval.ReadCorrectness

/-!
# Reclamation in Serval

A version is owned by one place at a time: the master of its row, an entry of the global
array, or a slot of a per-core array, which may be one that an earlier epoch left behind.
`Conserved` counts them: what the places own and what has been deleted make up the versions
created so far, each once.  Every access that moves or deletes versions keeps that count.
-/

set_option autoImplicit false

namespace TpccRunner.Serval

open TpccRunner.Utils TpccRunner.Lib

/-! ## Who owns a version -/

/-- The versions in the arrays of all cores, stale ones included. -/
def RowRegion.versions (region : RowRegion) : Multiset Nat :=
  ∑ core ∈ Finset.range 64, ((region.arrays core).slots : Multiset Nat)

theorem RowRegion.versions_eq (region : RowRegion) : region.versions =
    ∑ core ∈ Finset.range 64, ((region.arrays core).slots : Multiset Nat) := rfl

-- membership in the sum would otherwise be unfolded core by core
attribute [irreducible] RowRegion.versions

def Value.inRegion (val : Value) : Multiset Nat :=
  match val.rowRegion with
  | some region => region.versions
  | none => 0

def Value.owned (val : Value) : Multiset Nat :=
  {val.master} + ((val.globalArray.map Prod.snd : List Nat) : Multiset Nat) + val.inRegion

/-- Every version is owned by one place or has been deleted once. -/
def Value.Conserved (val : Value) : Prop :=
  val.owned + (val.heap.freed : Multiset Nat) = Multiset.range val.heap.next

section Rows
variable {val : Value} {region : RowRegion} {serials : Set Nat} {pointer : Nat → Nat}

theorem Value.Conserved.nodup (conserved : val.Conserved) :
    val.heap.freed.Nodup ∧ ∀ version ∈ val.owned, version ∉ val.heap.freed := by
  have nodup : (val.owned + (val.heap.freed : Multiset Nat)).Nodup := by
    rw [show _ = _ from conserved]
    exact Multiset.nodup_range _
  obtain ⟨-, freed, apart⟩ := Multiset.nodup_add.mp nodup
  refine ⟨Multiset.coe_nodup.mp freed, fun version member again => ?_⟩
  exact Multiset.disjoint_left.mp apart member (Multiset.mem_coe.mpr again)

theorem inRegion_of_contended (contended : val.rowRegion = some region) :
    val.inRegion = region.versions := by
  rw [Value.inRegion, contended]

theorem Value.Conserved.congr {after : Value} (conserved : val.Conserved)
    (owned : after.owned = val.owned) (freed : after.heap.freed = val.heap.freed)
    (next : after.heap.next = val.heap.next) : after.Conserved := by
  rw [Value.Conserved, owned, freed, next]
  exact conserved

theorem mem_region_versions {core version : Nat} (bound : core < 64)
    (member : version ∈ (region.arrays core).slots) : version ∈ region.versions := by
  rw [RowRegion.versions_eq, Multiset.mem_sum]
  exact ⟨core, Finset.mem_range.mpr bound, Multiset.mem_coe.mpr member⟩

theorem versions_update (region : RowRegion) (core : Nat) (bound : core < 64)
    (array : PerCoreVersionArray) (coreBitmap : Bitmap) :
    (RowRegion.versions ⟨coreBitmap, Function.update region.arrays core array⟩) +
      ((region.arrays core).slots : Multiset Nat) =
        region.versions + (array.slots : Multiset Nat) := by
  have inside : core ∈ Finset.range 64 := Finset.mem_range.mpr bound
  have updated : (fun other => ((Function.update region.arrays core array other).slots :
      Multiset Nat)) = Function.update (fun other => ((region.arrays other).slots : Multiset Nat))
        core array.slots := by
    funext other
    by_cases same : other = core
    · rw [same, Function.update_self, Function.update_self]
    · rw [Function.update_of_ne same, Function.update_of_ne same]
  rw [RowRegion.versions_eq, RowRegion.versions_eq, updated, Finset.sum_update_of_mem inside,
    Finset.sum_eq_add_sum_sdiff_singleton_of_mem inside
      (fun other => ((region.arrays other).slots : Multiset Nat))]
  abel

theorem append_slots {array : PerCoreVersionArray} (version tx : Nat)
    (room : countBits array.transactionBitmap ≤ array.slots.length) :
    ((array.append version tx).slots : Multiset Nat) = {version} + array.slots := by
  rw [Multiset.singleton_add, Multiset.cons_coe, Multiset.coe_eq_coe]
  exact List.perm_insertIdx _ _ room

theorem RegionHolds.full (holds : RegionHolds region serials pointer) {core : Nat}
    (member : core ∈ positions region.coreBitmap) :
    (region.arrays core).slots.length = countBits (region.arrays core).transactionBitmap := by
  rw [holds.slots core member, ranked, List.length_map, Finset.length_sort, countBits_eq_card]
  rfl

/-- `RowRegion::append`: what the first write of a core deletes is what its array held. -/
theorem RegionHolds.append_versions (holds : RegionHolds region serials pointer) {core : Nat}
    (bound : core < 64) (version tx : Nat) :
    (region.append core version tx).versions + (region.appendFrees core : Multiset Nat) =
      {version} + region.versions := by
  have bit := @isBitSet_iff region.coreBitmap core bound
  by_cases member : core ∈ positions region.coreBitmap
  · have known : region.isFirstWrite core = false := by
      rw [RowRegion.isFirstWrite, bit.mpr member, Bool.not_true]
    have appended := append_slots version tx (holds.full member).ge
    have moved := versions_update region core bound ((region.arrays core).append version tx)
      region.coreBitmap
    rw [appended, add_left_comm, ← add_assoc] at moved
    rw [RowRegion.append, RowRegion.appendFrees, known]
    simp only [Bool.false_eq_true, if_false, Multiset.coe_nil, add_zero]
    exact add_right_cancel moved
  · have first : region.isFirstWrite core = true := by
      rw [RowRegion.isFirstWrite, Bool.not_eq_true', ← Bool.not_eq_true, bit]
      exact member
    have appended : ((PerCoreVersionArray.append {} version tx).slots : Multiset Nat) =
        {version} := by
      rw [append_slots version tx (by simp [countBits_eq_card])]
      rfl
    have moved := versions_update region core bound (PerCoreVersionArray.append {} version tx)
      (region.coreBitmap ||| bitAtTheGivenLocation core)
    rw [appended, add_comm region.versions] at moved
    rw [RowRegion.append, RowRegion.appendFrees, first]
    exact moved

theorem RegionHolds.pop_versions (holds : RegionHolds region serials pointer)
    (dirty : region.coreBitmap ≠ 0) :
    {region.popFinalState.1} + region.popFinalState.2.initializeCoreBitmap.versions =
      region.versions := by
  have member := (findTheLargest_isGreatest dirty).1
  set core := findTheLargest region.coreBitmap
  have nonempty : (region.arrays core).slots ≠ [] := by
    rw [← List.length_pos_iff, holds.full member, countBits_eq_card, Finset.card_pos,
      Finset.nonempty_iff_ne_empty, Ne, positions_eq_empty]
    exact holds.holds.txBitmap_ne_zero member
  have split := List.dropLast_append_getLast nonempty
  have last : (region.arrays core).slots.getLast?.getD 0 =
      (region.arrays core).slots.getLast nonempty := by
    rw [List.getLast?_eq_some_getLast nonempty, Option.getD_some]
  have moved := versions_update region core (lt_of_mem_positions member)
    { region.arrays core with slots := (region.arrays core).slots.dropLast } 0
  have whole : ((region.arrays core).slots : Multiset Nat) =
      ((region.arrays core).slots.dropLast : Multiset Nat) +
        {(region.arrays core).slots.getLast nonempty} := by
    conv_lhs => rw [← split]
    rw [← Multiset.coe_add, Multiset.coe_singleton]
  rw [whole, ← add_assoc, add_right_comm] at moved
  have taken := add_right_cancel moved
  rw [add_comm] at taken
  simp only [RowRegion.popFinalState, PerCoreVersionArray.popLatest,
    RowRegion.initializeCoreBitmap]
  rw [last]
  exact taken

theorem move_versions {array : GlobalVersionArray} (ascending : SortedVector.Ascending array)
    (below : ∀ serial ∈ serials, ∀ entry ∈ array, (serial : Int) < entry.1)
    (valid : ∀ entry ∈ array, ∃ serial < 4096, entry = (↑serial, pointer serial))
    (holds : RegionHolds region serials pointer)
    (unused : ∀ core, core ∉ positions region.coreBitmap → (region.arrays core).slots = []) :
    (moveGlobalArrayToRowRegion array region).versions =
      ((array.map Prod.snd : List Nat) : Multiset Nat) + region.versions := by
  induction array generalizing region serials with
  | nil => simp [moveGlobalArrayToRowRegion]
  | cons entry rest ih =>
    obtain ⟨above, tail⟩ := List.pairwise_cons.mp ascending
    obtain ⟨serial, bound, rfl⟩ := valid entry (by simp)
    have coreBound : serial / 64 < 64 := by omega
    have smaller : ∀ other ∈ serials, other < serial := by
      intro other member
      simpa using below other member _ List.mem_cons_self
    have appended := holds.append bound fun other member _ => smaller other member
    have nothing : region.appendFrees (serial / 64) = [] := by
      rw [RowRegion.appendFrees]
      split
      next first =>
        refine unused _ fun member => ?_
        rw [RowRegion.isFirstWrite, (isBitSet_iff coreBound).mpr member] at first
        cases first
      next => rfl
    have stillUnused (core : Nat) (free : core ∉ positions
        (region.append (serial / 64) (pointer serial) (serial % 64)).coreBitmap) :
        ((region.append (serial / 64) (pointer serial) (serial % 64)).arrays core).slots = [] := by
      rw [RowRegion.append_eq region coreBound] at free ⊢
      rw [positions_setBit coreBound, Finset.mem_insert, not_or] at free
      simp only [Function.update_of_ne free.1]
      exact unused core free.2
    have moved := @ih _ (insert serial serials) tail (by
      rintro other (rfl | member) entry entryMem
      · exact above entry entryMem
      · exact below other member entry (List.mem_cons_of_mem _ entryMem))
      (fun entry member => valid entry (List.mem_cons_of_mem _ member)) appended stillUnused
    have one := holds.append_versions coreBound (pointer serial) (serial % 64)
    rw [nothing, Multiset.coe_nil, add_zero] at one
    rw [one] at moved
    refine moved.trans ?_
    rw [List.map_cons, ← Multiset.cons_coe, ← Multiset.singleton_add]
    abel

/-! ## The accesses that move or delete versions -/

theorem Value.Conserved.initializeFromArray (conserved : val.Conserved) {id : Int} {latest : Nat}
    (last : val.globalArray.getLast? = some (id, latest)) (epoch : Nat) :
    (val.initializeTheRow epoch).Conserved := by
  obtain ⟨front, split⟩ := List.getLast?_eq_some_iff.mp last
  have dropped : val.globalArray.dropLast = front := by rw [split, List.dropLast_concat]
  have before := conserved
  rw [Value.Conserved, Value.owned, split, List.map_append, ← Multiset.coe_add] at before
  rw [Value.Conserved, Value.initializeTheRow, last]
  simp only [Value.owned, Value.gcMasterVersion, Heap.free, dropped, List.map_nil,
    Multiset.coe_nil, Value.inRegion, ← Multiset.coe_add, Multiset.coe_singleton]
  rw [← before, Value.inRegion, List.map_singleton, Multiset.coe_singleton]
  abel

theorem Value.Conserved.initializeRow (conserved : val.Conserved)
    (holds : val.globalArray = [] → ∀ region, val.rowRegion = some region →
      ∃ serials pointer, RegionHolds region serials pointer) (epoch : Nat) :
    (val.initializeTheRow epoch).Conserved := by
  cases last : val.globalArray.getLast? with
  | some entry => exact conserved.initializeFromArray last epoch
  | none =>
    have empty := List.getLast?_eq_none_iff.mp last
    cases contended : val.rowRegion with
    | none =>
      refine conserved.congr ?_ ?_ ?_ <;> simp [Value.initializeTheRow, last, contended,
        Value.owned, Value.inRegion]
    | some region =>
      by_cases clean : region.coreBitmap = 0
      · refine conserved.congr ?_ ?_ ?_ <;> simp [Value.initializeTheRow, last, contended,
          clean, Value.owned, Value.inRegion]
      · obtain ⟨serials, pointer, regionHolds⟩ := holds empty region contended
        have popped := regionHolds.pop_versions clean
        have before := conserved
        rw [Value.Conserved, Value.owned, Value.inRegion, contended, empty] at before
        simp only [← popped] at before
        rw [Value.Conserved, Value.initializeTheRow, last, contended]
        simp only [ne_eq, clean, not_false_eq_true, if_true, Value.owned,
          Value.gcMasterVersion, Value.inRegion, Heap.free, empty, ← Multiset.coe_add,
          Multiset.coe_singleton]
        rw [← before]
        abel

theorem Value.Conserved.appendUncontended (conserved : val.Conserved) (serialId : Nat) :
    (val.appendToUncontendedRow serialId).Conserved := by
  have inserted : ((GlobalVersionArray.append val.globalArray val.heap.next serialId).map Prod.snd :
      Multiset Nat) = {val.heap.next} + (val.globalArray.map Prod.snd : List Nat) := by
    rw [Multiset.singleton_add, Multiset.cons_coe, Multiset.coe_eq_coe]
    exact (SortedVector.insertUpper_perm (↑serialId, val.heap.next) val.globalArray).map Prod.snd
  have before := conserved
  rw [Value.Conserved, Value.owned] at before
  rw [Value.Conserved, Value.owned]
  simp only [Value.appendToUncontendedRow, Heap.createPendingVersion, Value.inRegion, inserted]
  rw [Multiset.range_succ, ← before, ← Multiset.singleton_add, Value.inRegion]
  abel

theorem Value.Conserved.appendContended (conserved : val.Conserved)
    (contended : val.rowRegion = some region) (holds : RegionHolds region serials pointer)
    {core : Nat} (bound : core < 64) (serialId : Nat) :
    (val.appendToContendedRow region core serialId).Conserved := by
  have appended := holds.append_versions bound val.heap.next (serialId % 64)
  have before := conserved
  rw [Value.Conserved, Value.owned, Value.inRegion, contended] at before
  rw [Value.Conserved, Value.owned]
  simp only [Value.appendToContendedRow, Heap.createPendingVersion, Heap.free, Value.inRegion,
    ← Multiset.coe_add]
  rw [Multiset.range_succ, ← before, ← Multiset.singleton_add]
  calc {val.master} + ((val.globalArray.map Prod.snd : List Nat) : Multiset Nat) +
        (region.append core val.heap.next (serialId % 64)).versions +
        ((region.appendFrees core : Multiset Nat) + (val.heap.freed : Multiset Nat))
      = {val.master} + ((val.globalArray.map Prod.snd : List Nat) : Multiset Nat) +
        ((region.append core val.heap.next (serialId % 64)).versions +
          (region.appendFrees core : Multiset Nat)) + (val.heap.freed : Multiset Nat) := by abel
    _ = _ := by
        rw [appended]
        abel

theorem Value.Conserved.install (conserved : val.Conserved) (uncontended : val.rowRegion = none)
    (holds : GlobalHolds val.globalArray serials pointer)
    (bounded : ∀ serial ∈ serials, serial < 4096) : val.installRegion.Conserved := by
  have moved := @move_versions {} ∅ pointer val.globalArray holds.ascending (by simp)
    (fun entry member => by
      obtain ⟨serial, serialMem, rfl⟩ := (holds.entries entry).mp member
      exact ⟨serial, bounded serial serialMem, rfl⟩) (regionHolds_empty rfl) fun _ _ => rfl
  have none : RowRegion.versions {} = 0 := by
    rw [RowRegion.versions_eq]
    exact Finset.sum_eq_zero fun _ _ => rfl
  rw [none, add_zero] at moved
  refine conserved.congr ?_ rfl rfl
  rw [Value.owned, Value.owned, Value.inRegion, Value.inRegion, uncontended]
  simp only [Value.installRegion, moved, List.map_nil, Multiset.coe_nil]
  abel

end Rows

/-! ## Runs -/

/-- What one access does to the deleted versions: none comes back, and what a core has left
in its array is deleted with the core's first append of an epoch. -/
structure Value.Reclaims (val after : Value) : Prop where
  grows : val.heap.freed <:+ after.heap.freed
  cleared : ∀ region region' core, val.rowRegion = some region → after.rowRegion = some region' →
    core ∉ positions region.coreBitmap → core ∈ positions region'.coreBitmap →
      (∀ version ∈ (region.arrays core).slots, version ∈ after.heap.freed) ∧
        (region'.arrays core).slots = [val.heap.next]

def Value.Safe (val after : Value) : Prop := after.Conserved ∧ val.Reclaims after

section Accesses
variable {val after : Value} {region : RowRegion} {load : Workload} {key epoch : Nat}
  {phase : Phase} {pending : Nat → Nat → Option Nat} {left : Nat → Prop}

theorem Value.Reclaims.of_region (region : after.rowRegion = val.rowRegion)
    (grows : val.heap.freed <:+ after.heap.freed) : val.Reclaims after := by
  refine ⟨grows, fun before now core atBefore atNow out inside => ?_⟩
  rw [region, atBefore] at atNow
  cases atNow
  exact absurd inside out

theorem Value.Conserved.safe (conserved : val.Conserved) (owned : after.owned = val.owned)
    (region : after.rowRegion = val.rowRegion) (freed : after.heap.freed = val.heap.freed)
    (next : after.heap.next = val.heap.next) : val.Safe after :=
  ⟨conserved.congr owned freed next, .of_region region (by rw [freed])⟩

theorem RowInv.regionHolds (inv : RowInv load key epoch phase val pending left)
    (contended : val.rowRegion = some region) :
    ∃ serials pointer, RegionHolds region serials pointer := by
  have arrays := inv.arrays
  rw [ArraysOk] at arrays
  split at arrays
  · obtain ⟨-, -, uncontended, -⟩ := arrays
    cases contended.symm.trans uncontended
  · rw [rowHolds_region contended] at arrays
    exact ⟨_, _, arrays.2⟩

theorem RowInv.initialize_safe (inv : RowInv load key epoch phase val pending left)
    (conserved : val.Conserved) (newEpoch : Nat) : val.Safe (val.initializeTheRow newEpoch) := by
  refine ⟨conserved.initializeRow (fun _ _ contended => inv.regionHolds contended) newEpoch, ?_, ?_⟩
  · unfold Value.initializeTheRow
    split
    · exact (List.suffix_append _ _).trans (List.suffix_append _ _)
    · split
      · exact List.suffix_append _ _
      · exact List.suffix_rfl
    · exact List.suffix_rfl
  · -- no core has its bit set after this
    intro before now core atBefore atNow out inside
    refine absurd inside ?_
    unfold Value.initializeTheRow at atNow
    split at atNow
    · cases atBefore.symm.trans atNow
      exact out
    next region _ contended =>
      split at atNow
      · cases atNow
        show core ∉ positions (0 : Bitmap)
        rw [positions_eq_empty.mpr rfl]
        exact Finset.notMem_empty core
      · cases atBefore.symm.trans atNow
        exact out
    · cases atBefore.symm.trans atNow
      exact out

theorem RowInv.appendContended_safe (inv : RowInv load key epoch phase val pending left)
    (conserved : val.Conserved) (contended : val.rowRegion = some region) {core : Nat}
    (bound : core < 64) (serialId : Nat) :
    val.Safe (val.appendToContendedRow region core serialId) := by
  obtain ⟨serials, pointer, holds⟩ := inv.regionHolds contended
  refine ⟨conserved.appendContended contended holds bound serialId, List.suffix_append _ _, ?_⟩
  intro before now other atBefore atNow out inside
  cases contended.symm.trans atBefore
  cases atNow
  rw [RowRegion.append_eq region bound] at inside ⊢
  rw [positions_setBit bound, Finset.mem_insert] at inside
  obtain rfl : other = core := inside.resolve_right out
  have first : region.isFirstWrite other = true := by
    rw [RowRegion.isFirstWrite, Bool.not_eq_true', ← Bool.not_eq_true, isBitSet_iff bound]
    exact out
  refine ⟨fun version member => List.mem_append_left _ ?_, ?_⟩
  · rwa [RowRegion.appendFrees, first, if_pos rfl]
  · simp only [Function.update_self, RowRegion.current, if_neg out]
    simp [PerCoreVersionArray.append, countBits_eq_card]

theorem RowInv.install_safe (inv : RowInv load key epoch phase val pending left)
    (conserved : val.Conserved) (started : 1 ≤ val.epoch) (uncontended : val.rowRegion = none) :
    val.Safe val.installRegion := by
  have holds := inv.holds started
  rw [rowHolds_global uncontended] at holds
  refine ⟨conserved.install uncontended holds fun _ member => member.1.1, List.suffix_rfl, ?_⟩
  intro before _ _ atBefore
  cases uncontended.symm.trans atBefore

end Accesses

section Steps
variable {load : Workload} {state after : State} {worker : Worker} {item : Item Operation}
  {rest : List (Item Operation)}

theorem safe_of_update (conserved : ∀ key, (state.rows key).Conserved) {key : Nat} {val : Value}
    (rows : after.rows = Function.update state.rows key val) (safe : (state.rows key).Safe val)
    (other : Nat) : (state.rows other).Safe (after.rows other) := by
  rw [rows]
  by_cases same : other = key
  · subst same
    rwa [Function.update_self]
  · rw [Function.update_of_ne same]
    exact (conserved other).safe rfl rfl rfl rfl

theorem safe_of_same (conserved : ∀ key, (state.rows key).Conserved)
    (rows : after.rows = state.rows) (key : Nat) : (state.rows key).Safe (after.rows key) := by
  rw [rows]
  exact (conserved key).safe rfl rfl rfl rfl

theorem safe_tryLockRow (conserved : ∀ key, (state.rows key).Conserved) (key : Nat)
    (success failure : Pc) (other : Nat) :
    (state.rows other).Safe ((state.tryLockRow worker key success failure).rows other) := by
  rw [State.tryLockRow]
  split
  · exact safe_of_same conserved rfl other
  · exact safe_of_update conserved rfl (by exact (conserved key).safe rfl rfl rfl rfl) other

theorem Inv.initStep_safe (inv : Inv load state) (conserved : ∀ key, (state.rows key).Conserved)
    (init : state.phase = .init) (front : state.todo worker = item :: rest)
    (step : state.initStep worker item rest (state.pc worker) = some after) (key : Nat) :
    (state.rows key).Safe (after.rows key) := by
  obtain ⟨bound, shape, -, -⟩ := inv.scheduled.item_facts front
  have core : item.turn.core < 64 := by
    have : item.turn.core = item.turn.serial / 64 := congrArg (·.turn.core) shape
    omega
  have row := inv.rows item.op.key
  have mine := (pcOk_init init).mp (inv.pcs worker item rest front)
  have started := inv.started worker item rest front
  have mineConserved := conserved item.op.key
  cases pc : state.pc worker with
  | start | waitLoad =>
    rw [pc, State.initStep] at step
    split at step <;> cases step <;> exact safe_of_same conserved rfl key
  | guardTryLock | tryLock | waitTryLock =>
    rw [pc] at step
    cases step
    exact safe_tryLockRow conserved ..
  | guardLocked =>
    rw [pc] at step
    simp only [State.initStep] at step
    split at step <;> cases step
    · exact safe_of_update conserved rfl (row.initialize_safe mineConserved _) key
    · exact safe_of_same conserved rfl key
  | guardUnlock | waitUnlock =>
    rw [pc] at step
    cases step
    exact safe_of_update conserved rfl (by exact mineConserved.safe rfl rfl rfl rfl) key
  | locked =>
    rw [pc] at step
    simp only [State.initStep] at step
    split at step
    next region contended =>
      cases step
      exact safe_of_update conserved rfl
        (row.appendContended_safe mineConserved contended core _) key
    next =>
      cases step
      exact safe_of_update conserved rfl
        ⟨mineConserved.appendUncontended _, .of_region rfl List.suffix_rfl⟩ key
  | waitLocked =>
    rw [pc] at step mine
    simp only [State.initStep] at step
    split at step
    · cases step
      exact safe_of_same conserved rfl key
    next uncontended =>
      split at step
      · cases step
        exact safe_of_update conserved rfl (row.install_safe mineConserved
          (by rw [show (state.rows item.op.key).epoch = _ from mine]; exact started)
          (by simpa using uncontended)) key
      · cases step
  | contended =>
    rw [pc] at step
    simp only [State.initStep] at step
    split at step
    next region contended =>
      cases step
      exact safe_of_update conserved rfl
        (row.appendContended_safe mineConserved contended core _) key
    next => cases step
  | unlock _ | awaitStable _ | loadRecord _ | storeStable _ =>
    rw [pc] at step
    cases step

theorem execStep_safe (conserved : ∀ key, (state.rows key).Conserved) {pc : Pc}
    (step : state.execStep worker item rest pc = some after) (key : Nat) :
    (state.rows key).Safe (after.rows key) := by
  have mineConserved := conserved item.op.key
  cases pc with
  | start =>
    simp only [State.execStep] at step
    split at step <;> split at step <;> cases step
    · exact safe_of_same conserved rfl key
    · exact safe_of_same conserved rfl key
    · exact safe_of_same conserved rfl key
    · exact safe_of_update conserved rfl (by exact mineConserved.safe rfl rfl rfl rfl) key
    · exact safe_of_same conserved rfl key
  | awaitStable pointer =>
    rw [State.execStep, Option.ite_none_right_eq_some] at step
    obtain ⟨-, moved⟩ := step
    cases moved
    exact safe_of_same conserved rfl key
  | loadRecord pointer =>
    cases step
    exact safe_of_same conserved rfl key
  | storeStable pointer =>
    cases step
    exact safe_of_update conserved rfl (by exact mineConserved.safe rfl rfl rfl rfl) key
  | _ => cases step

theorem Inv.step_safe {label : Label} (inv : Inv load state)
    (conserved : ∀ key, (state.rows key).Conserved) (step : state.step load label = some after)
    (key : Nat) : (state.rows key).Safe (after.rows key) := by
  cases label with
  | worker worker =>
    rw [State.step, State.workerStep] at step
    split at step
    · cases step
      exact safe_of_update conserved rfl (by exact (conserved _).safe rfl rfl rfl rfl) key
    · cases step
    · rename_i item rest front _
      cases phase : state.phase with
      | init =>
        simp only [phase] at step
        exact inv.initStep_safe conserved phase front step key
      | exec =>
        simp only [phase] at step
        exact execStep_safe conserved step key
  | barrier | newEpoch =>
    rw [State.step, Option.ite_none_right_eq_some] at step
    obtain ⟨-, same⟩ := step
    cases same
    exact safe_of_same conserved rfl key

theorem loaded_conserved (key : Nat) : (State.loaded.rows key).Conserved := by
  show State.loadedRow.Conserved
  simp only [Value.Conserved, Value.owned, Value.inRegion, State.loadedRow]
  decide

theorem run_conserved {trace : List Label}
    (run : Run (State.step load) always State.loaded trace state) :
    Inv load state ∧ ∀ key, (state.rows key).Conserved :=
  run.invariant (fun state => Inv load state ∧ ∀ key, (state.rows key).Conserved)
    ⟨loaded_inv load, loaded_conserved⟩ fun _ _ _ both _ taken =>
      ⟨step_inv both.1 taken, fun key => (both.1.step_safe both.2 taken key).1⟩

theorem RowHolds.owned {val : Value} {serials : Set Nat} {pointer : Nat → Nat}
    (holds : RowHolds val serials pointer) {serial : Nat} (member : serial ∈ serials) :
    pointer serial ∈ val.owned := by
  rw [Value.owned]
  cases contended : val.rowRegion with
  | none =>
    rw [rowHolds_global contended] at holds
    have entry := (holds.entries (↑serial, pointer serial)).mpr ⟨serial, member, rfl⟩
    refine Multiset.mem_add.mpr (.inl (Multiset.mem_add.mpr (.inr ?_)))
    exact Multiset.mem_coe.mpr (List.mem_map.mpr ⟨_, entry, rfl⟩)
  | some region =>
    rw [rowHolds_region contended] at holds
    obtain ⟨core, tx⟩ := holds.2.holds.core_of_mem member
    refine Multiset.mem_add.mpr (.inr ?_)
    rw [inRegion_of_contended contended]
    refine mem_region_versions (lt_of_mem_positions core) ?_
    rw [holds.2.slots _ core, ranked, List.mem_map]
    exact ⟨serial % 64, (Finset.mem_sort _).mpr tx, by rw [serialId_split]⟩

/-- A reader that is about to return has a version that a place owns. -/
theorem Inv.loadRecord_owned (inv : Inv load state) (front : state.todo worker = item :: rest)
    {pointer : Nat} (pc : state.pc worker = .loadRecord pointer) :
    pointer ∈ (state.rows item.op.key).owned := by
  have mine := inv.pcs worker item rest front
  rw [pc] at mine
  cases phase : state.phase with
  | init =>
    rw [phase] at mine
    exact mine.elim
  | exec =>
    rw [phase] at mine
    obtain ⟨-, ⟨current, writer, greatest, rfl, -⟩ | ⟨rfl, -⟩⟩ := mine
    · have row := inv.rows item.op.key
      rw [phase] at row
      have holds := row.holds (by have := inv.started worker item rest front; omega)
      refine holds.owned ?_
      rw [appended_exec, current]
      exact greatest.1.1
    · rw [Value.owned]
      exact Multiset.mem_add.mpr (.inl (Multiset.mem_add.mpr (.inl
        (Multiset.mem_singleton_self _))))

end Steps

/-- No version is deleted twice, no deleted version is reachable or about to be returned, and
the next step deletes as it should. -/
structure State.ReclaimsSafely (load : Workload) (state : State) : Prop where
  once : ∀ key, (state.rows key).heap.freed.Nodup
  master : ∀ key, (state.rows key).master ∉ (state.rows key).heap.freed
  globalArray : ∀ key, ∀ entry ∈ (state.rows key).globalArray,
    entry.2 ∉ (state.rows key).heap.freed
  region : ∀ key region, (state.rows key).rowRegion = some region → ∀ core < 64,
    ∀ version ∈ (region.arrays core).slots, version ∉ (state.rows key).heap.freed
  returned : ∀ worker item rest pointer, state.todo worker = item :: rest →
    state.pc worker = .loadRecord pointer → pointer ∉ (state.rows item.op.key).heap.freed
  step : ∀ label after, state.step load label = some after →
    ∀ key, (state.rows key).Reclaims (after.rows key)

/-- Every run of Serval over any number of epochs reclaims its versions safely. -/
theorem run_reclaimsSafely {load : Workload} {state : State} {trace : List Label}
    (run : Run (State.step load) always State.loaded trace state) : state.ReclaimsSafely load := by
  obtain ⟨inv, conserved⟩ := run_conserved run
  refine ⟨fun key => (conserved key).nodup.1, fun key => ?_, fun key entry member => ?_,
    fun key region contended core bound version member => ?_,
    fun worker item rest pointer front pc => ?_,
    fun label after taken key => (inv.step_safe conserved taken key).2⟩
  · refine (conserved key).nodup.2 _ ?_
    simp [Value.owned]
  · refine (conserved key).nodup.2 _ ?_
    rw [Value.owned, Multiset.mem_add, Multiset.mem_add, Multiset.mem_coe, List.mem_map]
    exact .inl (.inr ⟨entry, member, rfl⟩)
  · refine (conserved key).nodup.2 _ ?_
    rw [Value.owned, Multiset.mem_add, inRegion_of_contended contended]
    exact .inr (mem_region_versions bound member)
  · exact (conserved item.op.key).nodup.2 _ (inv.loadRecord_owned front pc)

/-! ## A core whose array outlives an epoch -/

def twoThenOne : Workload := fun epoch =>
  { rwSet := fun serial =>
      if serial = 0 ∧ (epoch = 1 ∨ epoch = 2) ∨ serial = 64 ∧ epoch = 1 then [⟨.update, 0⟩] else []
    distinctKeys := fun serial => by split_ifs <;> simp }

def leftoverCleared : List Label :=
  [.newEpoch] ++ List.replicate 5 (.worker (workerOf 0)) ++
    List.replicate 3 (.worker (workerOf 1)) ++ List.replicate 2 (.worker (workerOf 0)) ++
    List.replicate 4 (.worker (workerOf 1)) ++ [.barrier] ++
    List.replicate 4 (.worker (workerOf 0)) ++ [.newEpoch] ++
    List.replicate 7 (.worker (workerOf 0))

theorem leftoverCleared_reclaimsSafely :
    ∃ state, Run (State.step twoThenOne) always State.loaded leftoverCleared state ∧
      (state.rows 0).master = 3 ∧ (state.rows 0).heap.freed = [2, 0, 1] ∧
      state.ReclaimsSafely twoThenOne := by
  have reached : (exec (State.step twoThenOne) State.loaded leftoverCleared).map (fun state =>
      ((state.rows 0).master, (state.rows 0).heap.freed)) = some (3, [2, 0, 1]) := by
    decide +kernel
  obtain ⟨state, success, summary⟩ := Option.map_eq_some_iff.mp reached
  obtain ⟨master, freed⟩ := Prod.mk.inj summary
  have run := Run.of_exec success
  exact ⟨state, run, master, freed, run_reclaimsSafely run⟩

end TpccRunner.Serval
