import TpccRunner.Serval.System

/-!
# The invariant of one row of Serval

`RowInv` ties the epoch of a row, its master, its arrays and its versions to the
workload.  It is a predicate of the row's own data, so a step on one row leaves
it alone for every other row; the lemmas here cover every access that changes a
row and the two barriers.
-/

set_option autoImplicit false

namespace TpccRunner.Serval

open TpccRunner.Utils TpccRunner.Lib

/-! ## The invariant -/

section Invariant
variable (load : Workload) (key epoch : Nat) (phase : Phase) (val : Value)
  (pending : Nat → Nat → Option Nat) (left : Nat → Prop)

/-- The writers whose versions the row holds: those of its epoch, less the ones
that have yet to append. -/
def Appended : Set Nat :=
  {serial ∈ load.writers key val.epoch | phase = .init → val.epoch = epoch → ¬ left serial}

def pointerOf (serial : Nat) : Nat := (pending val.epoch serial).getD 0

def ArraysOk : Prop :=
  if val.epoch = 0 then
    ∃ pointer, val.globalArray = [(-1, pointer)] ∧ val.rowRegion = none ∧
      val.heap.versions pointer = ⟨some .loaded, .stable⟩ ∧ pointer < val.heap.next
  else RowHolds val (Appended load key epoch phase val left) (pointerOf val pending)

structure VersionOk (serial : Nat) : Prop where
  known : pending val.epoch serial = some (pointerOf val pending serial)
  bounded : pointerOf val pending serial < val.heap.next
  notMaster : pointerOf val pending serial ≠ val.master
  written : (val.heap.versions (pointerOf val pending serial)).status = .stable →
    (val.heap.versions (pointerOf val pending serial)).record = some (.written val.epoch serial)
  finished : val.epoch < epoch ∨ phase = .exec ∧ ¬ left serial →
    (val.heap.versions (pointerOf val pending serial)).status = .stable

structure RowInv : Prop where
  epoch_le : val.epoch ≤ epoch
  written : 1 ≤ val.epoch → (load.writers key val.epoch).Nonempty
  since : ∀ later, val.epoch < later → later < epoch ∨ later = epoch ∧ phase = .exec →
    load.writers key later = ∅
  notStarted : phase = .init → val.epoch < epoch → ∀ serial ∈ load.writers key epoch, left serial
  master : val.master < val.heap.next ∧ ∃ record, FinalBefore load key val.epoch record ∧
    val.heap.versions val.master = ⟨some record, .stable⟩
  arrays : ArraysOk load key epoch phase val pending left
  versions : 1 ≤ val.epoch → ∀ serial ∈ Appended load key epoch phase val left,
    VersionOk epoch phase val pending left serial
  distinct : ∀ one ∈ Appended load key epoch phase val left,
    ∀ two ∈ Appended load key epoch phase val left,
      1 ≤ val.epoch → pointerOf val pending one = pointerOf val pending two → one = two

end Invariant

section RowSteps
variable {load : Workload} {key epoch : Nat} {phase : Phase} {val : Value}
  {pending : Nat → Nat → Option Nat} {left : Nat → Prop}

theorem RowInv.holds (inv : RowInv load key epoch phase val pending left)
    (started : 1 ≤ val.epoch) :
    RowHolds val (Appended load key epoch phase val left) (pointerOf val pending) := by
  have arrays := inv.arrays
  rwa [ArraysOk, if_neg (by omega)] at arrays

theorem RowInv.setLocked (inv : RowInv load key epoch phase val pending left) (locked : Bool) :
    RowInv load key epoch phase { val with locked } pending left :=
  ⟨inv.epoch_le, inv.written, inv.since, inv.notStarted, inv.master, inv.arrays,
    fun started serial member => ⟨(inv.versions started serial member).known,
      (inv.versions started serial member).bounded, (inv.versions started serial member).notMaster,
      (inv.versions started serial member).written, (inv.versions started serial member).finished⟩,
    inv.distinct⟩

theorem loadedRow_inv (load : Workload) (key : Nat) :
    RowInv load key 0 .exec State.loadedRow (fun _ _ => none) (fun _ => False) where
  epoch_le := le_rfl
  written := fun started => absurd started (by decide)
  since := fun later more cases => by
    have : (0 : Nat) < later := more
    omega
  notStarted := fun init => by cases init
  master := ⟨by decide, .loaded, ⟨none, none_of_unwritten (fun between _ below => by
    exact absurd below (Nat.not_lt_zero between)) (fun _ _ => Nat.zero_le _), rfl⟩, rfl⟩
  arrays := by
    rw [ArraysOk, if_pos (show State.loadedRow.epoch = 0 from rfl)]
    exact ⟨0, rfl, rfl, rfl, by decide⟩
  versions := fun started => absurd started (by decide)
  distinct := fun _ _ _ _ started => absurd started (by decide)

theorem RowInv.initialize (inv : RowInv load key epoch .init val pending left)
    (older : val.epoch < epoch) (arrives : (load.writers key epoch).Nonempty) :
    RowInv load key epoch .init (val.initializeTheRow epoch) pending left := by
  obtain ⟨holds, masterBound, masterFinal, newEpoch⟩ :
      RowHolds (val.initializeTheRow epoch) ∅ (pointerOf (val.initializeTheRow epoch) pending) ∧
      (val.initializeTheRow epoch).master < (val.initializeTheRow epoch).heap.next ∧
      (∃ record, FinalBefore load key epoch record ∧ (val.initializeTheRow epoch).heap.versions
        (val.initializeTheRow epoch).master = ⟨some record, .stable⟩) ∧
      (val.initializeTheRow epoch).epoch = epoch := by
    by_cases fresh : val.epoch = 0
    · -- the loaded version under id -1 becomes the master
      have arrays := inv.arrays
      rw [ArraysOk, if_pos fresh] at arrays
      obtain ⟨pointer, array, uncontended, version, bound⟩ := arrays
      have result : val.initializeTheRow epoch =
          { val with globalArray := [], master := pointer, epoch
                     heap := (val.heap.free []).free [val.master] } := by
        simp [Value.initializeTheRow, array, Value.gcMasterVersion]
      rw [result]
      refine ⟨(rowHolds_global (by exact uncontended)).mpr globalHolds_empty, bound,
        ⟨.loaded, ⟨none, none_of_unwritten (fun between positive below => ?_)
          (fun _ _ => Nat.zero_le _), rfl⟩, version⟩, rfl⟩
      exact inv.since between (by omega) (.inl below)
    · have started : 1 ≤ val.epoch := by omega
      have all : Appended load key epoch .init val left = load.writers key val.epoch := by
        ext serial
        exact ⟨And.left, fun member => ⟨member, fun _ same => absurd same older.ne⟩⟩
      obtain ⟨last, isLast⟩ := exists_last_writer (inv.written started)
      have held := inv.holds started
      rw [all] at held
      obtain ⟨holds, master, newEpoch, versions, next⟩ :=
        held.initialize isLast epoch (pointerOf (val.initializeTheRow epoch) pending)
      have ok := inv.versions started last (by rw [all]; exact isLast.1)
      have stable := ok.finished (.inl older)
      refine ⟨holds, by rw [master, next]; exact ok.bounded, ⟨.written val.epoch last, ⟨_,
        greatest_of_last started isLast older (fun between more below =>
          inv.since between more (.inl below)) (fun _ _ => Nat.zero_le _), rfl⟩, ?_⟩, newEpoch⟩
      rw [versions, master, ← ok.written stable, ← stable]
  have empty : Appended load key epoch .init (val.initializeTheRow epoch) left = ∅ := by
    refine Set.eq_empty_iff_forall_notMem.mpr fun serial member => ?_
    have writer := member.1
    rw [newEpoch] at writer
    exact member.2 rfl newEpoch (inv.notStarted rfl older serial writer)
  exact {
    epoch_le := newEpoch.le
    written := fun _ => by rwa [newEpoch]
    since := fun later more cases => by
      rw [newEpoch] at more
      rcases cases with less | ⟨-, impossible⟩
      · omega
      · cases impossible
    notStarted := fun _ less => absurd newEpoch less.ne
    master := ⟨masterBound, by rwa [newEpoch]⟩
    arrays := by
      rw [ArraysOk, if_neg (by omega), empty]
      exact holds
    versions := by simp [empty]
    distinct := by simp [empty] }

theorem RowInv.append (inv : RowInv load key epoch .init val pending left)
    (current : val.epoch = epoch) (started : 1 ≤ epoch) {serial : Nat}
    (writer : serial ∈ load.writers key epoch) {after : Value}
    {pending' : Nat → Nat → Option Nat} {left' : Nat → Prop}
    (sameEpoch : after.epoch = val.epoch) (sameMaster : after.master = val.master)
    (next : after.heap.next = val.heap.next + 1)
    (versions : after.heap.versions = Function.update val.heap.versions val.heap.next {})
    (popped : ∀ other, left' other ↔ left other ∧ other ≠ serial)
    (recorded : ∀ at' other, pending' at' other =
      if at' = epoch ∧ other = serial then some val.heap.next else pending at' other)
    (holds : ∀ pointer : Nat → Nat, pointer serial = val.heap.next →
      (∀ other, other ≠ serial → pointer other = pointerOf val pending other) →
      RowHolds after (insert serial (Appended load key epoch .init val left)) pointer) :
    RowInv load key epoch .init after pending' left' := by
  have afterEpoch : after.epoch = epoch := sameEpoch.trans current
  have inserted : Appended load key epoch .init after left' =
      insert serial (Appended load key epoch .init val left) := by
    ext other
    simp only [Appended, afterEpoch, current, popped, Set.mem_insert_iff, Set.mem_sep_iff,
      forall_const]
    by_cases same : other = serial
    · simp [same, writer]
    · simp [same]
  have newPointer : pointerOf after pending' serial = val.heap.next := by
    simp [pointerOf, recorded, afterEpoch]
  have oldPointer (other : Nat) (differs : other ≠ serial) :
      pointerOf after pending' other = pointerOf val pending other := by
    simp [pointerOf, recorded, afterEpoch, differs, current]
  have oldVersion (pointer : Nat) (old : pointer < val.heap.next) :
      after.heap.versions pointer = val.heap.versions pointer := by
    rw [versions, Function.update_of_ne old.ne]
  exact {
    epoch_le := afterEpoch.le
    written := fun _ => by rw [afterEpoch]; exact ⟨serial, writer⟩
    since := fun later more cases => by
      rw [afterEpoch] at more
      rcases cases with less | ⟨-, impossible⟩
      · omega
      · cases impossible
    notStarted := fun _ less => absurd afterEpoch less.ne
    master := by
      rw [sameMaster, next, sameEpoch, oldVersion _ inv.master.1]
      exact ⟨inv.master.1.trans (Nat.lt_succ_self _), inv.master.2⟩
    arrays := by
      rw [ArraysOk, if_neg (by omega), inserted]
      exact holds _ newPointer oldPointer
    versions := fun _ other member => by
      by_cases same : other = serial
      · subst same
        have empty : after.heap.versions (pointerOf after pending' other) = {} := by
          rw [newPointer, versions, Function.update_self]
        refine ⟨?_, by omega, by rw [newPointer, sameMaster]; exact inv.master.1.ne', ?_, ?_⟩
        · simp [newPointer, recorded, afterEpoch]
        · rw [empty]
          intro impossible
          cases impossible
        · rintro (less | ⟨impossible, -⟩)
          · omega
          · cases impossible
      · rw [inserted, Set.mem_insert_iff, or_iff_right same] at member
        have ok := inv.versions (by omega) other member
        refine ⟨?_, ?_, ?_, ?_, ?_⟩
        · rw [recorded, if_neg (by tauto), oldPointer other same, sameEpoch]
          exact ok.known
        · rw [oldPointer other same, next]
          exact ok.bounded.trans (Nat.lt_succ_self _)
        · rw [oldPointer other same, sameMaster]
          exact ok.notMaster
        · rw [oldPointer other same, oldVersion _ ok.bounded, sameEpoch]
          exact ok.written
        · rintro (less | ⟨impossible, -⟩)
          · omega
          · cases impossible
    distinct := fun one oneMem two twoMem _ equal => by
      rw [inserted, Set.mem_insert_iff] at oneMem twoMem
      have old (other : Nat) (member : other ∈ Appended load key epoch .init val left) :=
        (inv.versions (by omega) other member).bounded
      by_cases oneSame : one = serial <;> by_cases twoSame : two = serial
      · rw [oneSame, twoSame]
      · subst oneSame
        rw [newPointer, oldPointer two twoSame] at equal
        exact absurd equal (old two (twoMem.resolve_left twoSame)).ne'
      · subst twoSame
        rw [newPointer, oldPointer one oneSame] at equal
        exact absurd equal (old one (oneMem.resolve_left oneSame)).ne
      · rw [oldPointer one oneSame, oldPointer two twoSame] at equal
        exact inv.distinct one (oneMem.resolve_left oneSame) two (twoMem.resolve_left twoSame)
          (by omega) equal }

theorem RowInv.install (inv : RowInv load key epoch phase val pending left)
    (started : 1 ≤ val.epoch) (uncontended : val.rowRegion = none) :
    RowInv load key epoch phase val.installRegion pending left where
  epoch_le := inv.epoch_le
  written := inv.written
  since := inv.since
  notStarted := inv.notStarted
  master := inv.master
  arrays := by
    rw [ArraysOk, if_neg (show ¬ val.installRegion.epoch = 0 from Nat.ne_of_gt started)]
    exact (inv.holds started).install uncontended fun serial member => member.1.1
  versions := fun _ serial member =>
    have ok := inv.versions started serial member
    ⟨ok.known, ok.bounded, ok.notMaster, ok.written, ok.finished⟩
  distinct := inv.distinct

/-! ## Filling a version -/

theorem appended_exec : Appended load key epoch .exec val left = load.writers key val.epoch := by
  ext serial
  exact ⟨And.left, fun member => ⟨member, fun impossible => by cases impossible⟩⟩

theorem RowInv.current_of_writer (inv : RowInv load key epoch .exec val pending left)
    {serial : Nat} (writer : serial ∈ load.writers key epoch) : val.epoch = epoch := by
  by_contra differs
  have := inv.since epoch (lt_of_le_of_ne inv.epoch_le differs) (.inr ⟨rfl, rfl⟩)
  rw [this] at writer
  exact Set.notMem_empty _ writer

theorem RowInv.setVersion (inv : RowInv load key epoch .exec val pending left) {serial : Nat}
    (writer : serial ∈ load.writers key val.epoch) (started : 1 ≤ val.epoch) (version : Version)
    {left' : Nat → Prop} (others : ∀ other, other ≠ serial → (left' other ↔ left other))
    (written : version.status = .stable → version.record = some (.written val.epoch serial))
    (finished : val.epoch < epoch ∨ ¬ left' serial → version.status = .stable) :
    RowInv load key epoch .exec
      { val with heap := val.heap.setVersion (pointerOf val pending serial) version } pending
      left' := by
  have mine := inv.versions started serial (appended_exec ▸ writer)
  have unchanged {pointer : Nat} (differs : pointer ≠ pointerOf val pending serial) :
      (val.heap.setVersion (pointerOf val pending serial) version).versions pointer =
        val.heap.versions pointer := Heap.setVersion_of_ne _ _ differs
  refine ⟨inv.epoch_le, inv.written, inv.since, (fun impossible => by cases impossible), ?_, ?_,
    ?_, ?_⟩
  · obtain ⟨bound, record, final, content⟩ := inv.master
    exact ⟨bound, record, final, (unchanged mine.notMaster.symm).trans content⟩
  · have arrays := inv.holds started
    rw [ArraysOk, if_neg (show ¬ val.epoch = 0 by omega), appended_exec]
    rw [appended_exec] at arrays
    exact arrays
  · intro _ other member
    rw [appended_exec] at member
    have theirs := inv.versions started other (appended_exec ▸ member)
    by_cases same : other = serial
    · subst same
      have content : (val.heap.setVersion (pointerOf val pending other) version).versions
          (pointerOf val pending other) = version := Heap.setVersion_self ..
      refine ⟨theirs.known, theirs.bounded, theirs.notMaster, fun stable => ?_, fun cases => ?_⟩
      · exact (congrArg Version.record content).trans
          (written ((congrArg Version.status content).symm.trans stable))
      · exact (congrArg Version.status content).trans (finished (cases.imp_right And.right))
    · have differs : pointerOf val pending other ≠ pointerOf val pending serial := fun equal =>
        same (inv.distinct other (appended_exec ▸ member) serial (appended_exec ▸ writer) started
          equal)
      have content := unchanged differs
      refine ⟨theirs.known, theirs.bounded, theirs.notMaster, fun stable => ?_, fun cases => ?_⟩
      · exact (congrArg Version.record content).trans
          (theirs.written ((congrArg Version.status content).symm.trans stable))
      · refine (congrArg Version.status content).trans (theirs.finished (cases.imp_right ?_))
        exact fun both => ⟨rfl, fun isLeft => both.2 ((others other same).mpr isLeft)⟩
  · intro one oneMem two twoMem
    rw [appended_exec] at oneMem twoMem
    exact inv.distinct one (appended_exec ▸ oneMem) two (appended_exec ▸ twoMem)

/-! ## The barriers -/

theorem RowInv.barrier (inv : RowInv load key epoch .init val pending left)
    (quiet : ∀ serial, ¬ left serial) {left' : Nat → Prop}
    (all : ∀ serial ∈ load.writers key epoch, left' serial) :
    RowInv load key epoch .exec val pending left' := by
  have same : Appended load key epoch .exec val left' = Appended load key epoch .init val left := by
    ext serial
    simp [Appended, quiet]
  exact {
    epoch_le := inv.epoch_le
    written := inv.written
    since := fun later more cases => by
      rcases cases with less | ⟨rfl, -⟩
      · exact inv.since later more (.inl less)
      · exact Set.eq_empty_iff_forall_notMem.mpr fun serial writer =>
          quiet serial (inv.notStarted rfl more serial writer)
    notStarted := fun impossible => by cases impossible
    master := inv.master
    arrays := by
      have arrays := inv.arrays
      rwa [ArraysOk, ← same] at arrays
    versions := fun started serial member => by
      have ok := inv.versions started serial (same ▸ member)
      refine ⟨ok.known, ok.bounded, ok.notMaster, ok.written, fun cases => ?_⟩
      rcases cases with less | ⟨-, done⟩
      · exact ok.finished (.inl less)
      · rcases inv.epoch_le.lt_or_eq with less | current
        · exact ok.finished (.inl less)
        · exact absurd (all serial (current ▸ member.1)) done
    distinct := same ▸ inv.distinct }

theorem RowInv.newEpoch (inv : RowInv load key epoch .exec val pending left)
    (quiet : ∀ serial, ¬ left serial) {left' : Nat → Prop}
    (all : ∀ serial ∈ load.writers key (epoch + 1), left' serial) :
    RowInv load key (epoch + 1) .init val pending left' := by
  have older : val.epoch < epoch + 1 := Nat.lt_succ_of_le inv.epoch_le
  have same : Appended load key (epoch + 1) .init val left' =
      Appended load key epoch .exec val left := by
    ext serial
    simp [Appended, older.ne]
  exact {
    epoch_le := older.le
    written := inv.written
    since := fun later more cases => by
      rcases cases with less | ⟨-, impossible⟩
      · rcases (Nat.le_of_lt_succ less).lt_or_eq with before | now
        · exact inv.since later more (.inl before)
        · exact inv.since later more (.inr ⟨now, rfl⟩)
      · cases impossible
    notStarted := fun _ _ => all
    master := inv.master
    arrays := by
      have arrays := inv.arrays
      rwa [ArraysOk, ← same] at arrays
    versions := fun started serial member => by
      have ok := inv.versions started serial (same ▸ member)
      exact ⟨ok.known, ok.bounded, ok.notMaster, ok.written, fun _ =>
        ok.finished (.inr ⟨rfl, quiet serial⟩)⟩
    distinct := same ▸ inv.distinct }

end RowSteps

end TpccRunner.Serval
