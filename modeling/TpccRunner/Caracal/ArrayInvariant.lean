import TpccRunner.Caracal.System

/-!
# The version array of a row

`ArrayOk` says which versions the array holds: the final state of the epochs
before the current one, those of the current epoch that have reached the array,
and nothing that is not a version.  What was deleted had been superseded before
the current epoch.  Appending, alone or in a batch, and the search are specified
over it.
-/

set_option autoImplicit false

namespace TpccRunner.Caracal

open TpccRunner.Utils TpccRunner.Lib
open SortedVector (Ascending insertUpper lastBelow)

/-- The versions of a row by epoch and serial id; (0,0) is the loaded one. -/
def allVersions (load : Workload) (key : Nat) : Set (Nat ×ₗ Nat) :=
  insert (toLex (0, 0)) (load.allWriters key)

def contentOf (at' : Nat ×ₗ Nat) : Record :=
  if (ofLex at').1 = 0 then .loaded else .written (ofLex at').1 (ofLex at').2

structure ArrayHolds (array : Slots) (present : Set (Nat ×ₗ Nat)) (pointer : Nat ×ₗ Nat → Nat) :
    Prop where
  ascending : Ascending array
  fits : ∀ at' ∈ present, Fits at'
  entries : ∀ slot, slot ∈ array ↔ ∃ at' ∈ present, slot = (globalId at', pointer at')

def Old (load : Workload) (key epoch : Nat) : Set (Nat ×ₗ Nat) :=
  {at' ∈ allVersions load key | at' = toLex (0, 0) ∨ at' < toLex (epoch, 0)}

/-- The versions in the array after an epoch: one for every writer of the epoch, and
what was there before, of which only the greatest if the epoch writes the row. -/
def Kept (load : Workload) (key : Nat) : Nat → Set (Nat ×ₗ Nat)
  | 0 => {toLex (0, 0)}
  | epoch + 1 =>
    {at' | (ofLex at').1 = epoch + 1 ∧ (ofLex at').2 ∈ load.writers key (epoch + 1)} ∪
    {at' ∈ Kept load key epoch |
      (load.writers key (epoch + 1)).Nonempty → IsGreatest (Kept load key epoch) at'}

structure PresentOk (load : Workload) (key epoch : Nat) (present : Set (Nat ×ₗ Nat))
    (current : Set Nat) : Prop where
  version : ∀ at' ∈ present, at' ∈ allVersions load key ∧ at' < toLex (epoch + 1, 0)
  old : ∀ at', at' < toLex (epoch, 0) → (at' ∈ present ↔ at' ∈ Kept load key (epoch - 1) ∧
    (current.Nonempty → IsGreatest (Kept load key (epoch - 1)) at'))
  current : 1 ≤ epoch → ∀ serial, toLex (epoch, serial) ∈ present ↔ serial ∈ current
  final : ∃ last ∈ present, IsGreatest (Old load key epoch) last

/-- A deleted version had a successor before the epoch. -/
def FreedOk (load : Workload) (key epoch : Nat) (pointer : Nat ×ₗ Nat → Nat) (freed : Nat) : Prop :=
  ∃ at' ∈ allVersions load key, freed = pointer at' ∧
    ∃ later ∈ allVersions load key, at' < later ∧ later < toLex (epoch, 0)

def ArrayOk (load : Workload) (key epoch : Nat) (array : Slots) (freed : List Nat)
    (pointer : Nat ×ₗ Nat → Nat) (current : Set Nat) : Prop :=
  ∃ present, ArrayHolds array present pointer ∧ PresentOk load key epoch present current ∧
    ∀ old ∈ freed, FreedOk load key epoch pointer old

section Orders
variable {load : Workload} {key epoch : Nat}

theorem exists_toLex (at' : Nat ×ₗ Nat) : ∃ epoch serial, at' = toLex (epoch, serial) :=
  ⟨(ofLex at').1, (ofLex at').2, rfl⟩

theorem writer_of_version {serial : Nat} (positive : 1 ≤ epoch)
    (version : toLex (epoch, serial) ∈ allVersions load key) : serial ∈ load.writers key epoch := by
  rcases Set.mem_insert_iff.mp version with loaded | writer
  · have zero : epoch = 0 := congrArg (fun at' => (ofLex at').1) loaded
    omega
  · exact (mem_allWriters.mp writer).2

theorem version_of_writer {serial : Nat} (positive : 1 ≤ epoch)
    (writer : serial ∈ load.writers key epoch) : toLex (epoch, serial) ∈ allVersions load key :=
  .inr (mem_allWriters.mpr ⟨positive, writer⟩)

theorem greatest_writer_of_version {bound last : Nat ×ₗ Nat}
    (greatest : IsGreatest {at' ∈ allVersions load key | at' < bound} last) :
    ∃ found, GreatestBelow (load.allWriters key) bound found ∧ recordOf found = contentOf last ∧
      (found = none ∧ last = toLex (0, 0) ∨ found = some last) := by
  obtain ⟨⟨version, below⟩, upper⟩ := greatest
  rcases Set.mem_insert_iff.mp version with rfl | writer
  · refine ⟨none, fun other otherWriter => ?_, rfl, .inl ⟨rfl, rfl⟩⟩
    by_contra otherBelow
    have le := upper ⟨.inr otherWriter, not_le.mp otherBelow⟩
    obtain ⟨otherEpoch, otherSerial, rfl⟩ := exists_toLex other
    have positive := (mem_allWriters.mp otherWriter).1
    rcases lex_le.mp le with less | ⟨same, -⟩ <;> omega
  · refine ⟨some last, ⟨⟨writer, below⟩, fun other bounded => ?_⟩, ?_, .inr rfl⟩
    · exact upper ⟨.inr bounded.1, bounded.2⟩
    · obtain ⟨lastEpoch, lastSerial, rfl⟩ := exists_toLex last
      have positive := (mem_allWriters.mp writer).1
      exact (if_neg (show ¬ lastEpoch = 0 by omega)).symm

end Orders

section Arrays
variable {load : Workload} {key epoch : Nat} {array : Slots} {present : Set (Nat ×ₗ Nat)}
  {pointer : Nat ×ₗ Nat → Nat} {current : Set Nat} {freed : List Nat}

def collected (epoch : Nat) (present : Set (Nat ×ₗ Nat)) : Set (Nat ×ₗ Nat) :=
  {at' ∈ present | ∀ other ∈ present, other < toLex (epoch, 0) → other ≤ at'}

theorem ArrayHolds.insert (holds : ArrayHolds array present pointer) {new : Nat ×ₗ Nat}
    (fits : Fits new) (fresh : new ∉ present) :
    ArrayHolds (insertUpper (globalId new, pointer new) array) (insert new present) pointer where
  ascending := by
    refine SortedVector.insertUpper_ascending holds.ascending fun other member same => ?_
    obtain ⟨at', atMem, rfl⟩ := (holds.entries other).mp member
    exact fresh (globalId_inj (holds.fits at' atMem) fits same ▸ atMem)
  fits := by
    rintro at' (rfl | member)
    · exact fits
    · exact holds.fits at' member
  entries := fun slot => by
    rw [SortedVector.mem_insertUpper, holds.entries]
    constructor
    · rintro (rfl | ⟨at', member, rfl⟩)
      · exact ⟨new, .inl rfl, rfl⟩
      · exact ⟨at', .inr member, rfl⟩
    · rintro ⟨at', rfl | member, rfl⟩
      · exact .inl rfl
      · exact .inr ⟨at', member, rfl⟩

theorem fits_epoch (bound : epoch < 2 ^ 32) : Fits (toLex (epoch, 0)) := ⟨bound, by simp⟩

theorem ArrayHolds.gc (holds : ArrayHolds array present pointer) (bound : epoch < 2 ^ 32) :
    ArrayHolds (GlobalVersionArray.minorGc (convertToGlobalId epoch 0) array).1
      (collected epoch present) pointer where
  ascending := holds.ascending.sublist (minorGc_suffix _ array).sublist
  fits := fun at' member => holds.fits at' member.1
  entries := fun slot => by
    rw [mem_minorGc holds.ascending, holds.entries]
    have older {at' : Nat ×ₗ Nat} (member : at' ∈ present) :
        globalId at' < convertToGlobalId epoch 0 ↔ at' < toLex (epoch, 0) := by
      rw [← globalId_toLex]
      exact globalId_lt_iff (holds.fits at' member) (fits_epoch bound)
    constructor
    · rintro ⟨⟨at', member, rfl⟩, keeps⟩
      refine ⟨at', ⟨member, fun other otherMem otherOld => ?_⟩, rfl⟩
      have kept := keeps _ ((holds.entries _).mpr ⟨other, otherMem, rfl⟩)
        ((older otherMem).mpr otherOld)
      exact (globalId_le_iff (holds.fits other otherMem) (holds.fits at' member)).mp kept
    · rintro ⟨at', ⟨member, keeps⟩, rfl⟩
      refine ⟨⟨at', member, rfl⟩, fun other otherMem otherOld => ?_⟩
      obtain ⟨otherAt, otherAtMem, rfl⟩ := (holds.entries other).mp otherMem
      exact (globalId_le_iff (holds.fits otherAt otherAtMem) (holds.fits at' member)).mpr
        (keeps otherAt otherAtMem ((older otherAtMem).mp otherOld))

theorem ArrayHolds.gc_freed (holds : ArrayHolds array present pointer) (bound : epoch < 2 ^ 32)
    (version : ∀ at' ∈ present, at' ∈ allVersions load key) {old : Nat}
    (deleted : old ∈ (GlobalVersionArray.minorGc (convertToGlobalId epoch 0) array).2) :
    FreedOk load key epoch pointer old := by
  obtain ⟨slot, member, rfl, later, laterMem, above, older⟩ :=
    minorGc_freed holds.ascending deleted
  obtain ⟨at', atMem, rfl⟩ := (holds.entries slot).mp member
  obtain ⟨laterAt, laterAtMem, rfl⟩ := (holds.entries later).mp laterMem
  refine ⟨at', version at' atMem, rfl, laterAt, version laterAt laterAtMem, ?_, ?_⟩
  · exact (globalId_lt_iff (holds.fits at' atMem) (holds.fits laterAt laterAtMem)).mp above
  · rw [← globalId_toLex] at older
    exact (globalId_lt_iff (holds.fits laterAt laterAtMem) (fits_epoch bound)).mp older

theorem kept_lt {at' : Nat ×ₗ Nat} (kept : at' ∈ Kept load key epoch) :
    at' < toLex (epoch + 1, 0) := by
  induction epoch with
  | zero =>
    obtain rfl : at' = toLex (0, 0) := kept
    exact lex_lt.mpr (.inl Nat.one_pos)
  | succ epoch ih =>
    rcases kept with ⟨new, -⟩ | ⟨old, -⟩
    · obtain ⟨atEpoch, serial, rfl⟩ := exists_toLex at'
      have same : atEpoch = epoch + 1 := new
      exact lex_lt.mpr (.inl (by omega))
    · exact (ih old).trans (lex_lt.mpr (.inl (Nat.lt_succ_self _)))

theorem PresentOk.eq_kept (ok : PresentOk load key epoch present current)
    (all : 1 ≤ epoch → current = load.writers key epoch) : present = Kept load key epoch := by
  ext at'
  cases epoch with
  | zero =>
    have only {other : Nat ×ₗ Nat} (member : other ∈ present) : other = toLex (0, 0) := by
      obtain ⟨version, below⟩ := ok.version other member
      rcases Set.mem_insert_iff.mp version with loaded | writer
      · exact loaded
      · obtain ⟨otherEpoch, serial, rfl⟩ := exists_toLex other
        have positive := (mem_allWriters.mp writer).1
        have := lex_lt.mp below
        omega
    obtain ⟨last, lastMem, -⟩ := ok.final
    refine ⟨only, fun kept => ?_⟩
    obtain rfl : at' = toLex (0, 0) := kept
    rwa [← only lastMem]
  | succ epoch =>
    obtain rfl := all (Nat.succ_pos epoch)
    have currentIff := ok.current (Nat.succ_pos epoch)
    obtain ⟨atEpoch, serial, rfl⟩ := exists_toLex at'
    by_cases now : atEpoch = epoch + 1
    · subst now
      rw [currentIff]
      refine ⟨fun writer => .inl ⟨rfl, writer⟩, ?_⟩
      rintro (⟨-, writer⟩ | ⟨old, -⟩)
      · exact writer
      · have := lex_lt.mp (kept_lt old)
        omega
    · by_cases older : atEpoch < epoch + 1
      · rw [ok.old _ (lex_lt.mpr (.inl older))]
        refine ⟨.inr, ?_⟩
        rintro (⟨same, -⟩ | old)
        · exact absurd same now
        · exact old
      · refine ⟨fun member => ?_, fun kept => ?_⟩
        · have := lex_lt.mp (ok.version _ member).2
          omega
        · have := lex_lt.mp (kept_lt kept)
          omega

theorem PresentOk.append (ok : PresentOk load key epoch present current) {serial : Nat}
    (positive : 1 ≤ epoch) (writer : serial ∈ load.writers key epoch) :
    PresentOk load key epoch (collected epoch (insert (toLex (epoch, serial)) present))
      (insert serial current) where
  version := by
    rintro at' ⟨rfl | member, -⟩
    · exact ⟨version_of_writer positive writer, lex_lt.mpr (.inl (Nat.lt_succ_self _))⟩
    · exact ok.version at' member
  current := fun _ other => by
    have inserted : toLex (epoch, other) ∈ insert (toLex (epoch, serial)) present ↔
        other ∈ insert serial current := by
      rw [Set.mem_insert_iff, Set.mem_insert_iff, ok.current positive]
      simp
    refine Iff.trans ⟨And.left, fun member => ⟨member, fun another _ old => ?_⟩⟩ inserted
    exact old.le.trans (lex_le.mpr (.inr ⟨rfl, Nat.zero_le _⟩))
  final := by
    obtain ⟨last, member, greatest⟩ := ok.final
    refine ⟨last, ⟨.inr member, ?_⟩, greatest⟩
    rintro other (rfl | otherMem) old
    · exact absurd old (not_lt.mpr (lex_le.mpr (.inr ⟨rfl, Nat.zero_le _⟩)))
    · exact greatest.2 ⟨(ok.version other otherMem).1, .inr old⟩
  old := by
    intro at' older
    have notNew {other : Nat ×ₗ Nat} (otherOld : other < toLex (epoch, 0)) :
        other ∈ insert (toLex (epoch, serial)) present ↔ other ∈ present := by
      refine ⟨fun member => member.resolve_left ?_, .inr⟩
      rintro rfl
      exact absurd otherOld (not_lt.mpr (lex_le.mpr (.inr ⟨rfl, Nat.zero_le _⟩)))
    have keptOld {other : Nat ×ₗ Nat} (kept : other ∈ Kept load key (epoch - 1)) :
        other < toLex (epoch, 0) := by
      have below := kept_lt kept
      rwa [Nat.sub_add_cancel positive] at below
    constructor
    · rintro ⟨member, greatest⟩
      obtain ⟨kept, collapsed⟩ := (ok.old at' older).mp ((notNew older).mp member)
      refine ⟨kept, fun _ => ⟨kept, fun other otherKept => ?_⟩⟩
      -- the first version of the epoch finds all old versions, a later one only the greatest
      by_cases first : current.Nonempty
      · exact (collapsed first).2 otherKept
      · have otherOld := keptOld otherKept
        exact greatest other ((notNew otherOld).mpr
          ((ok.old other otherOld).mpr ⟨otherKept, fun some => absurd some first⟩)) otherOld
    · rintro ⟨-, greatest⟩
      have isGreatest := greatest ⟨serial, Set.mem_insert serial current⟩
      refine ⟨(notNew older).mpr ((ok.old at' older).mpr ⟨isGreatest.1, fun _ => isGreatest⟩), ?_⟩
      intro other member otherOld
      exact isGreatest.2 ((ok.old other otherOld).mp ((notNew otherOld).mp member)).1

theorem fits_writer {serial : Nat} (bound : epoch < 2 ^ 32)
    (writer : serial ∈ load.writers key epoch) : Fits (toLex (epoch, serial)) :=
  ⟨bound, writer.1.trans (by norm_num)⟩

theorem ArrayOk.append (ok : ArrayOk load key epoch array freed pointer current)
    (positive : 1 ≤ epoch) (bound : epoch < 2 ^ 32) {serial : Nat}
    (writer : serial ∈ load.writers key epoch) (fresh : serial ∉ current) :
    ArrayOk load key epoch
      (GlobalVersionArray.appendWithGc array (pointer (toLex (epoch, serial)))
        (convertToGlobalId epoch serial) epoch).1
      ((GlobalVersionArray.appendWithGc array (pointer (toLex (epoch, serial)))
        (convertToGlobalId epoch serial) epoch).2 ++ freed) pointer (insert serial current) := by
  obtain ⟨present, holds, presentOk, freedOk⟩ := ok
  have inserted := holds.insert (fits_writer bound writer)
    fun member => fresh ((presentOk.current positive serial).mp member)
  refine ⟨_, inserted.gc bound, presentOk.append positive writer, fun old member => ?_⟩
  rcases List.mem_append.mp member with new | before
  · refine inserted.gc_freed bound ?_ new
    rintro at' (rfl | atMem)
    · exact version_of_writer positive writer
    · exact (presentOk.version at' atMem).1
  · exact freedOk old before

theorem ArrayOk.batch {buffer : Slots} (positive : 1 ≤ epoch) (bound : epoch < 2 ^ 32)
    (ascending : Ascending buffer)
    (valid : ∀ slot ∈ buffer, ∃ serial ∈ load.writers key epoch, serial ∉ current ∧
      slot = (convertToGlobalId epoch serial, pointer (toLex (epoch, serial)))) (before : List Nat)
    (ok : ArrayOk load key epoch array (before ++ freed) pointer current) :
    let result := buffer.foldl (fun result slot =>
      let (array, freed) := GlobalVersionArray.appendWithGc result.1 slot.2 slot.1 epoch
      (array, freed ++ result.2)) (array, before)
    ArrayOk load key epoch result.1 (result.2 ++ freed) pointer
      (current ∪ {serial ∈ load.writers key epoch |
        (convertToGlobalId epoch serial, pointer (toLex (epoch, serial))) ∈ buffer}) := by
  induction buffer generalizing array before current with
  | nil => simpa using ok
  | cons slot rest ih =>
    obtain ⟨above, tail⟩ := List.pairwise_cons.mp ascending
    obtain ⟨serial, writer, fresh, rfl⟩ := valid slot (by simp)
    have sameId {other : Nat} (otherWriter : other ∈ load.writers key epoch)
        (same : convertToGlobalId epoch other = convertToGlobalId epoch serial) :
        other = serial := by
      have equal : toLex (epoch, other) = (toLex (epoch, serial) : Nat ×ₗ Nat) :=
        globalId_inj (fits_writer bound otherWriter) (fits_writer bound writer) same
      exact congrArg (fun at' => (ofLex at').2) equal
    have appended := ok.append positive bound writer fresh
    rw [← List.append_assoc] at appended
    have result := ih tail (fun other member => ?_) _ appended
    · have union : insert serial current ∪ {other ∈ load.writers key epoch |
          (convertToGlobalId epoch other, pointer (toLex (epoch, other))) ∈ rest} =
        current ∪ {other ∈ load.writers key epoch |
          (convertToGlobalId epoch other, pointer (toLex (epoch, other))) ∈
            (convertToGlobalId epoch serial, pointer (toLex (epoch, serial))) :: rest} := by
        ext other
        simp only [Set.mem_union, Set.mem_insert_iff, Set.mem_sep_iff, List.mem_cons,
          Prod.mk.injEq]
        constructor
        · rintro ((rfl | old) | ⟨otherWriter, inRest⟩)
          · exact .inr ⟨writer, .inl ⟨rfl, rfl⟩⟩
          · exact .inl old
          · exact .inr ⟨otherWriter, .inr inRest⟩
        · rintro (old | ⟨otherWriter, ⟨same, -⟩ | inRest⟩)
          · exact .inl (.inr old)
          · exact .inl (.inl (sameId otherWriter same))
          · exact .inr ⟨otherWriter, inRest⟩
      rw [union] at result
      exact result
    · obtain ⟨otherSerial, otherWriter, otherFresh, rfl⟩ :=
        valid other (List.mem_cons_of_mem _ member)
      refine ⟨otherSerial, otherWriter, ?_, rfl⟩
      rintro (rfl | old)
      · exact absurd (above _ member) (lt_irrefl _)
      · exact otherFresh old

theorem ArrayOk.congr {pointer' : Nat ×ₗ Nat → Nat}
    (ok : ArrayOk load key epoch array freed pointer current) (positive : 1 ≤ epoch)
    (same : ∀ at' ∈ allVersions load key,
      (at' < toLex (epoch, 0) ∨ ∃ serial ∈ current, at' = toLex (epoch, serial)) →
        pointer at' = pointer' at') :
    ArrayOk load key epoch array freed pointer' current := by
  obtain ⟨present, holds, presentOk, freedOk⟩ := ok
  have agree {at' : Nat ×ₗ Nat} (member : at' ∈ present) : pointer at' = pointer' at' := by
    obtain ⟨version, below⟩ := presentOk.version at' member
    refine same at' version ?_
    obtain ⟨atEpoch, serial, rfl⟩ := exists_toLex at'
    rw [lex_lt] at below ⊢
    rcases Nat.lt_or_ge atEpoch epoch with older | now
    · exact .inl (.inl older)
    · obtain rfl : atEpoch = epoch := by omega
      exact .inr ⟨serial, (presentOk.current positive serial).mp member, rfl⟩
  refine ⟨present, ⟨holds.ascending, holds.fits, fun slot => (holds.entries slot).trans ?_⟩,
    presentOk, fun old member => ?_⟩
  · constructor
    · rintro ⟨at', atMem, rfl⟩
      exact ⟨at', atMem, by rw [agree atMem]⟩
    · rintro ⟨at', atMem, rfl⟩
      exact ⟨at', atMem, by rw [agree atMem]⟩
  · obtain ⟨at', version, rfl, later, laterVersion, above, older⟩ := freedOk old member
    exact ⟨at', version, same at' version (.inl (above.trans older)), later, laterVersion, above,
      older⟩

theorem ArrayOk.newEpoch (ok : ArrayOk load key epoch array freed pointer current)
    (all : 1 ≤ epoch → current = load.writers key epoch) :
    ArrayOk load key (epoch + 1) array freed pointer ∅ := by
  obtain ⟨present, holds, presentOk, freedOk⟩ := ok
  have later {at' : Nat ×ₗ Nat} (old : at' < toLex (epoch, 0)) : at' < toLex (epoch + 1, 0) :=
    old.trans (lex_lt.mpr (.inl (Nat.lt_succ_self _)))
  refine ⟨present, holds, ⟨fun at' member => ?_, fun at' _ => ?_, fun _ serial => ?_, ?_⟩,
    fun old member => ?_⟩
  · obtain ⟨version, below⟩ := presentOk.version at' member
    exact ⟨version, below.trans (lex_lt.mpr (.inl (Nat.lt_succ_self _)))⟩
  · simp [presentOk.eq_kept all]
  · refine ⟨fun member => ?_, fun impossible => impossible.elim⟩
    have below := lex_lt.mp (presentOk.version _ member).2
    omega
  · obtain ⟨last, lastMem, greatest⟩ := presentOk.final
    by_cases written : 1 ≤ epoch ∧ (load.writers key epoch).Nonempty
    · obtain ⟨positive, nonempty⟩ := written
      obtain ⟨writer, isLast⟩ := exists_last_writer nonempty
      refine ⟨toLex (epoch, writer), (presentOk.current positive writer).mpr
        (all positive ▸ isLast.1), ⟨version_of_writer positive isLast.1,
          .inr (lex_lt.mpr (.inl (Nat.lt_succ_self _)))⟩, ?_⟩
      rintro other ⟨version, cases⟩
      obtain ⟨otherEpoch, serial, rfl⟩ := exists_toLex other
      rw [lex_le]
      have upTo : otherEpoch ≤ epoch := by
        rcases cases with loaded | below
        · have zero : otherEpoch = 0 := congrArg (fun at' => (ofLex at').1) loaded
          omega
        · have := lex_lt.mp below
          omega
      rcases upTo.lt_or_eq with less | rfl
      · exact .inl less
      · exact .inr ⟨rfl, isLast.2 (writer_of_version positive version)⟩
    · -- no version is added, so the final state is the one of the epoch before
      refine ⟨last, lastMem, ⟨greatest.1.1, greatest.1.2.imp_right later⟩, ?_⟩
      rintro other ⟨version, cases⟩
      refine greatest.2 ⟨version, ?_⟩
      obtain ⟨otherEpoch, serial, rfl⟩ := exists_toLex other
      rcases cases with loaded | below
      · exact .inl loaded
      · rcases Set.mem_insert_iff.mp version with loaded | writer
        · exact .inl loaded
        · refine .inr (lex_lt.mpr ?_)
          rcases lex_lt.mp below with less | ⟨same, impossible⟩
          · rcases (Nat.le_of_lt_succ less).lt_or_eq with older | rfl
            · exact .inl older
            · obtain ⟨positive, isWriter⟩ := mem_allWriters.mp writer
              exact absurd ⟨positive, serial, isWriter⟩ written
          · omega
  · obtain ⟨at', version, same, next, nextVersion, above, older⟩ := freedOk old member
    exact ⟨at', version, same, next, nextVersion, above, later older⟩

theorem ArrayOk.search
    (ok : ArrayOk load key epoch array freed pointer (load.writers key epoch))
    (positive : 1 ≤ epoch) (bound : epoch < 2 ^ 32) {reader : Nat} (readerBound : reader < 2 ^ 32) :
    ∃ last, IsGreatest {at' ∈ allVersions load key | at' < toLex (epoch, reader)} last ∧
      GlobalVersionArray.searchVisibleVersion array epoch reader =
        some (globalId last, pointer last) := by
  obtain ⟨present, holds, presentOk, -⟩ := ok
  obtain ⟨old, oldMem, oldGreatest⟩ := presentOk.final
  have epochFirst : (toLex (epoch, 0) : Nat ×ₗ Nat) ≤ toLex (epoch, reader) :=
    lex_le.mpr (.inr ⟨rfl, Nat.zero_le _⟩)
  have oldBelow : old < toLex (epoch, reader) := by
    rcases oldGreatest.1.2 with rfl | older
    · exact lex_lt.mpr (.inl positive)
    · exact older.trans_le epochFirst
  have readerFits : Fits (toLex (epoch, reader)) := ⟨bound, readerBound⟩
  obtain ⟨member, greatest⟩ := SortedVector.lastBelow_spec holds.ascending
    (globalId (toLex (epoch, reader)))
  cases result : lastBelow (globalId (toLex (epoch, reader))) array with
  | none =>
    rw [result] at greatest
    have above := greatest (globalId old) ⟨pointer old, (holds.entries _).mpr ⟨old, oldMem, rfl⟩⟩
    exact absurd ((globalId_le_iff readerFits (holds.fits old oldMem)).mp above)
      (not_le.mpr oldBelow)
  | some slot =>
    rw [result] at greatest member
    obtain ⟨last, lastMem, rfl⟩ := (holds.entries slot).mp (member slot rfl)
    obtain ⟨⟨-, below⟩, upper⟩ := greatest
    have greatestPresent {other : Nat ×ₗ Nat} (otherMem : other ∈ present)
        (otherBelow : other < toLex (epoch, reader)) : other ≤ last := by
      refine (globalId_le_iff (holds.fits other otherMem) (holds.fits last lastMem)).mp
        (upper ⟨⟨pointer other, (holds.entries _).mpr ⟨other, otherMem, rfl⟩⟩, ?_⟩)
      exact (globalId_lt_iff (holds.fits other otherMem) readerFits).mpr otherBelow
    refine ⟨last, ⟨⟨(presentOk.version last lastMem).1,
      (globalId_lt_iff (holds.fits last lastMem) readerFits).mp below⟩, ?_⟩, result⟩
    rintro other ⟨version, otherBelow⟩
    by_cases older : other < toLex (epoch, 0)
    · exact (oldGreatest.2 ⟨version, .inr older⟩).trans (greatestPresent oldMem oldBelow)
    · obtain ⟨otherEpoch, serial, rfl⟩ := exists_toLex other
      have now : otherEpoch = epoch := by
        rw [lex_lt] at older otherBelow
        omega
      subst now
      exact greatestPresent ((presentOk.current positive serial).mpr
        (writer_of_version positive version)) otherBelow

end Arrays

end TpccRunner.Caracal
