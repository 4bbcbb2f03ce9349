import TpccRunner.ServalRc.Phases

/-!
# The order of registration

The writers of a clean row register in any order, then its readers ask for their
versions in any order.  What the bitmaps, the placeholders and the readers end up with
depends on the two sets only.
-/

set_option autoImplicit false

namespace TpccRunner.ServalRc

open TpccRunner.Utils TpccRunner.Lib
open SortedVector (Ascending)

def WriteBitmap.updateAll (row : WriteBitmap) : List (Nat × Nat) → WriteBitmap
  | [] => row
  | writer :: rest => (row.updateBitmap writer.1 writer.2).updateAll rest

/-- The calls of the read phase; `pending` is what the readers were given, by serial id. -/
def Memory.appendAll (mem : Memory) (pending : Nat → Nat) :
    List (Nat × Nat) → (Nat → Nat) × Memory
  | [] => (pending, mem)
  | reader :: rest =>
    let (version, after) := mem.appendPendingVersion reader.1 reader.2
    after.appendAll (Function.update pending (serialId reader) version) rest

structure Arranged (writers readers : Finset (Nat × Nat)) (startMaster : Nat)
    (pending : Nat → Nat) (row : WriteBitmap) : Prop where
  cores : positions row.coreBitmap = writers.image Prod.fst
  txs : row.txBitmaps.map positions = ((writers.image Prod.fst).sort (· ≤ ·)).map
    fun core => (writers.filter (·.1 = core)).image Prod.snd
  given : ∀ reader ∈ readers,
    (∃ slot ∈ row.placeholders, GreatestBelow (writers.image serialId : Set Nat)
      (serialId reader) (some slot.1) ∧ pending (serialId reader) = slot.2) ∨
    GreatestBelow (writers.image serialId : Set Nat) (serialId reader) none ∧
      pending (serialId reader) = startMaster
  shared : ∀ one ∈ readers, ∀ two ∈ readers, ∀ oneSees twoSees,
    GreatestBelow (writers.image serialId : Set Nat) (serialId one) oneSees →
    GreatestBelow (writers.image serialId : Set Nat) (serialId two) twoSees →
      (pending (serialId one) = pending (serialId two) ↔ oneSees = twoSees)
  ascending : Ascending row.placeholders
  ids : ∀ writer, (∃ version, (writer, version) ∈ row.placeholders) ↔
    ∃ reader ∈ readers,
      GreatestBelow (writers.image serialId : Set Nat) (serialId reader) (some writer)
  refCnt : row.refCnt = readers.card
  master : row.master = startMaster

section Writers
variable {row : WriteBitmap} {serials : Set Nat} {writes : List (Nat × Nat)}

theorem insert_union_serials (first : Nat × Nat) (rest : List (Nat × Nat)) (made : Set Nat) :
    insert (serialId first) made ∪ {serial | ∃ other ∈ rest, serialId other = serial} =
      made ∪ {serial | ∃ other ∈ first :: rest, serialId other = serial} := by
  ext serial
  simp only [Set.mem_union, Set.mem_insert_iff, Set.mem_ofPred_eq, List.mem_cons,
    exists_eq_or_imp]
  rw [@eq_comm _ serial]
  tauto

theorem Registered.updateAll (registered : Registered row serials)
    (bounded : ∀ writer ∈ writes, writer.1 < 64 ∧ writer.2 < 64) :
    Registered (row.updateAll writes) (serials ∪ {serial | ∃ writer ∈ writes,
      serialId writer = serial}) := by
  induction writes generalizing row serials with
  | nil => simpa [WriteBitmap.updateAll] using registered
  | cons writer rest ih =>
    obtain ⟨coreBound, txBound⟩ := bounded writer List.mem_cons_self
    have more := ih (updateBitmap_registered registered coreBound txBound)
      fun other member => bounded other (List.mem_cons_of_mem _ member)
    rwa [insert_union_serials] at more

theorem updateAll_frame (row : WriteBitmap) (writes : List (Nat × Nat)) :
    (row.updateAll writes).refCnt = row.refCnt ∧
      (row.updateAll writes).placeholders = row.placeholders ∧
      (row.updateAll writes).master = row.master := by
  induction writes generalizing row with
  | nil => exact ⟨rfl, rfl, rfl⟩
  | cons writer rest ih =>
    obtain ⟨refCnt, placeholders, master⟩ := updateBitmap_frame row writer.1 writer.2
    obtain ⟨refCnt', placeholders', master'⟩ := ih (row.updateBitmap writer.1 writer.2)
    exact ⟨refCnt'.trans refCnt, placeholders'.trans placeholders, master'.trans master⟩

theorem Registered.bitmaps {writers : Finset (Nat × Nat)}
    (registered : Registered row (writers.image serialId : Set Nat))
    (bounded : ∀ writer ∈ writers, writer.1 < 64 ∧ writer.2 < 64) :
    positions row.coreBitmap = writers.image Prod.fst ∧
      row.txBitmaps.map positions = ((writers.image Prod.fst).sort (· ≤ ·)).map
        fun core => (writers.filter (·.1 = core)).image Prod.snd := by
  have member {core tx : Nat} (bound : tx < 64) :
      serialId (core, tx) ∈ (writers.image serialId : Set Nat) ↔ (core, tx) ∈ writers := by
    rw [Finset.mem_coe, Finset.mem_image]
    constructor
    · rintro ⟨writer, isWriter, same⟩
      obtain ⟨rfl, rfl⟩ := serialId_inj (bounded writer isWriter).2 bound same
      exact isWriter
    · exact fun isWriter => ⟨(core, tx), isWriter, rfl⟩
  obtain ⟨txs, holds, ranks⟩ := registered
  have cores : positions row.coreBitmap = writers.image Prod.fst := by
    ext core
    rw [holds.cores, Finset.mem_image]
    constructor
    · rintro ⟨tx, bound, isWriter⟩
      exact ⟨(core, tx), (member bound).mp isWriter, rfl⟩
    · rintro ⟨⟨core, tx⟩, isWriter, rfl⟩
      exact ⟨tx, (bounded _ isWriter).2, (member (bounded _ isWriter).2).mpr isWriter⟩
  refine ⟨cores, ?_⟩
  rw [ranks, ranked, List.map_map, cores]
  refine List.map_congr_left fun core inCores => ?_
  rw [Finset.mem_sort, ← cores] at inCores
  ext tx
  rw [Function.comp_apply, holds.txs core inCores, Finset.mem_image]
  constructor
  · rintro ⟨bound, isWriter⟩
    exact ⟨(core, tx), Finset.mem_filter.mpr ⟨(member bound).mp isWriter, rfl⟩, rfl⟩
  · rintro ⟨⟨_, tx⟩, filtered, rfl⟩
    obtain ⟨isWriter, rfl⟩ := Finset.mem_filter.mp filtered
    exact ⟨(bounded _ isWriter).2, (member (bounded _ isWriter).2).mpr isWriter⟩

end Writers

section Readers
variable {mem : Memory} {writers : Set Nat} {pending : Nat → Nat} {asked : Set Nat}
  {reads : List (Nat × Nat)}

theorem appendPendingVersion_placed (registered : Registered mem.row writers)
    (placed : Placed writers mem.row.master mem.next pending mem.row.placeholders asked)
    (masterOld : mem.row.master < mem.next) {reader : Nat × Nat}
    (bound : reader.1 < 64 ∧ reader.2 < 64) (fresh : serialId reader ∉ asked) :
    ∃ version after, mem.appendPendingVersion reader.1 reader.2 = (version, after) ∧
      Registered after.row writers ∧ after.row.master = mem.row.master ∧
      after.row.coreBitmap = mem.row.coreBitmap ∧ after.row.txBitmaps = mem.row.txBitmaps ∧
      after.row.refCnt = mem.row.refCnt + 1 ∧ after.row.master < after.next ∧
      Placed writers after.row.master after.next
        (Function.update pending (serialId reader) version) after.row.placeholders
        (insert (serialId reader) asked) := by
  obtain ⟨core, tx⟩ := reader
  have coreOf : serialId (core, tx) / 64 = core := by
    simp only [serialId]
    omega
  have txOf : serialId (core, tx) % 64 = tx := by
    simp only [serialId]
    omega
  have counted : Registered { mem.row with refCnt := mem.row.refCnt + 1 } writers :=
    registered.congr rfl rfl
  have cases := @doAppendPendingVersion_cases
    { mem with row := { mem.row with refCnt := mem.row.refCnt + 1 } } writers
    (serialId (core, tx)) counted (by simp only [serialId]; omega)
  rw [coreOf, txOf] at cases
  rw [Memory.appendPendingVersion]
  rcases cases with ⟨none, result⟩ | ⟨writer, greatest, ⟨version, slot, result⟩ | ⟨absent, result⟩⟩
  · exact ⟨_, _, result, counted, rfl, rfl, rfl, rfl, masterOld,
      placed.keep fresh (.inr ⟨none, rfl⟩)⟩
  · exact ⟨_, _, result, counted, rfl, rfl, rfl, rfl, masterOld,
      placed.keep fresh (.inl ⟨(writer, version), slot, greatest, rfl⟩)⟩
  · exact ⟨_, _, result, registered.congr rfl rfl, rfl, rfl, rfl, rfl,
      masterOld.trans (Nat.lt_succ_self _), placed.extend fresh greatest absent masterOld⟩

theorem appendAll_placed (registered : Registered mem.row writers)
    (placed : Placed writers mem.row.master mem.next pending mem.row.placeholders asked)
    (masterOld : mem.row.master < mem.next) (nodup : reads.Nodup)
    (bounded : ∀ reader ∈ reads, reader.1 < 64 ∧ reader.2 < 64)
    (fresh : ∀ reader ∈ reads, serialId reader ∉ asked) :
    ∃ pending' after, mem.appendAll pending reads = (pending', after) ∧
      after.row.master = mem.row.master ∧
      after.row.coreBitmap = mem.row.coreBitmap ∧ after.row.txBitmaps = mem.row.txBitmaps ∧
      after.row.refCnt = mem.row.refCnt + reads.length ∧
      Placed writers after.row.master after.next pending' after.row.placeholders
        (asked ∪ {serial | ∃ reader ∈ reads, serialId reader = serial}) := by
  induction reads generalizing mem pending asked with
  | nil => exact ⟨pending, mem, rfl, rfl, rfl, rfl, rfl, by simpa using placed⟩
  | cons reader rest ih =>
    obtain ⟨notAgain, tail⟩ := List.nodup_cons.mp nodup
    have bound := bounded reader List.mem_cons_self
    obtain ⟨version, middle, result, registered', master, cores, txs, refCnt, masterOld',
      placed'⟩ := appendPendingVersion_placed registered placed masterOld bound
        (fresh reader List.mem_cons_self)
    obtain ⟨pending', after, results, master', cores', txs', refCnt', placedAll⟩ :=
      ih registered' placed' masterOld' tail
        (fun other member => bounded other (List.mem_cons_of_mem _ member))
        fun other member known => by
          rcases known with same | known
          · have otherBound := bounded other (List.mem_cons_of_mem _ member)
            obtain ⟨core, tx⟩ := serialId_inj otherBound.2 bound.2 same
            exact notAgain (Prod.ext core tx ▸ member)
          · exact fresh other (List.mem_cons_of_mem _ member) known
    rw [insert_union_serials] at placedAll
    refine ⟨pending', after, ?_, master'.trans master, cores'.trans cores, txs'.trans txs, ?_,
      placedAll⟩
    · rw [Memory.appendAll, result]
      exact results
    · rw [refCnt', refCnt, List.length_cons]
      omega

/-- Readers share a version exactly when they see the same writer. -/
theorem Placed.shared {startMaster next : Nat} {slots : List (Nat × Nat)}
    (placed : Placed writers startMaster next pending slots asked) {one two : Nat}
    (oneAsked : one ∈ asked) (twoAsked : two ∈ asked) {oneSees twoSees : Option Nat}
    (oneGreatest : GreatestBelow writers one oneSees)
    (twoGreatest : GreatestBelow writers two twoSees) :
    pending one = pending two ↔ oneSees = twoSees := by
  rcases placed.given one oneAsked with ⟨slot, slotMem, oneSlot, oneGiven⟩ | ⟨oneNone, oneGiven⟩ <;>
    rcases placed.given two twoAsked with
      ⟨other, otherMem, twoSlot, twoGiven⟩ | ⟨twoNone, twoGiven⟩
  · rw [oneGreatest.unique oneSlot, twoGreatest.unique twoSlot, oneGiven, twoGiven,
      Option.some.injEq]
    constructor
    · intro same
      rw [placed.distinct slot slotMem other otherMem same]
    · intro same
      rw [placed.ascending.eq_of_id slotMem otherMem same]
  · rw [oneGreatest.unique oneSlot, twoGreatest.unique twoNone, oneGiven, twoGiven]
    exact iff_of_false (placed.bounded slot slotMem).2 (by simp)
  · rw [oneGreatest.unique oneNone, twoGreatest.unique twoSlot, oneGiven, twoGiven]
    exact iff_of_false (Ne.symm (placed.bounded other otherMem).2) (by simp)
  · rw [oneGreatest.unique oneNone, twoGreatest.unique twoNone, oneGiven, twoGiven]
    simp

end Readers

/-- Any order of the writers' calls, followed by any order of the readers'. -/
theorem arrival_order_irrelevant (writers readers : Finset (Nat × Nat))
    (writersBounded : ∀ writer ∈ writers, writer.1 < 64 ∧ writer.2 < 64)
    (readersBounded : ∀ reader ∈ readers, reader.1 < 64 ∧ reader.2 < 64)
    (mem : Memory) (masterOld : mem.row.master < mem.next)
    (clean : mem.row.coreBitmap = 0 ∧ mem.row.txBitmaps = [] ∧ mem.row.placeholders = [] ∧
      mem.row.refCnt = 0)
    (writes reads : List (Nat × Nat)) (writesAll : ∀ writer, writer ∈ writes ↔ writer ∈ writers)
    (readsNodup : reads.Nodup) (readsAll : ∀ reader, reader ∈ reads ↔ reader ∈ readers)
    (pending : Nat → Nat) :
    ∃ pending' after,
      { mem with row := mem.row.updateAll writes }.appendAll pending reads = (pending', after) ∧
      Arranged writers readers mem.row.master pending' after.row := by
  obtain ⟨noCores, noTxs, noSlots, unread⟩ := clean
  obtain ⟨refCnt, placeholders, master⟩ := updateAll_frame mem.row writes
  have registered := (registered_empty noCores noTxs).updateAll fun writer member =>
    writersBounded writer ((writesAll writer).mp member)
  have allWriters : ∅ ∪ {serial | ∃ writer ∈ writes, serialId writer = serial} =
      (writers.image serialId : Set Nat) := by
    ext serial
    simp [writesAll]
  rw [allWriters] at registered
  obtain ⟨cores, txs⟩ := registered.bitmaps writersBounded
  have nobody := @placed_nil (writers.image serialId : Set Nat) mem.row.master mem.next pending
  obtain ⟨pending', after, result, master', cores', txs', refCnt', placed⟩ :=
    @appendAll_placed { mem with row := mem.row.updateAll writes } _ pending ∅ reads registered
      (by simpa only [placeholders, master, noSlots] using nobody)
      (by simpa only [master] using masterOld) readsNodup
      (fun reader member => readersBounded reader ((readsAll reader).mp member))
      fun _ _ impossible => impossible
  have allReaders : ∅ ∪ {serial | ∃ reader ∈ reads, serialId reader = serial} =
      (readers.image serialId : Set Nat) := by
    ext serial
    simp [readsAll]
  rw [allReaders] at placed
  have asked {reader : Nat × Nat} (member : reader ∈ readers) :
      serialId reader ∈ (readers.image serialId : Set Nat) :=
    Finset.mem_coe.mpr (Finset.mem_image_of_mem _ member)
  have masterKept : after.row.master = mem.row.master := master'.trans master
  rw [masterKept] at placed
  refine ⟨pending', after, result, ?_⟩
  exact {
    cores := by rw [cores', cores]
    txs := by rw [txs', txs]
    given := fun reader member => placed.given _ (asked member)
    shared := fun one oneMem two twoMem oneSees twoSees oneGreatest twoGreatest =>
      placed.shared (asked oneMem) (asked twoMem) oneGreatest twoGreatest
    ascending := placed.ascending
    ids := fun writer => by
      rw [placed.ids]
      constructor
      · rintro ⟨serial, member, greatest⟩
        obtain ⟨reader, isReader, rfl⟩ := Finset.mem_image.mp (Finset.mem_coe.mp member)
        exact ⟨reader, isReader, greatest⟩
      · rintro ⟨reader, isReader, greatest⟩
        exact ⟨_, asked isReader, greatest⟩
    refCnt := by
      have same : reads.toFinset = readers := by
        ext reader
        rw [List.mem_toFinset, readsAll]
      rw [refCnt', refCnt, unread, ← same, List.toFinset_card_of_nodup readsNodup, Nat.zero_add]
    master := masterKept }

/-- Two writers of one core and one of another, four readers. -/
theorem arrival_order_irrelevant_small :
    ∃ pending' after,
      Memory.appendAll
        { row := WriteBitmap.updateAll { master := 0 } [(2, 1), (0, 63), (2, 0)]
          versions := fun _ => ⟨some .loaded, .stable⟩, next := 1 }
        (fun _ => 0) [(2, 1), (0, 63), (63, 0), (1, 5)] = (pending', after) ∧
      Arranged {(0, 63), (2, 0), (2, 1)} {(0, 63), (1, 5), (2, 1), (63, 0)} 0 pending'
        after.row :=
  arrival_order_irrelevant {(0, 63), (2, 0), (2, 1)} {(0, 63), (1, 5), (2, 1), (63, 0)}
    (by decide) (by decide)
    { row := { master := 0 }, versions := fun _ => ⟨some .loaded, .stable⟩, next := 1 } (by decide)
    ⟨rfl, rfl, rfl, rfl⟩ [(2, 1), (0, 63), (2, 0)] [(2, 1), (0, 63), (63, 0), (1, 5)]
    (by intro writer; simp; tauto) (by decide) (by intro reader; simp; tauto) fun _ => 0

end TpccRunner.ServalRc
