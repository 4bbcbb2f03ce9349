import TpccRunner.Serval.RowRegion

/-!
# What a row holds

A row holds the versions of a set of writers of one epoch, either in its global
array or in its region.  Appending, migrating, looking up and taking the last
one are described in terms of that set.
-/

set_option autoImplicit false

namespace TpccRunner.Serval

open TpccRunner.Utils TpccRunner.Lib
open SortedVector (Ascending)

structure GlobalHolds (array : GlobalVersionArray) (serials : Set Nat) (pointer : Nat → Nat) :
    Prop where
  ascending : Ascending array
  entries : ∀ entry, entry ∈ array ↔ ∃ serial ∈ serials, entry = (↑serial, pointer serial)

structure RegionHolds (region : RowRegion) (serials : Set Nat) (pointer : Nat → Nat) : Prop where
  holds : Holds region.coreBitmap region.transactionBitmap serials
  slots : ∀ core ∈ positions region.coreBitmap, (region.arrays core).slots =
    ranked (positions (region.transactionBitmap core)) fun tx => pointer (serialId (core, tx))

section Global
variable {array : GlobalVersionArray} {serials : Set Nat} {pointer : Nat → Nat}

theorem globalHolds_empty : GlobalHolds [] ∅ pointer := ⟨List.Pairwise.nil, by simp⟩

theorem GlobalHolds.congr {pointer' : Nat → Nat} (holds : GlobalHolds array serials pointer)
    (same : ∀ serial ∈ serials, pointer serial = pointer' serial) :
    GlobalHolds array serials pointer' := by
  refine ⟨holds.ascending, fun entry => (holds.entries entry).trans ?_⟩
  constructor
  · rintro ⟨serial, member, rfl⟩
    exact ⟨serial, member, by rw [same serial member]⟩
  · rintro ⟨serial, member, rfl⟩
    exact ⟨serial, member, by rw [same serial member]⟩

theorem GlobalHolds.append (holds : GlobalHolds array serials pointer) {serial : Nat}
    (fresh : serial ∉ serials) :
    GlobalHolds (array.append (pointer serial) serial) (insert serial serials) pointer := by
  constructor
  · refine SortedVector.insertUpper_ascending holds.ascending fun other member same => ?_
    obtain ⟨known, knownMem, rfl⟩ := (holds.entries other).mp member
    have : known = serial := by simpa using same
    exact fresh (this ▸ knownMem)
  · intro entry
    rw [GlobalVersionArray.append, SortedVector.mem_insertUpper, holds.entries]
    constructor
    · rintro (rfl | ⟨known, knownMem, rfl⟩)
      · exact ⟨serial, .inl rfl, rfl⟩
      · exact ⟨known, .inr knownMem, rfl⟩
    · rintro ⟨known, rfl | knownMem, rfl⟩
      · exact .inl rfl
      · exact .inr ⟨known, knownMem, rfl⟩

theorem GlobalHolds.eq_nil_iff (holds : GlobalHolds array serials pointer) :
    array = [] ↔ serials = ∅ := by
  rw [List.eq_nil_iff_forall_not_mem, Set.eq_empty_iff_forall_notMem]
  constructor
  · intro none serial member
    exact none _ ((holds.entries _).mpr ⟨serial, member, rfl⟩)
  · intro none entry member
    obtain ⟨serial, serialMem, -⟩ := (holds.entries entry).mp member
    exact none serial serialMem

theorem GlobalHolds.search (holds : GlobalHolds array serials pointer) (reader : Nat) :
    ∃ found, GreatestBelow serials reader found ∧
      (array.searchVisibleVersion reader).map Prod.snd = found.map pointer := by
  have smaller :
      array.searchVisibleVersion reader = SortedVector.lastBelow (reader : Int) array := by
    cases array with
    | nil => rfl
    | cons first rest =>
      simp only [GlobalVersionArray.searchVisibleVersion]
      split
      next notBelow =>
        rw [SortedVector.lastBelow, List.takeWhile_cons_of_neg (by simpa using notBelow)]
        rfl
      next => rfl
  rw [smaller]
  obtain ⟨member, greatest⟩ := SortedVector.lastBelow_spec holds.ascending (reader : Int)
  cases found : SortedVector.lastBelow (reader : Int) array with
  | none =>
    rw [found] at greatest
    refine ⟨none, fun serial serialMem => ?_, rfl⟩
    have := greatest serial ⟨pointer serial, (holds.entries _).mpr ⟨serial, serialMem, rfl⟩⟩
    exact_mod_cast this
  | some entry =>
    obtain ⟨serial, serialMem, rfl⟩ := (holds.entries entry).mp (member entry found)
    rw [found] at greatest
    obtain ⟨⟨-, below⟩, upper⟩ := greatest
    refine ⟨some serial, ⟨⟨serialMem, by simpa using below⟩, ?_⟩, rfl⟩
    rintro other ⟨otherMem, otherBelow⟩
    have := upper ⟨⟨pointer other, (holds.entries _).mpr ⟨other, otherMem, rfl⟩⟩,
      (by exact_mod_cast otherBelow : (other : Int) < reader)⟩
    simpa using this

theorem GlobalHolds.getLast (holds : GlobalHolds array serials pointer) {last : Nat}
    (greatest : IsGreatest serials last) : array.getLast? = some (↑last, pointer last) := by
  have member : ((last : Int), pointer last) ∈ array :=
    (holds.entries _).mpr ⟨last, greatest.1, rfl⟩
  obtain ⟨entry, lastEq⟩ := Option.isSome_iff_exists.mp
    (List.getLast?_isSome.mpr (List.ne_nil_of_mem member))
  obtain ⟨serial, serialMem, rfl⟩ := (holds.entries entry).mp (List.mem_of_getLast? lastEq)
  have above := holds.ascending.le_getLast lastEq member
  have below := greatest.2 serialMem
  have same : serial = last := le_antisymm below (by simpa using above)
  rw [lastEq, same]

end Global

section Region
variable {region : RowRegion} {serials : Set Nat} {pointer : Nat → Nat}

theorem regionHolds_empty (clean : region.coreBitmap = 0) : RegionHolds region ∅ pointer := by
  have none : positions region.coreBitmap = ∅ := positions_eq_empty.mpr clean
  exact ⟨⟨by simp [none], by simp [none]⟩, by simp [none]⟩

theorem RegionHolds.congr {pointer' : Nat → Nat} (holds : RegionHolds region serials pointer)
    (same : ∀ serial ∈ serials, pointer serial = pointer' serial) :
    RegionHolds region serials pointer' := by
  refine ⟨holds.holds, fun core member => (holds.slots core member).trans ?_⟩
  refine ranked_congr fun tx txMem => same _ ?_
  exact ((holds.holds.txs core member tx).mp txMem).2

theorem RegionHolds.coreBitmap_eq_zero (holds : RegionHolds region serials pointer) :
    region.coreBitmap = 0 ↔ serials = ∅ := by
  rw [← positions_eq_empty, Finset.eq_empty_iff_forall_notMem, Set.eq_empty_iff_forall_notMem]
  constructor
  · intro none serial member
    exact none _ (holds.holds.core_of_mem member).1
  · intro none core member
    obtain ⟨tx, -, serialMem⟩ := (holds.holds.cores core).mp member
    exact none _ serialMem

theorem append_ranked {array : PerCoreVersionArray} {value : Nat → Nat} {tx : Nat} (bound : tx < 64)
    (slots : array.slots = ranked (positions array.transactionBitmap) value)
    (above : ∀ other ∈ positions array.transactionBitmap, other < tx) (version : Nat) :
    (array.append version tx).slots = ranked (positions (array.append version tx).transactionBitmap)
      (Function.update value tx version) := by
  have all : (positions array.transactionBitmap).filter (· < tx) =
      positions array.transactionBitmap := Finset.filter_true_of_mem above
  have fresh : tx ∉ positions array.transactionBitmap := fun member =>
    lt_irrefl tx (above tx member)
  have index : countBits array.transactionBitmap =
      rank (positions array.transactionBitmap) tx := by
    rw [countBits_eq_card, rank, all]
  simp only [PerCoreVersionArray.append, positions_setBit bound]
  rw [index, slots, ranked_insert fresh]

/-- The array a core appends to: its own, or a cleared one on the first write. -/
def RowRegion.current (region : RowRegion) (core : Nat) : PerCoreVersionArray :=
  if core ∈ positions region.coreBitmap then region.arrays core else {}

theorem RowRegion.append_eq (region : RowRegion) {core : Nat} (bound : core < 64)
    (version tx : Nat) :
    region.append core version tx =
      { coreBitmap := setBitAtTheGivenLocation region.coreBitmap core
        arrays :=
          Function.update region.arrays core ((region.current core).append version tx) } := by
  have bit := @isBitSet_iff region.coreBitmap core bound
  by_cases member : core ∈ positions region.coreBitmap
  · have unchanged : setBitAtTheGivenLocation region.coreBitmap core = region.coreBitmap := by
      apply positions_injective
      rw [positions_setBit bound, Finset.insert_eq_of_mem member]
    have known : region.isFirstWrite core = false := by
      rw [RowRegion.isFirstWrite, bit.mpr member, Bool.not_true]
    rw [RowRegion.append, known, unchanged, RowRegion.current, if_pos member]
    rfl
  · have first : region.isFirstWrite core = true := by
      rw [RowRegion.isFirstWrite, Bool.not_eq_true', ← Bool.not_eq_true, bit]
      exact member
    rw [RowRegion.append, first, RowRegion.current, if_neg member]
    rfl

theorem RegionHolds.current (holds : RegionHolds region serials pointer) (core : Nat) :
    (region.current core).slots = ranked (positions (region.current core).transactionBitmap)
      (fun tx => pointer (serialId (core, tx))) ∧
    ∀ tx, tx ∈ positions (region.current core).transactionBitmap ↔
      core ∈ positions region.coreBitmap ∧ tx ∈ positions (region.transactionBitmap core) := by
  by_cases member : core ∈ positions region.coreBitmap
  · rw [RowRegion.current, if_pos member]
    exact ⟨holds.slots core member, fun tx => (and_iff_right member).symm⟩
  · rw [RowRegion.current, if_neg member]
    exact ⟨by simp, fun tx => iff_of_false (by simp) fun both => member both.1⟩

theorem RegionHolds.append (holds : RegionHolds region serials pointer) {serial : Nat}
    (bound : serial < 4096) (above : ∀ other ∈ serials, other / 64 = serial / 64 → other < serial) :
    RegionHolds (region.append (serial / 64) (pointer serial) (serial % 64))
      (insert serial serials) pointer := by
  have coreBound : serial / 64 < 64 := by omega
  have txBound : serial % 64 < 64 := by omega
  obtain ⟨slots, bits⟩ := holds.current (serial / 64)
  have smaller : ∀ other ∈ positions (region.current (serial / 64)).transactionBitmap,
      other < serial % 64 := by
    intro other otherMem
    obtain ⟨member, otherMem⟩ := (bits other).mp otherMem
    obtain ⟨otherBound, otherSerial⟩ := (holds.holds.txs _ member other).mp otherMem
    have := above _ otherSerial (by simp only [serialId]; omega)
    simp only [serialId] at this
    omega
  have pointerHere : Function.update (fun tx => pointer (serialId (serial / 64, tx)))
      (serial % 64) (pointer serial) = fun tx => pointer (serialId (serial / 64, tx)) := by
    rw [Function.update_eq_self_iff, serialId_split]
  have appended := append_ranked txBound slots smaller (pointer serial)
  rw [pointerHere] at appended
  rw [RowRegion.append_eq region coreBound]
  set array := (region.current (serial / 64)).append (pointer serial) (serial % 64)
  have bitmaps : RowRegion.transactionBitmap
      { coreBitmap := setBitAtTheGivenLocation region.coreBitmap (serial / 64)
        arrays := Function.update region.arrays (serial / 64) array } =
      Function.update region.transactionBitmap (serial / 64) array.transactionBitmap := by
    funext core
    by_cases same : core = serial / 64
    · simp only [same, RowRegion.transactionBitmap, Function.update_self]
    · simp only [RowRegion.transactionBitmap, Function.update_of_ne same]
  constructor
  · rw [bitmaps]
    have inserted := holds_insert holds.holds coreBound txBound fun other =>
      (show other ∈ positions array.transactionBitmap ↔ _ by
        rw [← bits other]
        simp only [array, PerCoreVersionArray.append, positions_setBit txBound, Finset.mem_insert])
    rwa [serialId_split] at inserted
  · intro core coreMem
    rw [bitmaps]
    by_cases same : core = serial / 64
    · simpa only [same, Function.update_self] using appended
    · rw [positions_setBit coreBound, Finset.mem_insert] at coreMem
      simpa only [Function.update_of_ne same] using holds.slots core (coreMem.resolve_left same)

theorem move_regionHolds {array : GlobalVersionArray} (ascending : Ascending array)
    (below : ∀ serial ∈ serials, ∀ entry ∈ array, (serial : Int) < entry.1)
    (valid : ∀ entry ∈ array, ∃ serial < 4096, entry = (↑serial, pointer serial))
    (holds : RegionHolds region serials pointer) :
    RegionHolds (moveGlobalArrayToRowRegion array region)
      (serials ∪ {serial | (↑serial, pointer serial) ∈ array}) pointer := by
  induction array generalizing region serials with
  | nil => simpa [moveGlobalArrayToRowRegion] using holds
  | cons entry rest ih =>
    obtain ⟨above, tail⟩ := List.pairwise_cons.mp ascending
    obtain ⟨serial, bound, rfl⟩ := valid entry (by simp)
    have smaller : ∀ other ∈ serials, other < serial := by
      intro other member
      simpa using below other member _ List.mem_cons_self
    have appended := holds.append bound fun other member _ => smaller other member
    have moved := @ih _ (insert serial serials) tail (by
      rintro other (rfl | member) entry entryMem
      · exact above entry entryMem
      · exact below other member entry (List.mem_cons_of_mem _ entryMem))
      (fun entry member => valid entry (List.mem_cons_of_mem _ member)) appended
    have all : serials ∪ {other | ((other : Int), pointer other) ∈
          ((serial : Int), pointer serial) :: rest} =
        insert serial serials ∪ {other | ((other : Int), pointer other) ∈ rest} := by
      ext other
      simp only [Set.mem_union, Set.mem_ofPred_eq, List.mem_cons, Prod.mk.injEq,
        Int.natCast_inj, Set.mem_insert_iff]
      constructor
      · rintro (member | ⟨same, -⟩ | member)
        · exact .inl (.inr member)
        · exact .inl (.inl same)
        · exact .inr member
      · rintro ((rfl | member) | member)
        · exact .inr (.inl ⟨rfl, rfl⟩)
        · exact .inl member
        · exact .inr (.inr member)
    rw [all]
    exact moved

theorem GlobalHolds.move {array : GlobalVersionArray} (holds : GlobalHolds array serials pointer)
    (bounded : ∀ serial ∈ serials, serial < 4096) :
    RegionHolds (moveGlobalArrayToRowRegion array {}) serials pointer := by
  have moved := @move_regionHolds {} ∅ pointer array holds.ascending (by simp)
    (fun entry member => by
      obtain ⟨serial, serialMem, rfl⟩ := (holds.entries entry).mp member
      exact ⟨serial, bounded serial serialMem, rfl⟩) (regionHolds_empty rfl)
  have all : ∅ ∪ {serial : Nat | ((serial : Int), pointer serial) ∈ array} = serials := by
    ext serial
    rw [Set.empty_union, Set.mem_ofPred_eq, holds.entries]
    constructor
    · rintro ⟨other, member, same⟩
      have : serial = other := by simpa using congrArg Prod.fst same
      rwa [this]
    · exact fun member => ⟨serial, member, rfl⟩
  rwa [all] at moved

theorem RegionHolds.get (holds : RegionHolds region serials pointer) {core tx : Nat}
    (coreMem : core ∈ positions region.coreBitmap)
    (txMem : tx ∈ positions (region.transactionBitmap core)) :
    (region.arrays core).get tx = pointer (serialId (core, tx)) := by
  have inside := lt_of_mem_positions txMem
  have upTo : (positions (region.transactionBitmap core)).filter (· ≤ tx) =
      insert tx ((positions (region.transactionBitmap core)).filter (· < tx)) := by
    ext other
    simp only [Finset.mem_filter, Finset.mem_insert]
    constructor
    · rintro ⟨member, le⟩
      rcases le.lt_or_eq with less | same
      · exact .inr ⟨member, less⟩
      · exact .inl same
    · rintro (rfl | ⟨member, less⟩)
      · exact ⟨txMem, le_rfl⟩
      · exact ⟨member, less.le⟩
  have index : countBits (region.transactionBitmap core &&&
      fillTheLeftSideUntilTheGivenPosition tx) - 1 =
        rank (positions (region.transactionBitmap core)) tx := by
    rw [countBits_eq_card, positions_fillUntil _ inside, upTo,
      Finset.card_insert_of_notMem (by simp), Nat.add_sub_cancel, rank]
  have got : (region.arrays core).get tx = (region.arrays core).slots.getD
      (rank (positions (region.transactionBitmap core)) tx) 0 := by
    rw [← index]
    rfl
  rw [got, holds.slots core coreMem, List.getD_eq_getElem?_getD, ranked_get txMem,
    Option.getD_some]

theorem RegionHolds.search (holds : RegionHolds region serials pointer) {reader : Nat}
    (bound : reader < 4096) :
    ∃ found, GreatestBelow serials reader found ∧
      (region.identifyVisibleVersion (reader / 64) (reader % 64)).map
        (fun visible => (region.arrays visible.1).get visible.2) = found.map pointer := by
  have visible := identifyVisibleVersion_spec holds.holds (show reader / 64 < 64 by omega)
    (show reader % 64 < 64 by omega)
  rw [serialId_split] at visible
  refine ⟨_, visible, ?_⟩
  rw [RowRegion.identifyVisibleVersion]
  cases found : Utils.identifyVisibleVersion region.coreBitmap region.transactionBitmap
      (reader / 64) (reader % 64) with
  | none => rfl
  | some pair =>
    obtain ⟨coreMem, txMem⟩ := identifyVisibleVersion_mem holds.holds
      (show reader / 64 < 64 by omega) (show reader % 64 < 64 by omega) found
    exact congrArg some (holds.get coreMem txMem)

theorem RegionHolds.popFinalState (holds : RegionHolds region serials pointer) {last : Nat}
    (greatest : IsGreatest serials last) : region.popFinalState.1 = pointer last := by
  have nonzero : region.coreBitmap ≠ 0 := by
    rw [Ne, holds.coreBitmap_eq_zero]
    exact Set.Nonempty.ne_empty ⟨last, greatest.1⟩
  have coreMem := (findTheLargest_isGreatest nonzero).1
  have lastTx := findTheLargest_isGreatest (holds.holds.txBitmap_ne_zero coreMem)
  have slots := holds.slots _ coreMem
  rw [RowRegion.popFinalState]
  simp only [PerCoreVersionArray.popLatest, slots, ranked_getLast lastTx, Option.getD_some]
  rw [(holds.holds.greatest nonzero).unique greatest]

end Region

/-! ## The row as a whole -/

/-- The versions of `serials` are in the region once there is one, and in the
global array before that. -/
def RowHolds (val : Value) (serials : Set Nat) (pointer : Nat → Nat) : Prop :=
  match val.rowRegion with
  | none => GlobalHolds val.globalArray serials pointer
  | some region => val.globalArray = [] ∧ RegionHolds region serials pointer

section Rows
variable {val : Value} {serials : Set Nat} {pointer : Nat → Nat} {region : RowRegion}

theorem rowHolds_global (uncontended : val.rowRegion = none) :
    RowHolds val serials pointer ↔ GlobalHolds val.globalArray serials pointer := by
  rw [RowHolds, uncontended]

theorem rowHolds_region (contended : val.rowRegion = some region) :
    RowHolds val serials pointer ↔ val.globalArray = [] ∧ RegionHolds region serials pointer := by
  rw [RowHolds, contended]

theorem RowHolds.congr {pointer' : Nat → Nat} (holds : RowHolds val serials pointer)
    (same : ∀ serial ∈ serials, pointer serial = pointer' serial) :
    RowHolds val serials pointer' := by
  cases contended : val.rowRegion with
  | none =>
    rw [rowHolds_global contended] at holds ⊢
    exact holds.congr same
  | some region =>
    rw [rowHolds_region contended] at holds ⊢
    exact ⟨holds.1, holds.2.congr same⟩

theorem RowHolds.appendUncontended (holds : RowHolds val serials pointer)
    (uncontended : val.rowRegion = none) {serial : Nat} (fresh : serial ∉ serials)
    (new : pointer serial = val.heap.next) :
    RowHolds (val.appendToUncontendedRow serial) (insert serial serials) pointer := by
  rw [rowHolds_global uncontended] at holds
  rw [rowHolds_global (show (val.appendToUncontendedRow serial).rowRegion = none from uncontended)]
  have appended := holds.append fresh
  rwa [new] at appended

theorem RowHolds.appendContended (holds : RowHolds val serials pointer)
    (contended : val.rowRegion = some region) {serial : Nat} (bound : serial < 4096)
    (above : ∀ other ∈ serials, other / 64 = serial / 64 → other < serial)
    (new : pointer serial = val.heap.next) :
    RowHolds (val.appendToContendedRow region (serial / 64) serial) (insert serial serials)
      pointer := by
  rw [rowHolds_region contended] at holds
  have appended := holds.2.append bound above
  rw [new] at appended
  exact ⟨holds.1, appended⟩

theorem RowHolds.install (holds : RowHolds val serials pointer) (uncontended : val.rowRegion = none)
    (bounded : ∀ serial ∈ serials, serial < 4096) : RowHolds val.installRegion serials pointer := by
  rw [rowHolds_global uncontended] at holds
  exact ⟨rfl, holds.move bounded⟩

theorem RowHolds.initialize (holds : RowHolds val serials pointer) {last : Nat}
    (greatest : IsGreatest serials last) (epoch : Nat) (pointer' : Nat → Nat) :
    RowHolds (val.initializeTheRow epoch) ∅ pointer' ∧
      (val.initializeTheRow epoch).master = pointer last ∧
      (val.initializeTheRow epoch).epoch = epoch ∧
      (val.initializeTheRow epoch).heap.versions = val.heap.versions ∧
      (val.initializeTheRow epoch).heap.next = val.heap.next := by
  cases contended : val.rowRegion with
  | none =>
    rw [rowHolds_global contended] at holds
    have last := holds.getLast greatest
    simp only [Value.initializeTheRow, last, Value.gcMasterVersion, RowHolds, contended]
    exact ⟨globalHolds_empty, trivial, trivial, rfl, rfl⟩
  | some region =>
    rw [rowHolds_region contended] at holds
    obtain ⟨empty, inRegion⟩ := holds
    have nonzero : region.coreBitmap ≠ 0 := by
      rw [Ne, inRegion.coreBitmap_eq_zero]
      exact Set.Nonempty.ne_empty ⟨last, greatest.1⟩
    simp only [Value.initializeTheRow, empty, contended, List.getLast?_nil, ne_eq, nonzero,
      not_false_eq_true, if_true, Value.gcMasterVersion, RowHolds]
    exact ⟨⟨trivial, regionHolds_empty rfl⟩, inRegion.popFinalState greatest, trivial, rfl, rfl⟩

theorem RowHolds.select (holds : RowHolds val serials pointer) (written : serials.Nonempty)
    {reader : Nat} (bound : reader < 4096) :
    ∃ found, GreatestBelow serials reader found ∧
      val.selectVersion val.epoch (reader / 64) reader =
        some (found.elim (val.master, false) fun writer => (pointer writer, true)) := by
  cases contended : val.rowRegion with
  | none =>
    rw [rowHolds_global contended] at holds
    have dirty : val.globalArray ≠ [] := by
      rw [Ne, holds.eq_nil_iff]
      exact written.ne_empty
    obtain ⟨found, greatest, searched⟩ := holds.search reader
    refine ⟨found, greatest, ?_⟩
    simp only [Value.selectVersion, ne_eq, not_true_eq_false, if_false, dirty,
      not_false_eq_true, if_true]
    cases result : val.globalArray.searchVisibleVersion reader <;> cases found <;>
      simp_all
  | some region =>
    rw [rowHolds_region contended] at holds
    obtain ⟨empty, inRegion⟩ := holds
    have nonzero : region.coreBitmap ≠ 0 := by
      rw [Ne, inRegion.coreBitmap_eq_zero]
      exact written.ne_empty
    obtain ⟨found, greatest, searched⟩ := inRegion.search bound
    refine ⟨found, greatest, ?_⟩
    simp only [Value.selectVersion, ne_eq, not_true_eq_false, if_false, empty, contended,
      nonzero, not_false_eq_true, if_true]
    cases result : region.identifyVisibleVersion (reader / 64) (reader % 64) <;>
      cases found <;> simp_all

end Rows

end TpccRunner.Serval
