import TpccRunner.Serval.RowHolds

/-!
# The assertions of the per-core arrays

`RowRegion::append`, `PerCoreVersionArray::append` and `update_transaction_bitmap` with
their assertions, in the order of the source; a failed one stops the program with its
text.  Pointers are never null here, so `assert(version)` is left out.
-/

set_option autoImplicit false

namespace TpccRunner.Serval

open TpccRunner.Utils TpccRunner.Lib

/-- `assert`. -/
def require (text : String) (condition : Bool) : Except String Unit :=
  if condition then .ok () else .error text

/-- `MAX_SLOTS_OF_PER_CORE_ARRAY`. -/
def maxSlotsOfPerCoreArray : Nat := 64

namespace PerCoreVersionArray

def length (array : PerCoreVersionArray) : Nat := countBits array.transactionBitmap

def updateTransactionBitmap (array : PerCoreVersionArray) (txId : Nat) :
    Except String PerCoreVersionArray := do
  let bits := array.transactionBitmap
  require "!is_bit_set_at_the_position(transaction_bitmap_, tx_id)"
    (!isBitSetAtThePosition bits txId)
  require "pos < 64" (txId < 64)
  let updated := setBitAtTheGivenLocation bits txId
  require "bits != transaction_bitmap_" (bits != updated)
  require "popcount(bits) + 1 == popcount(transaction_bitmap_)"
    (countBits bits + 1 == countBits updated)
  require "is_bit_set_at_the_position(transaction_bitmap_, tx_id)"
    (isBitSetAtThePosition updated txId)
  return { array with transactionBitmap := updated }

def appendAsserted (array : PerCoreVersionArray) (version txId : Nat) :
    Except String PerCoreVersionArray := do
  require "tx_id < 64" (txId < 64)
  require "length() < MAX_SLOTS_OF_PER_CORE_ARRAY" (array.length < maxSlotsOfPerCoreArray)
  let len := array.length
  let debugLen := array.slots.length
  require "len == (int)slots_.size()" (len == array.slots.length)
  require "slots_.size() < 64" (array.slots.length < 64)
  let slots := array.slots.insertIdx len version
  -- the same bound again, now with the new version in
  require "slots_.size() < 64" (slots.length < 64)
  require "debug_len + 1 == slots_.size()" (debugLen + 1 == slots.length)
  require "!is_bit_set_at_the_position(transaction_bitmap_, tx_id)"
    (!isBitSetAtThePosition array.transactionBitmap txId)
  let after ← updateTransactionBitmap { array with slots } txId
  require "is_bit_set_at_the_position(transaction_bitmap_, tx_id)"
    (isBitSetAtThePosition after.transactionBitmap txId)
  require "len + 1 == length()" (len + 1 == after.length)
  require "length() == (int)slots_.size()" (after.length == after.slots.length)
  return after

end PerCoreVersionArray

def RowRegion.appendAsserted (region : RowRegion) (core version tx : Nat) :
    Except String RowRegion := do
  require "tx < 64" (tx < 64)
  let current :=
    if region.isFirstWrite core then
      { coreBitmap := region.coreBitmap ||| bitAtTheGivenLocation core
        arrays := Function.update region.arrays core {} }
    else region
  require "is_bit_set_at_the_position(core_bitmap_, core)"
    (isBitSetAtThePosition current.coreBitmap core)
  let array ← (current.arrays core).appendAsserted version tx
  return { current with arrays := Function.update current.arrays core array }

def RowRegion.appendEpoch (region : RowRegion) (core : Nat) (version : Nat → Nat) :
    List Nat → Except String RowRegion
  | [] => .ok region
  | tx :: rest =>
    match region.appendAsserted core (version tx) tx with
    | .ok after => after.appendEpoch core version rest
    | .error text => .error text

/-! ## The assertions that hold -/

theorem require_true {text : String} {condition : Bool} (holds : condition = true) :
    require text condition = .ok () := by
  rw [require, if_pos holds]

theorem require_false {text : String} {condition : Bool} (fails : condition = false) :
    require text condition = .error text := by
  rw [require, fails, if_neg (by decide)]

section Arrays
variable {array : PerCoreVersionArray} {version : Nat → Nat} {txs : List Nat} {tx : Nat}

structure Filled (array : PerCoreVersionArray) (version : Nat → Nat) (txs : List Nat) : Prop where
  ascending : txs.Pairwise (· < ·)
  slots : array.slots = txs.map version
  bits : positions array.transactionBitmap = txs.toFinset

theorem filled_nil (version : Nat → Nat) : Filled {} version [] :=
  ⟨List.Pairwise.nil, rfl, positions_zero⟩

theorem Filled.length (filled : Filled array version txs) : array.length = txs.length := by
  rw [PerCoreVersionArray.length, countBits_eq_card, filled.bits,
    List.toFinset_card_of_nodup (filled.ascending.imp fun less => less.ne)]

theorem Filled.slots_length (filled : Filled array version txs) :
    array.slots.length = txs.length := by
  rw [filled.slots, List.length_map]

theorem Filled.append (filled : Filled array version txs) (bound : tx < 64)
    (above : ∀ other ∈ txs, other < tx) :
    Filled (array.append (version tx) tx) version (txs ++ [tx]) where
  ascending := List.pairwise_append.mpr ⟨filled.ascending, List.pairwise_singleton _ _,
    fun other member last same => by
      rw [List.mem_singleton.mp same]
      exact above other member⟩
  slots := by
    have index : countBits array.transactionBitmap = (txs.map version).length := by
      rw [List.length_map]
      exact filled.length
    rw [PerCoreVersionArray.append, filled.slots, index, List.insertIdx_length_self,
      List.map_append, List.map_singleton]
  bits := by
    rw [PerCoreVersionArray.append, positions_setBit bound, filled.bits]
    ext other
    simp

theorem Filled.fresh (filled : Filled array version txs) (bound : tx < 64)
    (above : ∀ other ∈ txs, other < tx) :
    isBitSetAtThePosition array.transactionBitmap tx = false := by
  rw [← Bool.not_eq_true, isBitSet_iff bound, filled.bits, List.mem_toFinset]
  exact fun member => lt_irrefl tx (above tx member)

theorem isBitSet_setBit (bitmap : Bitmap) (bound : tx < 64) :
    isBitSetAtThePosition (setBitAtTheGivenLocation bitmap tx) tx = true := by
  rw [isBitSet_iff bound, positions_setBit bound]
  exact Finset.mem_insert_self _ _

theorem Filled.updateTransactionBitmap (filled : Filled array version txs) (bound : tx < 64)
    (above : ∀ other ∈ txs, other < tx) (slots : List Nat) :
    PerCoreVersionArray.updateTransactionBitmap { array with slots } tx =
      .ok { slots, transactionBitmap := setBitAtTheGivenLocation array.transactionBitmap tx } := by
  have fresh := filled.fresh bound above
  have appended := filled.append bound above
  have isSet := isBitSet_setBit array.transactionBitmap bound
  have differs : array.transactionBitmap ≠ setBitAtTheGivenLocation array.transactionBitmap tx := by
    intro same
    rw [← same, fresh] at isSet
    cases isSet
  have counted : countBits array.transactionBitmap + 1 =
      countBits (setBitAtTheGivenLocation array.transactionBitmap tx) := by
    have before := filled.length
    have after := appended.length
    rw [List.length_append, List.length_singleton] at after
    rw [PerCoreVersionArray.length] at before after
    rw [before]
    exact after.symm
  simp only [PerCoreVersionArray.updateTransactionBitmap, fresh, isSet, Bool.not_false,
    require_true, decide_eq_true bound, bne_iff_ne.mpr differs, beq_iff_eq.mpr counted]
  rfl

theorem Filled.appendAsserted (filled : Filled array version txs) (bound : tx < 64)
    (above : ∀ other ∈ txs, other < tx) (room : txs.length < 63) :
    array.appendAsserted (version tx) tx = .ok (array.append (version tx) tx) := by
  have fresh := filled.fresh bound above
  have appended := filled.append bound above
  have isSet := isBitSet_setBit array.transactionBitmap bound
  have inserted : (array.slots.insertIdx txs.length (version tx)).length = txs.length + 1 := by
    rw [filled.slots, List.length_insertIdx_of_le_length (by rw [List.length_map]),
      List.length_map]
  have counted : PerCoreVersionArray.length
      { slots := array.slots.insertIdx txs.length (version tx)
        transactionBitmap := setBitAtTheGivenLocation array.transactionBitmap tx } =
        txs.length + 1 := by
    have after := appended.length
    rwa [List.length_append, List.length_singleton] at after
  have below : txs.length < 64 := by omega
  have stillBelow : txs.length + 1 < 64 := by omega
  simp only [PerCoreVersionArray.appendAsserted, filled.length, filled.slots_length, inserted,
    fresh, filled.updateTransactionBitmap bound above, maxSlotsOfPerCoreArray, require_true,
    decide_eq_true bound, decide_eq_true below, decide_eq_true stillBelow, beq_self_eq_true,
    Bool.not_false, isSet, counted, bind, Except.bind, pure, Except.pure]
  rw [PerCoreVersionArray.append, ← filled.length, PerCoreVersionArray.length]

theorem Filled.appendAsserted_full (filled : Filled array version txs) (bound : tx < 64)
    (full : txs.length = 63) :
    array.appendAsserted (version tx) tx = .error "slots_.size() < 64" := by
  have inserted : (array.slots.insertIdx 63 (version tx)).length = 64 := by
    rw [filled.slots, List.length_insertIdx_of_le_length (by rw [List.length_map, full]),
      List.length_map, full]
  have refused : decide ((array.slots.insertIdx 63 (version tx)).length < 64) = false := by
    rw [inserted]
    rfl
  simp only [PerCoreVersionArray.appendAsserted, filled.length, filled.slots_length, full,
    maxSlotsOfPerCoreArray, require_true, decide_eq_true bound, beq_self_eq_true,
    require_false refused, bind, Except.bind, show decide (63 < 64) = true from rfl]

end Arrays

section Regions
variable {region : RowRegion} {core : Nat} {version : Nat → Nat} {txs : List Nat} {tx : Nat}

theorem RowRegion.appendAsserted_eq (coreBound : core < 64) (txBound : tx < 64) :
    region.appendAsserted core (version tx) tx =
      ((region.current core).appendAsserted (version tx) tx).map fun array =>
        { coreBitmap := setBitAtTheGivenLocation region.coreBitmap core
          arrays := Function.update region.arrays core array } := by
  have bit := @isBitSet_iff region.coreBitmap core coreBound
  have isSet : isBitSetAtThePosition (setBitAtTheGivenLocation region.coreBitmap core) core =
      true := by
    rw [isBitSet_iff coreBound, positions_setBit coreBound]
    exact Finset.mem_insert_self _ _
  by_cases member : core ∈ positions region.coreBitmap
  · have known : region.isFirstWrite core = false := by
      rw [RowRegion.isFirstWrite, bit.mpr member, Bool.not_true]
    have unchanged : setBitAtTheGivenLocation region.coreBitmap core = region.coreBitmap := by
      apply positions_injective
      rw [positions_setBit coreBound, Finset.insert_eq_of_mem member]
    rw [unchanged] at isSet ⊢
    simp only [RowRegion.appendAsserted, known, RowRegion.current, if_pos member,
      require_true, decide_eq_true txBound, isSet, Bool.false_eq_true, if_false, bind, Except.bind]
    cases (region.arrays core).appendAsserted (version tx) tx <;> rfl
  · have first : region.isFirstWrite core = true := by
      rw [RowRegion.isFirstWrite, Bool.not_eq_true', ← Bool.not_eq_true, bit]
      exact member
    have isSetHere : isBitSetAtThePosition (region.coreBitmap ||| bitAtTheGivenLocation core)
        core = true := isSet
    simp only [RowRegion.appendAsserted, first, RowRegion.current, if_neg member, if_true,
      require_true, decide_eq_true txBound, isSetHere, Function.update_self, bind, Except.bind,
      Function.update_idem]
    cases PerCoreVersionArray.appendAsserted {} (version tx) tx <;> rfl

theorem RowRegion.current_update (coreBound : core < 64) (array : PerCoreVersionArray) :
    RowRegion.current
      { coreBitmap := setBitAtTheGivenLocation region.coreBitmap core
        arrays := Function.update region.arrays core array } core = array := by
  have member : core ∈ positions (setBitAtTheGivenLocation region.coreBitmap core) := by
    rw [positions_setBit coreBound]
    exact Finset.mem_insert_self _ _
  rw [RowRegion.current, if_pos member]
  exact Function.update_self ..

theorem appendEpoch_fits (coreBound : core < 64) {before : List Nat}
    (filled : Filled (region.current core) version before)
    (ascending : (before ++ txs).Pairwise (· < ·)) (bounded : ∀ tx ∈ txs, tx < 64)
    (room : (before ++ txs).length < 64) :
    ∃ after, region.appendEpoch core version txs = .ok after ∧
      Filled (after.current core) version (before ++ txs) := by
  induction txs generalizing region before with
  | nil => exact ⟨region, rfl, by simpa using filled⟩
  | cons tx rest ih =>
    have bound := bounded tx List.mem_cons_self
    have above : ∀ other ∈ before, other < tx := fun other member =>
      (List.pairwise_append.mp ascending).2.2 other member tx List.mem_cons_self
    have smaller : before.length < 63 := by
      rw [List.length_append, List.length_cons] at room
      omega
    have appended := filled.append bound above
    have taken := filled.appendAsserted bound above smaller
    have split : before ++ tx :: rest = before ++ [tx] ++ rest := by simp
    rw [split] at ascending room ⊢
    have step := @RowRegion.appendAsserted_eq region core version tx coreBound bound
    rw [taken] at step
    rw [← @RowRegion.current_update region core coreBound
      ((region.current core).append (version tx) tx)] at appended
    obtain ⟨after, done, result⟩ := ih appended ascending
      (fun other member => bounded other (List.mem_cons_of_mem _ member)) room
    refine ⟨after, ?_, result⟩
    rw [RowRegion.appendEpoch, step]
    exact done

theorem appendEpoch_append (first second : List Nat) {middle : RowRegion}
    (done : region.appendEpoch core version first = .ok middle) :
    region.appendEpoch core version (first ++ second) =
      middle.appendEpoch core version second := by
  induction first generalizing region with
  | nil =>
    cases done
    rfl
  | cons tx rest ih =>
    rw [RowRegion.appendEpoch] at done
    rw [List.cons_append, RowRegion.appendEpoch]
    cases step : region.appendAsserted core (version tx) tx with
    | error text =>
      rw [step] at done
      cases done
    | ok next =>
      rw [step] at done
      exact ih done

theorem filled_of_leftover (leftover : core ∉ positions region.coreBitmap) :
    Filled (region.current core) version [] := by
  rw [RowRegion.current, if_neg leftover]
  exact filled_nil version

end Regions

/-- The appends of a core in one epoch, over whatever its array still holds: up to 63
versions pass every assertion and end up in the array, the 64th is refused. -/
theorem appendEpoch_completes (region : RowRegion) (core : Nat) (coreBound : core < 64)
    (leftover : core ∉ positions region.coreBitmap) (version : Nat → Nat) (txs : List Nat)
    (ascending : txs.Pairwise (· < ·)) (bounded : ∀ tx ∈ txs, tx < 64) (nonempty : txs ≠ []) :
    (txs.length ≤ 63 → ∃ after, region.appendEpoch core version txs = .ok after ∧
      (after.arrays core).slots = txs.map version ∧
      positions (after.arrays core).transactionBitmap = txs.toFinset) ∧
    (txs.length = 64 →
      region.appendEpoch core version txs = .error "slots_.size() < 64") := by
  have start := @filled_of_leftover region core version leftover
  constructor
  · intro room
    obtain ⟨after, done, filled⟩ :=
      appendEpoch_fits coreBound start ascending bounded (by simpa using Nat.lt_succ_of_le room)
    have written : core ∈ positions after.coreBitmap := by
      by_contra unwritten
      have empty := filled.slots
      rw [RowRegion.current, if_neg unwritten] at empty
      exact nonempty (List.map_eq_nil_iff.mp empty.symm)
    rw [RowRegion.current, if_pos written] at filled
    exact ⟨after, done, filled.slots, filled.bits⟩
  · intro full
    obtain ⟨before, last, rfl⟩ : ∃ before last, txs = before ++ [last] :=
      ⟨txs.dropLast, txs.getLast nonempty, (List.dropLast_append_getLast nonempty).symm⟩
    have short : before.length = 63 := by simpa using full
    obtain ⟨middle, done, filled⟩ := appendEpoch_fits coreBound start
      (List.pairwise_append.mp ascending).1
      (fun tx member => bounded tx (List.mem_append_left _ member)) (by simp [short])
    have bound : last < 64 := bounded last (by simp)
    have refused := filled.appendAsserted_full bound short
    rw [appendEpoch_append before [last] done, RowRegion.appendEpoch,
      RowRegion.appendAsserted_eq coreBound bound, refused]
    rfl

/-- Three versions over an array that still holds two of an earlier epoch. -/
theorem appendEpoch_completes_leftover :
    ∃ after, RowRegion.appendEpoch
        { arrays := fun _ => { transactionBitmap := 3, slots := [1, 2] } } 7 (· + 100) [0, 5, 63] =
        .ok after ∧
      (after.arrays 7).slots = [100, 105, 163] ∧
      positions (after.arrays 7).transactionBitmap = {0, 5, 63} := by
  obtain ⟨fits, -⟩ := appendEpoch_completes
    { arrays := fun _ => { transactionBitmap := 3, slots := [1, 2] } } 7 (by decide) (by simp)
    (· + 100) [0, 5, 63] (by decide) (by decide) (by decide)
  simpa using fits (by decide)

/-- A core that writes the row in all its 64 transactions of an epoch. -/
theorem fullEpoch_refused :
    RowRegion.appendEpoch {} 0 (· + 100) (List.range 64) = .error "slots_.size() < 64" := by
  have failed : (RowRegion.appendEpoch {} 0 (· + 100) (List.range 64)).map (fun _ => ()) =
      .error "slots_.size() < 64" := by
    decide +kernel
  cases result : RowRegion.appendEpoch {} 0 (· + 100) (List.range 64) with
  | ok after =>
    rw [result] at failed
    cases failed
  | error text =>
    rw [result] at failed
    cases failed
    rfl

end TpccRunner.Serval
