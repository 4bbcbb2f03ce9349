import TpccRunner.Lib.Ranked

/-!
# 64-bit bitmaps read from the left

`utils/bitmap.hpp` numbers the bits of a word from the most significant one, so
position `0` is the leftmost bit.  A word stands for the set of positions at
which it has a one, and every helper is described by what it does to that set.
A result `-1` of the source is `none`.
-/

set_option autoImplicit false

namespace TpccRunner.Utils

open TpccRunner.Lib

abbrev Bitmap := BitVec 64

def countBits (bits : Bitmap) : Nat := (List.range 64).countP fun i => bits.getLsbD i

def setUpperBit : Bitmap := ~~~(~~~(0#64) >>> 1)

/-- The one-argument `set_bit_at_the_given_location`. -/
def bitAtTheGivenLocation (pos : Nat) : Bitmap := setUpperBit >>> pos

def setBitAtTheGivenLocation (bitmap : Bitmap) (pos : Nat) : Bitmap :=
  bitmap ||| bitAtTheGivenLocation pos

def fillTheLeftSideUntilBeforeTheGivenPosition (pos : Nat) : Bitmap :=
  if pos = 0 then 0 else setUpperBit.sshiftRight (pos - 1)

def fillTheLeftSideUntilTheGivenPosition (pos : Nat) : Bitmap := setUpperBit.sshiftRight pos

def isBitSetAtThePosition (bitmap : Bitmap) (pos : Nat) : Bool :=
  bitmap &&& bitAtTheGivenLocation pos != 0

/-- `__builtin_ffsll`: one plus the index of the lowest one, zero for no one. -/
def findTheLocationOfFirstBitFromRight (bits : Bitmap) : Nat :=
  match (List.range 64).find? fun i => bits.getLsbD i with
  | some i => i + 1
  | none => 0

def findTheLargest (bits : Bitmap) : Nat := 64 - findTheLocationOfFirstBitFromRight bits

/-- The pair is (second largest, largest). -/
def findTheTwoLargestAmongOrLessThan (bitmap : Bitmap) (pos : Nat) : Option Nat × Option Nat :=
  let smallers := bitmap &&& fillTheLeftSideUntilTheGivenPosition pos
  if smallers = 0 then (none, none)
  else
    let largestPos := findTheLargest smallers
    if countBits smallers = 1 then (none, some largestPos)
    else (some (findTheLargest (~~~bitAtTheGivenLocation largestPos &&& smallers)), some largestPos)

def findTheLargestAmongLessThan (bitmap : Bitmap) (pos : Nat) : Option Nat :=
  let smallers := bitmap &&& fillTheLeftSideUntilBeforeTheGivenPosition pos
  if smallers = 0 then none else some (findTheLargest smallers)

/-! ## The set of positions -/

def positions (bitmap : Bitmap) : Finset Nat := (Finset.range 64).filter fun p => bitmap.getMsbD p

theorem mem_positions {bitmap : Bitmap} {pos : Nat} :
    pos ∈ positions bitmap ↔ bitmap.getMsbD pos = true := by
  simp only [positions, Finset.mem_filter, Finset.mem_range, and_iff_right_iff_imp]
  intro isSet
  by_contra outside
  rw [BitVec.getMsbD_of_ge _ _ (by omega)] at isSet
  cases isSet

theorem lt_of_mem_positions {bitmap : Bitmap} {pos : Nat} (member : pos ∈ positions bitmap) :
    pos < 64 := by
  simpa using (Finset.mem_filter.mp member).1

@[simp] theorem positions_zero : positions 0#64 = ∅ := by
  ext pos
  simp [mem_positions]

theorem positions_injective {a b : Bitmap} (same : positions a = positions b) : a = b := by
  apply BitVec.eq_of_getMsbD_eq
  intro pos _
  have := congrArg (pos ∈ ·) same
  simpa [mem_positions] using this

theorem positions_eq_empty {bitmap : Bitmap} : positions bitmap = ∅ ↔ bitmap = 0 := by
  constructor
  · intro empty
    exact positions_injective (empty.trans positions_zero.symm)
  · rintro rfl
    exact positions_zero

theorem getMsbD_setUpperBit (pos : Nat) : setUpperBit.getMsbD pos = decide (pos = 0) := by
  have : setUpperBit = BitVec.intMin 64 := by decide
  rw [this, BitVec.getMsbD_intMin]
  simp

theorem getMsbD_bitAt {pos : Nat} (inside : pos < 64) (other : Nat) :
    (bitAtTheGivenLocation pos).getMsbD other = decide (other = pos) := by
  rw [bitAtTheGivenLocation, BitVec.getMsbD_ushiftRight, getMsbD_setUpperBit]
  rw [Bool.eq_iff_iff]
  simp only [Bool.and_eq_true, decide_eq_true_eq, Bool.not_eq_true', decide_eq_false_iff_not]
  omega

theorem getMsbD_fillBefore {pos : Nat} (inside : pos ≤ 64) (other : Nat) :
    (fillTheLeftSideUntilBeforeTheGivenPosition pos).getMsbD other = decide (other < pos) := by
  rw [fillTheLeftSideUntilBeforeTheGivenPosition]
  split
  next zero => simp [zero]
  next positive =>
    have upper : setUpperBit.msb = true := by decide
    rw [BitVec.getMsbD_sshiftRight, getMsbD_setUpperBit, upper, Bool.eq_iff_iff]
    split
    next =>
      simp only [Bool.and_true, decide_eq_true_eq]
      omega
    next =>
      simp only [Bool.and_eq_true, decide_eq_true_eq]
      omega

theorem getMsbD_fillUntil {pos : Nat} (inside : pos < 64) (other : Nat) :
    (fillTheLeftSideUntilTheGivenPosition pos).getMsbD other = decide (other ≤ pos) := by
  have := getMsbD_fillBefore (show pos + 1 ≤ 64 by omega) other
  simp only [fillTheLeftSideUntilBeforeTheGivenPosition, Nat.add_one_ne_zero, if_false,
    Nat.add_sub_cancel] at this
  rw [fillTheLeftSideUntilTheGivenPosition, this, decide_eq_decide]
  omega

theorem positions_setBit {bitmap : Bitmap} {pos : Nat} (inside : pos < 64) :
    positions (setBitAtTheGivenLocation bitmap pos) = insert pos (positions bitmap) := by
  ext other
  simp [mem_positions, setBitAtTheGivenLocation, getMsbD_bitAt inside, or_comm]

theorem positions_bitAt {pos : Nat} (inside : pos < 64) :
    positions (bitAtTheGivenLocation pos) = {pos} := by
  ext other
  simp [mem_positions, getMsbD_bitAt inside]

theorem positions_clearBit (bitmap : Bitmap) {pos : Nat} (inside : pos < 64) :
    positions (~~~bitAtTheGivenLocation pos &&& bitmap) = (positions bitmap).erase pos := by
  ext other
  simp only [mem_positions, BitVec.getMsbD_and, BitVec.getMsbD_not, getMsbD_bitAt inside,
    Finset.mem_erase, Bool.and_eq_true, decide_eq_true_eq, Bool.not_eq_true',
    decide_eq_false_iff_not]
  constructor
  · rintro ⟨⟨-, differs⟩, isSet⟩
    exact ⟨differs, isSet⟩
  · rintro ⟨differs, isSet⟩
    exact ⟨⟨lt_of_mem_positions (mem_positions.mpr isSet), differs⟩, isSet⟩

theorem positions_fillBefore (bitmap : Bitmap) {pos : Nat} (inside : pos ≤ 64) :
    positions (bitmap &&& fillTheLeftSideUntilBeforeTheGivenPosition pos) =
      (positions bitmap).filter (· < pos) := by
  ext other
  simp [mem_positions, getMsbD_fillBefore inside]

theorem positions_fillUntil (bitmap : Bitmap) {pos : Nat} (inside : pos < 64) :
    positions (bitmap &&& fillTheLeftSideUntilTheGivenPosition pos) =
      (positions bitmap).filter (· ≤ pos) := by
  ext other
  simp [mem_positions, getMsbD_fillUntil inside]

theorem isBitSet_iff {bitmap : Bitmap} {pos : Nat} (inside : pos < 64) :
    isBitSetAtThePosition bitmap pos = true ↔ pos ∈ positions bitmap := by
  rw [isBitSetAtThePosition, bne_iff_ne, Ne, ← positions_eq_empty, ← Ne,
    ← Finset.nonempty_iff_ne_empty]
  constructor
  · rintro ⟨other, member⟩
    simp only [mem_positions, BitVec.getMsbD_and, getMsbD_bitAt inside, Bool.and_eq_true,
      decide_eq_true_eq] at member
    obtain ⟨isSet, rfl⟩ := member
    exact mem_positions.mpr isSet
  · intro member
    refine ⟨pos, ?_⟩
    simpa [mem_positions, getMsbD_bitAt inside] using member

/-! ## Counting and searching -/

theorem getLsbD_eq_mem {bitmap : Bitmap} {i : Nat} (inside : i < 64) :
    bitmap.getLsbD i = true ↔ 63 - i ∈ positions bitmap := by
  rw [mem_positions, BitVec.getMsbD_eq_getLsbD]
  have : 64 - 1 - (63 - i) = i := by omega
  rw [this]
  simp
  omega

theorem countBits_eq_card (bits : Bitmap) : countBits bits = (positions bits).card := by
  have listed : countBits bits = ((Finset.range 64).filter fun i => bits.getLsbD i).card := by
    rw [countBits, List.countP_eq_length_filter, ← List.toFinset_range,
      ← List.toFinset_filter, List.toFinset_card_of_nodup (List.nodup_range.filter _)]
  rw [listed]
  refine Finset.card_bij' (fun i _ => 63 - i) (fun p _ => 63 - p) ?_ ?_ ?_ ?_
  · intro i member
    obtain ⟨inside, isSet⟩ := Finset.mem_filter.mp member
    exact (getLsbD_eq_mem (by simpa using inside)).mp isSet
  · intro p member
    have inside := lt_of_mem_positions member
    refine Finset.mem_filter.mpr ⟨by simp; omega, ?_⟩
    rw [getLsbD_eq_mem (by omega)]
    have : 63 - (63 - p) = p := by omega
    rwa [this]
  · intro i member
    have inside : i < 64 := by simpa using (Finset.mem_filter.mp member).1
    omega
  · intro p member
    have inside := lt_of_mem_positions member
    omega

/-- The lowest one of a word is the one with the largest position. -/
theorem findTheLargest_isGreatest {bits : Bitmap} (nonzero : bits ≠ 0) :
    IsGreatest (positions bits : Set Nat) (findTheLargest bits) := by
  obtain ⟨some, member⟩ : (positions bits).Nonempty := by
    rw [Finset.nonempty_iff_ne_empty, Ne, positions_eq_empty]
    exact nonzero
  have found : ((List.range 64).find? fun i => bits.getLsbD i).isSome := by
    rw [List.find?_isSome]
    have inside := lt_of_mem_positions member
    refine ⟨63 - some, by simp; omega, ?_⟩
    rw [getLsbD_eq_mem (by omega)]
    have : 63 - (63 - some) = some := by omega
    rwa [this]
  obtain ⟨low, lowEq⟩ := Option.isSome_iff_exists.mp found
  have largest : findTheLargest bits = 63 - low := by
    simp only [findTheLargest, findTheLocationOfFirstBitFromRight, lowEq]
    omega
  obtain ⟨isSet, index, bound, here, before⟩ := List.find?_eq_some_iff_getElem.mp lowEq
  simp only [List.length_range, List.getElem_range] at bound here before
  subst here
  rw [largest]
  refine ⟨(getLsbD_eq_mem bound).mp isSet, fun other otherMem => ?_⟩
  have inside := lt_of_mem_positions otherMem
  by_contra larger
  have := before (63 - other) (by omega)
  simp only [Bool.not_eq_true', ← Bool.not_eq_true] at this
  apply this
  rw [getLsbD_eq_mem (by omega)]
  have : 63 - (63 - other) = other := by omega
  rwa [this]

theorem findTheLargestAmongLessThan_spec (bitmap : Bitmap) {pos : Nat} (inside : pos ≤ 64) :
    GreatestBelow (positions bitmap : Set Nat) pos (findTheLargestAmongLessThan bitmap pos) := by
  have smaller := positions_fillBefore bitmap inside
  simp only [findTheLargestAmongLessThan]
  split
  next zero =>
    rw [← positions_eq_empty, smaller, Finset.filter_eq_empty_iff] at zero
    exact fun other member => not_lt.mp (zero member)
  next nonzero =>
    have greatest := findTheLargest_isGreatest nonzero
    rw [smaller] at greatest
    simpa [GreatestBelow] using greatest

theorem findTheTwoLargest_spec {bitmap : Bitmap} {pos : Nat} (inside : pos < 64)
    {second first : Option Nat}
    (found : findTheTwoLargestAmongOrLessThan bitmap pos = (second, first)) :
    GreatestBelow (positions bitmap : Set Nat) (pos + 1) first ∧
      ∀ largest ∈ first, GreatestBelow (positions bitmap : Set Nat) largest second := by
  have smaller := positions_fillUntil bitmap inside
  simp only [findTheTwoLargestAmongOrLessThan] at found
  split at found
  next zero =>
    cases found
    rw [← positions_eq_empty, smaller, Finset.filter_eq_empty_iff] at zero
    exact ⟨fun other member => not_le.mp (zero member), by simp⟩
  next nonzero =>
    have greatest := findTheLargest_isGreatest nonzero
    set largest := findTheLargest (bitmap &&& fillTheLeftSideUntilTheGivenPosition pos)
    have largestMem := greatest.1
    rw [smaller] at greatest largestMem
    simp only [Finset.coe_filter, Set.mem_ofPred_eq] at largestMem
    have first_spec : GreatestBelow (positions bitmap : Set Nat) (pos + 1) (some largest) := by
      simpa [GreatestBelow, Nat.lt_succ_iff] using greatest
    rw [countBits_eq_card] at found
    split at found
    next single =>
      cases found
      refine ⟨first_spec, ?_⟩
      rintro _ ⟨⟩ other member
      by_contra below
      rw [smaller, Finset.card_eq_one] at single
      obtain ⟨only, onlyEq⟩ := single
      have largestIs : largest = only := by
        simpa [onlyEq] using (Finset.mem_filter (p := (· ≤ pos))).mpr largestMem
      have otherIs : other = only := by
        have : other ∈ (positions bitmap).filter (· ≤ pos) :=
          Finset.mem_filter.mpr ⟨member, by omega⟩
        simpa [onlyEq] using this
      omega
    next several =>
      cases found
      refine ⟨first_spec, ?_⟩
      rintro _ ⟨⟩
      have cleared := positions_clearBit
        (bitmap &&& fillTheLeftSideUntilTheGivenPosition pos) (lt_of_mem_positions largestMem.1)
      have remaining : ~~~bitAtTheGivenLocation largest &&&
          (bitmap &&& fillTheLeftSideUntilTheGivenPosition pos) ≠ 0 := by
        rw [Ne, ← positions_eq_empty, cleared]
        intro empty
        apply several
        have member :
            largest ∈ positions (bitmap &&& fillTheLeftSideUntilTheGivenPosition pos) := by
          rw [smaller]
          exact Finset.mem_filter.mpr largestMem
        have := Finset.card_erase_of_mem member
        have positive := Finset.card_pos.mpr ⟨_, member⟩
        rw [empty, Finset.card_empty] at this
        omega
      have secondGreatest := findTheLargest_isGreatest remaining
      rw [cleared, smaller] at secondGreatest
      obtain ⟨member, upper⟩ := secondGreatest
      simp only [Finset.coe_erase, Finset.coe_filter, Set.mem_sdiff, Set.mem_ofPred_eq,
        Set.mem_singleton_iff] at member
      have below := greatest.2 (Finset.mem_filter.mpr member.1)
      refine ⟨⟨member.1.1, by omega⟩, ?_⟩
      rintro other ⟨otherMem, otherBelow⟩
      apply upper
      simp only [Finset.coe_erase, Finset.coe_filter, Set.mem_sdiff, Set.mem_ofPred_eq,
        Set.mem_singleton_iff]
      have := largestMem.2
      exact ⟨⟨otherMem, by omega⟩, by omega⟩

/-! ## Serial ids as a core and a transaction

A serial id below `4096` is `core * 64 + tx`.  One bitmap holds the cores and
one bitmap for each such core holds its transactions.
-/

/-- `identify_visible_version`, with the transaction bitmap of a core given by
`txBitmap`. -/
def identifyVisibleVersion (coreBitmap : Bitmap) (txBitmap : Nat → Bitmap) (core tx : Nat) :
    Option (Nat × Nat) :=
  match findTheTwoLargestAmongOrLessThan coreBitmap core with
  | (_, none) => none
  | (secondCore, some firstCore) =>
    if firstCore = core then
      match findTheLargestAmongLessThan (txBitmap firstCore) tx with
      | some firstTx => some (firstCore, firstTx)
      | none => secondCore.map fun other => (other, findTheLargest (txBitmap other))
    else some (firstCore, findTheLargest (txBitmap firstCore))

def serialId (pair : Nat × Nat) : Nat := pair.1 * 64 + pair.2

theorem serialId_split (serial : Nat) : serialId (serial / 64, serial % 64) = serial := by
  simp only [serialId]
  omega

/-- The two levels hold exactly the serial ids of `serials`. -/
structure Holds (coreBitmap : Bitmap) (txBitmap : Nat → Bitmap) (serials : Set Nat) : Prop where
  cores : ∀ core, core ∈ positions coreBitmap ↔ ∃ tx < 64, serialId (core, tx) ∈ serials
  txs : ∀ core ∈ positions coreBitmap, ∀ tx,
    tx ∈ positions (txBitmap core) ↔ tx < 64 ∧ serialId (core, tx) ∈ serials

section Holds
variable {coreBitmap : Bitmap} {txBitmap : Nat → Bitmap} {serials : Set Nat}

theorem Holds.core_of_mem (holds : Holds coreBitmap txBitmap serials) {serial : Nat}
    (member : serial ∈ serials) :
    serial / 64 ∈ positions coreBitmap ∧ serial % 64 ∈ positions (txBitmap (serial / 64)) := by
  have core : serial / 64 ∈ positions coreBitmap :=
    (holds.cores _).mpr ⟨serial % 64, by omega, by rwa [serialId_split]⟩
  exact ⟨core, (holds.txs _ core _).mpr ⟨by omega, by rwa [serialId_split]⟩⟩

theorem Holds.txBitmap_ne_zero (holds : Holds coreBitmap txBitmap serials) {core : Nat}
    (member : core ∈ positions coreBitmap) : txBitmap core ≠ 0 := by
  obtain ⟨tx, txBound, serialMem⟩ := (holds.cores core).mp member
  rw [Ne, ← positions_eq_empty]
  intro empty
  have := (holds.txs core member tx).mpr ⟨txBound, serialMem⟩
  simp [empty] at this

/-- The transactions of a core and the writers on it are in bijection. -/
theorem Holds.card_core (holds : Holds coreBitmap txBitmap serials) {core : Nat}
    (member : core ∈ positions coreBitmap) :
    {serial ∈ serials | serial / 64 = core}.ncard = (positions (txBitmap core)).card := by
  have image : {serial ∈ serials | serial / 64 = core} =
      (fun tx => serialId (core, tx)) '' (positions (txBitmap core) : Set Nat) := by
    ext serial
    simp only [Set.mem_ofPred_eq, Set.mem_image, Finset.mem_coe]
    constructor
    · rintro ⟨isWriter, rfl⟩
      refine ⟨serial % 64, ?_, serialId_split serial⟩
      rw [holds.txs _ member]
      exact ⟨Nat.mod_lt _ (by decide), by rwa [serialId_split]⟩
    · rintro ⟨tx, txMem, rfl⟩
      obtain ⟨bound, isWriter⟩ := (holds.txs core member tx).mp txMem
      refine ⟨isWriter, ?_⟩
      simp only [serialId]
      omega
  rw [image, Set.InjOn.ncard_image, Set.ncard_coe_finset]
  intro one _ two _ same
  simpa [serialId] using same

/-- The last transaction of the greatest core below a bound is the greatest
serial id below it. -/
theorem Holds.greatest_of_core (holds : Holds coreBitmap txBitmap serials) {core bound : Nat}
    (greatest : IsGreatest {other ∈ (positions coreBitmap : Set Nat) | other < bound} core) :
    IsGreatest {serial ∈ serials | serial < bound * 64}
      (serialId (core, findTheLargest (txBitmap core))) := by
  obtain ⟨⟨member, below⟩, upper⟩ := greatest
  obtain ⟨lastMem, lastUpper⟩ := findTheLargest_isGreatest (holds.txBitmap_ne_zero member)
  obtain ⟨lastBound, lastSerial⟩ := (holds.txs core member _).mp lastMem
  refine ⟨⟨lastSerial, by simp only [serialId]; omega⟩, ?_⟩
  rintro serial ⟨otherMem, otherBelow⟩
  obtain ⟨otherCore, otherTx⟩ := holds.core_of_mem otherMem
  have coreLe : serial / 64 ≤ core := upper ⟨otherCore, by omega⟩
  simp only [serialId]
  rcases coreLe.lt_or_eq with less | same
  · omega
  · rw [same] at otherTx
    have := lastUpper otherTx
    omega

/-- The search over the two levels finds the greatest serial id below the
reader's. -/
theorem identifyVisibleVersion_spec (holds : Holds coreBitmap txBitmap serials) {core tx : Nat}
    (coreBound : core < 64) (txBound : tx < 64) :
    GreatestBelow serials (serialId (core, tx))
      ((identifyVisibleVersion coreBitmap txBitmap core tx).map serialId) := by
  rcases found : findTheTwoLargestAmongOrLessThan coreBitmap core with ⟨second, first⟩
  obtain ⟨firstSpec, secondSpec⟩ := findTheTwoLargest_spec coreBound found
  have sameCore {serial : Nat} (member : serial ∈ serials)
      (below : serial < serialId (core, tx)) : serial / 64 ∈ positions coreBitmap ∧
        serial / 64 ≤ core := by
    refine ⟨(holds.core_of_mem member).1, ?_⟩
    simp only [serialId] at below
    omega
  cases first with
  | none =>
    simp only [identifyVisibleVersion, found, Option.map_none]
    intro serial member
    by_contra below
    obtain ⟨coreMem, coreLe⟩ := sameCore member (not_le.mp below)
    have := firstSpec (serial / 64) coreMem
    omega
  | some firstCore =>
    simp only [identifyVisibleVersion, found]
    have firstMem : firstCore ∈ positions coreBitmap := firstSpec.1.1
    have firstBelow : firstCore < core + 1 := firstSpec.1.2
    by_cases same : firstCore = core
    · subst same
      rw [if_pos rfl]
      have txSpec := findTheLargestAmongLessThan_spec (txBitmap firstCore)
        (show tx ≤ 64 by omega)
      cases txFound : findTheLargestAmongLessThan (txBitmap firstCore) tx with
      | some firstTx =>
        -- a smaller transaction of the reader's own core
        rw [txFound] at txSpec
        obtain ⟨⟨txMem, txBelow⟩, txUpper⟩ := txSpec
        refine ⟨⟨((holds.txs _ firstMem _).mp txMem).2, by simp only [serialId]; omega⟩, ?_⟩
        rintro serial ⟨member, below⟩
        obtain ⟨-, coreLe⟩ := sameCore member below
        obtain ⟨-, serialTx⟩ := holds.core_of_mem member
        simp only [serialId] at below ⊢
        rcases coreLe.lt_or_eq with less | sameSerial
        · omega
        · rw [sameSerial] at serialTx
          have := txUpper ⟨serialTx, by omega⟩
          omega
      | none =>
        -- otherwise the last transaction of the core before it
        rw [txFound] at txSpec
        have above {serial : Nat} (member : serial ∈ serials)
            (below : serial < serialId (firstCore, tx)) : serial < firstCore * 64 := by
          by_contra inside
          obtain ⟨-, coreLe⟩ := sameCore member below
          have sameSerial : serial / 64 = firstCore := by omega
          obtain ⟨-, serialTx⟩ := holds.core_of_mem member
          rw [sameSerial] at serialTx
          have := txSpec _ serialTx
          simp only [serialId] at below
          omega
        have secondGreatest := secondSpec firstCore rfl
        have narrowed : ∀ serial < serialId (firstCore, tx),
            serial ∈ {serial ∈ serials | serial < firstCore * 64} ↔ serial ∈ serials :=
          fun serial below => ⟨And.left, fun member => ⟨member, above member below⟩⟩
        refine GreatestBelow.congr narrowed ?_
        cases second with
        | none =>
          rintro serial ⟨member, below⟩
          have := secondGreatest (serial / 64) (holds.core_of_mem member).1
          omega
        | some secondCore =>
          have greatest := holds.greatest_of_core secondGreatest
          refine ⟨⟨greatest.1, ?_⟩, fun serial bounded => greatest.2 bounded.1⟩
          have := greatest.1.2
          simp only [serialId] at this ⊢
          omega
    · rw [if_neg same]
      have greatest := holds.greatest_of_core firstSpec
      have below : firstCore < core := by omega
      refine ⟨⟨greatest.1.1, ?_⟩, ?_⟩
      · have lastMem := (findTheLargest_isGreatest (holds.txBitmap_ne_zero firstMem)).1
        have bound := ((holds.txs _ firstMem _).mp lastMem).1
        simp only [serialId]
        omega
      · rintro serial ⟨member, serialBelow⟩
        apply greatest.2
        refine ⟨member, ?_⟩
        simp only [serialId] at serialBelow
        omega

theorem identifyVisibleVersion_mem (holds : Holds coreBitmap txBitmap serials) {core tx : Nat}
    (coreBound : core < 64) (txBound : tx < 64) {pair : Nat × Nat}
    (visible : identifyVisibleVersion coreBitmap txBitmap core tx = some pair) :
    pair.1 ∈ positions coreBitmap ∧ pair.2 ∈ positions (txBitmap pair.1) := by
  rcases found : findTheTwoLargestAmongOrLessThan coreBitmap core with ⟨second, first⟩
  obtain ⟨firstSpec, secondSpec⟩ := findTheTwoLargest_spec coreBound found
  have last {other : Nat} (member : other ∈ positions coreBitmap) :
      findTheLargest (txBitmap other) ∈ positions (txBitmap other) :=
    (findTheLargest_isGreatest (holds.txBitmap_ne_zero member)).1
  simp only [identifyVisibleVersion, found] at visible
  cases first with
  | none => cases visible
  | some firstCore =>
    have firstMem : firstCore ∈ positions coreBitmap := firstSpec.1.1
    simp only at visible
    split at visible
    next =>
      have txSpec := findTheLargestAmongLessThan_spec (txBitmap firstCore)
        (show tx ≤ 64 by omega)
      split at visible
      next firstTx txFound =>
        cases visible
        rw [txFound] at txSpec
        exact ⟨firstMem, txSpec.1.1⟩
      next =>
        obtain ⟨secondCore, rfl, rfl⟩ := Option.map_eq_some_iff.mp visible
        have secondMem : secondCore ∈ positions coreBitmap := (secondSpec firstCore rfl).1.1
        exact ⟨secondMem, last secondMem⟩
    next =>
      cases visible
      exact ⟨firstMem, last firstMem⟩

theorem Holds.greatest (holds : Holds coreBitmap txBitmap serials) (nonzero : coreBitmap ≠ 0) :
    IsGreatest serials (serialId (findTheLargest coreBitmap,
      findTheLargest (txBitmap (findTheLargest coreBitmap)))) := by
  have greatestCore := findTheLargest_isGreatest nonzero
  have amongAll : IsGreatest {other ∈ (positions coreBitmap : Set Nat) | other < 64}
      (findTheLargest coreBitmap) :=
    ⟨⟨greatestCore.1, lt_of_mem_positions greatestCore.1⟩,
      fun other member => greatestCore.2 member.1⟩
  have bounded := holds.greatest_of_core amongAll
  refine ⟨bounded.1.1, fun serial member => bounded.2 ⟨member, ?_⟩⟩
  have := lt_of_mem_positions (holds.core_of_mem member).1
  omega

theorem serialId_inj {core tx core' tx' : Nat} (txBound : tx < 64) (txBound' : tx' < 64)
    (same : serialId (core, tx) = serialId (core', tx')) : core = core' ∧ tx = tx' := by
  simp only [serialId] at same
  omega

theorem holds_insert {txs : Nat → Bitmap} {entry : Bitmap} {core tx : Nat}
    (holds : Holds coreBitmap txs serials) (coreBound : core < 64) (txBound : tx < 64)
    (entryPositions : ∀ other, other ∈ positions entry ↔
      other = tx ∨ (core ∈ positions coreBitmap ∧ other ∈ positions (txs core))) :
    Holds (setBitAtTheGivenLocation coreBitmap core) (Function.update txs core entry)
      (insert (serialId (core, tx)) serials) := by
  constructor
  · intro other
    rw [positions_setBit coreBound, Finset.mem_insert, holds.cores other]
    constructor
    · rintro (rfl | ⟨otherTx, bound, member⟩)
      · exact ⟨tx, txBound, .inl rfl⟩
      · exact ⟨otherTx, bound, .inr member⟩
    · rintro ⟨otherTx, bound, same | member⟩
      · exact .inl (serialId_inj bound txBound same).1
      · exact .inr ⟨otherTx, bound, member⟩
  · intro other otherMem otherTx
    rw [positions_setBit coreBound, Finset.mem_insert] at otherMem
    by_cases same : other = core
    · subst same
      rw [Function.update_self, entryPositions]
      constructor
      · rintro (rfl | ⟨member, txMem⟩)
        · exact ⟨txBound, .inl rfl⟩
        · exact ⟨lt_of_mem_positions txMem, .inr ((holds.txs _ member _).mp txMem).2⟩
      · rintro ⟨bound, here | member⟩
        · exact .inl (serialId_inj bound txBound here).2
        · have registeredCore := (holds.cores other).mpr ⟨otherTx, bound, member⟩
          exact .inr ⟨registeredCore, (holds.txs _ registeredCore _).mpr ⟨bound, member⟩⟩
    · rw [Function.update_of_ne same,
        holds.txs other (otherMem.resolve_left same)]
      refine and_congr_right fun bound => ?_
      rw [Set.mem_insert_iff, or_iff_right]
      exact fun here => same (serialId_inj bound txBound here).1

end Holds

end TpccRunner.Utils
