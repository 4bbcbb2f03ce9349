import TpccRunner.Lib.BitFields
import TpccRunner.Lib.OrderedMap

/-!
# Range operations of the index

The scans of `masstree_wrapper.hpp` and the range operations of `masstree.hpp`.  The tree
compares keys as byte strings; the index hands it 64-bit keys with their bytes swapped, on a
little-endian machine.  Of the tree it is assumed that `scan` and `rscan` visit the keys in
ascending and descending order from the first key on, and stop when `visit_value` returns
false.  The leaf functions of these operations do nothing.
-/

set_option autoImplicit false

namespace TpccRunner.Masstree

open Lib

abbrev Str := List Nat

/-! ## Keys as bytes -/

def byteWidths : List Nat := [8, 8, 8, 8, 8, 8, 8, 8]

def objectBytes (x : Nat) : Str := (unpack byteWidths x).reverse

def ofObjectBytes (bytes : Str) : Nat := pack byteWidths bytes.reverse

/-- `__builtin_bswap64`. -/
def byteSwap (x : Nat) : Nat := pack byteWidths (objectBytes x)

def keyBuf (key : Nat) : Str := objectBytes (byteSwap key)

def actualKey (key : Str) : Nat := byteSwap (ofObjectBytes key)

def memcmp : Str → Str → Int
  | a :: as, b :: bs => if a = b then memcmp as bs else (a : Int) - b
  | _, _ => 0

/-! ## Scans -/

/-- What a scan changes: the variables that its callback has captured, the `continue_flag`
and the number of visits. -/
structure Scanner (σ : Type) where
  captured : σ
  continueFlag : Bool
  scanNumCnt : Nat

section Scan
variable {σ V : Type}

/-- The comparison of `SearchRangeScanner` with its end key; `none` for `nullptr`. -/
def SearchRangeScanner.inside (rkey : Option Str) (rExclusive : Bool) (key : Str) : Bool :=
  match rkey with
  | none => true
  | some rkey =>
    let len := min rkey.length key.length
    let res := memcmp (rkey.take len) (key.take len)
    let smallerThanEndKey := 0 < res
    let sameAsEndKeyButShorter := res = 0 ∧ key.length < rkey.length
    let sameAsEndKeyInclusive := res = 0 ∧ rkey.length = key.length ∧ rExclusive = false
    smallerThanEndKey ∨ sameAsEndKeyButShorter ∨ sameAsEndKeyInclusive

def BackwordScanner.inside (lkey : Option Str) (lExclusive : Bool) (key : Str) : Bool :=
  match lkey with
  | none => true
  | some lkey =>
    let len := min lkey.length key.length
    let res := memcmp (lkey.take len) (key.take len)
    let biggerThanEndKey := res < 0
    let sameAsEndKeyButLonger := res = 0 ∧ lkey.length < key.length
    let sameAsEndKeyInclusive := res = 0 ∧ lkey.length = key.length ∧ lExclusive = false
    biggerThanEndKey ∨ sameAsEndKeyButLonger ∨ sameAsEndKeyInclusive

/-- `visit_value` of both scanners: whether the scan goes on, and the scanner after it. -/
def visitValue (inside : Str → Bool) (perKvFunc : Str → V → σ × Bool → σ × Bool)
    (maxScanNum : Int) (scanner : Scanner σ) (entry : Str × V) : Bool × Scanner σ :=
  if scanner.continueFlag = false ∨ 0 ≤ maxScanNum ∧ maxScanNum ≤ scanner.scanNumCnt then
    (false, scanner)
  else
    let scanNumCnt := scanner.scanNumCnt + 1
    if inside entry.1 then
      let (captured, continueFlag) :=
        perKvFunc entry.1 entry.2 (scanner.captured, scanner.continueFlag)
      (true, { captured, continueFlag, scanNumCnt })
    else (false, { scanner with scanNumCnt })

def visitAll (visit : Scanner σ → Str × V → Bool × Scanner σ) :
    List (Str × V) → Scanner σ → Scanner σ
  | [], scanner => scanner
  | entry :: rest, scanner =>
    let (proceed, scanner) := visit scanner entry
    if proceed then visitAll visit rest scanner else scanner

/-- `table_.scan(firstkey, emit_firstkey, scanner)`. -/
def tableScan (table : OrderedMap Str V) (firstkey : Str) (emitFirstkey : Bool)
    (visit : Scanner σ → Str × V → Bool × Scanner σ) (scanner : Scanner σ) : Scanner σ :=
  visitAll visit
    (table.entries.filter fun entry =>
      firstkey < entry.1 ∨ emitFirstkey = true ∧ entry.1 = firstkey)
    scanner

def tableRscan (table : OrderedMap Str V) (firstkey : Str) (emitFirstkey : Bool)
    (visit : Scanner σ → Str × V → Bool × Scanner σ) (scanner : Scanner σ) : Scanner σ :=
  visitAll visit
    (table.entries.filter fun entry =>
      entry.1 < firstkey ∨ emitFirstkey = true ∧ entry.1 = firstkey).reverse
    scanner

/-- `MasstreeWrapper::scan`; the result is what its callback has captured. -/
def scan (table : OrderedMap Str V) (lkey : Str) (lExclusive : Bool) (rkey : Str)
    (rExclusive : Bool) (perKvFunc : Str → V → σ × Bool → σ × Bool) (maxScanNum : Int)
    (captured : σ) : σ :=
  (tableScan table lkey (!lExclusive)
    (visitValue (SearchRangeScanner.inside (some rkey) rExclusive) perKvFunc maxScanNum)
    ⟨captured, true, 0⟩).captured

def rscan (table : OrderedMap Str V) (lkey : Str) (lExclusive : Bool) (rkey : Str)
    (rExclusive : Bool) (perKvFunc : Str → V → σ × Bool → σ × Bool) (maxScanNum : Int)
    (captured : σ) : σ :=
  (tableRscan table rkey (!rExclusive)
    (visitValue (BackwordScanner.inside (some lkey) lExclusive) perKvFunc maxScanNum)
    ⟨captured, true, 0⟩).captured

/-! ## Range operations -/

/-- The callback that fills `kv_map`. -/
def collectKv (count : Int) (key : Str) (val : V) (captured : OrderedMap Nat V × Bool) :
    OrderedMap Nat V × Bool :=
  let kvMap := captured.1.tryEmplace (actualKey key) val
  (kvMap, if count ≠ -1 ∧ count ≤ kvMap.entries.length then false else captured.2)

/-- `get_kv_in_range`: `[lkey --> rkey)`. -/
def getKvInRange (table : OrderedMap Str V) (lkey rkey : Nat) (count : Int)
    (kvMap : OrderedMap Nat V) : OrderedMap Nat V :=
  scan table (keyBuf lkey) false (keyBuf rkey) true (collectKv count) (-1) kvMap

/-- `get_kv_in_rev_range`: `(lkey <-- rkey]`. -/
def getKvInRevRange (table : OrderedMap Str V) (lkey rkey : Nat) (count : Int)
    (kvMap : OrderedMap Nat V) : OrderedMap Nat V :=
  rscan table (keyBuf lkey) true (keyBuf rkey) false (collectKv count) (-1) kvMap

/-- `get_next_kv`; `none` when it leaves `next_key` and `next_value` as they were. -/
def getNextKv (table : OrderedMap Str V) (lkey : Nat) : Option (Nat × V) :=
  scan table (keyBuf lkey) true (keyBuf (2 ^ 64 - 1)) false
    (fun key val captured => (some (actualKey key, val), captured.2)) 1 none

end Scan

/-! ## Byte order is the order of the keys -/

section Bytes

theorem fits_reverse {bytes : Str} (fits : Fits byteWidths bytes) :
    Fits byteWidths bytes.reverse :=
  List.rel_reverse fits

theorem keyBuf_eq (key : Nat) : keyBuf key = unpack byteWidths key := by
  rw [keyBuf, objectBytes, byteSwap, objectBytes,
    unpack_pack (fits_reverse (fits_unpack byteWidths key)), List.reverse_reverse]

theorem fits_keyBuf (key : Nat) : Fits byteWidths (keyBuf key) := by
  rw [keyBuf_eq]
  exact fits_unpack byteWidths key

theorem actualKey_eq {bytes : Str} (fits : Fits byteWidths bytes) :
    actualKey bytes = pack byteWidths bytes := by
  rw [actualKey, byteSwap, ofObjectBytes, objectBytes, unpack_pack (fits_reverse fits),
    List.reverse_reverse]

theorem actualKey_lt_iff {bytes other : Str} (fits : Fits byteWidths bytes)
    (fits' : Fits byteWidths other) : actualKey bytes < actualKey other ↔ bytes < other := by
  rw [actualKey_eq fits, actualKey_eq fits', pack_lt_pack_iff fits fits']

theorem actualKey_keyBuf {key : Nat} (bound : key < 2 ^ 64) : actualKey (keyBuf key) = key := by
  rw [actualKey_eq (fits_keyBuf key), keyBuf_eq, pack_unpack]
  exact Nat.mod_eq_of_lt bound

theorem actualKey_lt (bytes : Str) : actualKey bytes < 2 ^ 64 := pack_lt byteWidths _

section KeyBuf
variable {bytes : Str} {key : Nat} (fits : Fits byteWidths bytes) (bound : key < 2 ^ 64)
include fits bound

theorem lt_keyBuf_iff : bytes < keyBuf key ↔ actualKey bytes < key := by
  rw [← actualKey_lt_iff fits (fits_keyBuf key), actualKey_keyBuf bound]

theorem keyBuf_lt_iff : keyBuf key < bytes ↔ key < actualKey bytes := by
  rw [← actualKey_lt_iff (fits_keyBuf key) fits, actualKey_keyBuf bound]

theorem eq_keyBuf_iff : bytes = keyBuf key ↔ actualKey bytes = key := by
  rw [← pack_inj fits (fits_keyBuf key), ← actualKey_eq fits, ← actualKey_eq (fits_keyBuf key),
    actualKey_keyBuf bound]

end KeyBuf

theorem memcmp_spec {a b : Str} (same : a.length = b.length) :
    (0 < memcmp a b ↔ b < a) ∧ (memcmp a b < 0 ↔ a < b) ∧ (memcmp a b = 0 ↔ a = b) := by
  induction a generalizing b with
  | nil =>
    cases List.length_eq_zero_iff.mp same.symm
    simp [memcmp]
  | cons x a ih =>
    cases b with
    | nil => cases same
    | cons y b =>
      obtain ⟨greater, less, equal⟩ := ih (Nat.succ.inj same)
      simp only [memcmp, List.cons_lt_cons_iff, List.cons.injEq]
      split
      · rename_i first
        subst first
        simp [greater, less, equal]
      · omega

theorem length_of_fits {bytes : Str} (fits : Fits byteWidths bytes) : bytes.length = 8 :=
  fits.length_eq.symm

theorem searchRange_inside {rkey key : Str} (fits : Fits byteWidths rkey)
    (fits' : Fits byteWidths key) (rExclusive : Bool) :
    SearchRangeScanner.inside (some rkey) rExclusive key =
      decide (key < rkey ∨ rExclusive = false ∧ key = rkey) := by
  have len := length_of_fits fits
  have len' := length_of_fits fits'
  obtain ⟨greater, -, equal⟩ := memcmp_spec (len.trans len'.symm)
  simp only [SearchRangeScanner.inside, len, len', min_self, List.take_of_length_le len.le,
    List.take_of_length_le len'.le, greater, equal, lt_irrefl, and_false, false_or, true_and]
  rw [decide_eq_decide, eq_comm (a := rkey), and_comm (a := key = rkey)]

theorem backword_inside {lkey key : Str} (fits : Fits byteWidths lkey)
    (fits' : Fits byteWidths key) (lExclusive : Bool) :
    BackwordScanner.inside (some lkey) lExclusive key =
      decide (lkey < key ∨ lExclusive = false ∧ key = lkey) := by
  have len := length_of_fits fits
  have len' := length_of_fits fits'
  obtain ⟨-, less, equal⟩ := memcmp_spec (len.trans len'.symm)
  simp only [BackwordScanner.inside, len, len', min_self, List.take_of_length_le len.le,
    List.take_of_length_le len'.le, less, equal, lt_irrefl, and_false, false_or, true_and]
  rw [decide_eq_decide, eq_comm (a := lkey), and_comm (a := key = lkey)]

end Bytes

/-! ## What a scan collects -/

structure Tree (V : Type) where
  table : OrderedMap Str V
  keys : ∀ entry ∈ table.entries, Fits byteWidths entry.1

section Contents
variable {V : Type}

def Tree.empty : Tree V := ⟨.empty, nofun⟩

/-- `insert`: a present key keeps its value. -/
def Tree.insert (tree : Tree V) (key : Nat) (val : V) : Tree V where
  table := tree.table.tryEmplace (keyBuf key) val
  keys := by
    rintro ⟨bytes, other⟩ member
    rw [← OrderedMap.get?_eq_some_iff, OrderedMap.get?_tryEmplace] at member
    split at member
    · rename_i same
      rw [same]
      exact fits_keyBuf key
    · exact tree.keys _ (OrderedMap.get?_eq_some_iff.mp member)

def actualEntry (entry : Str × V) : Nat × V := (actualKey entry.1, entry.2)

def Tree.contents (tree : Tree V) : OrderedMap Nat V where
  entries := tree.table.entries.map actualEntry
  ascending := by
    rw [List.pairwise_map]
    exact tree.table.ascending.imp_of_mem fun member member' less =>
      (actualKey_lt_iff (tree.keys _ member) (tree.keys _ member')).mpr less

def firstOf (count : Int) (entries : List (Nat × V)) : List (Nat × V) :=
  if count = -1 then entries else entries.take count.toNat

def lastOf (count : Int) (entries : List (Nat × V)) : List (Nat × V) :=
  if count = -1 then entries else entries.rtake count.toNat

variable {count : Int} {inside : Str → Bool} {entries : List (Str × V)}

theorem visitAll_stopped {σ : Type} (perKvFunc : Str → V → σ × Bool → σ × Bool) (maxScanNum : Int)
    (captured : σ) (visits : Nat) :
    visitAll (visitValue inside perKvFunc maxScanNum) entries ⟨captured, false, visits⟩ =
      ⟨captured, false, visits⟩ := by
  cases entries with
  | nil => rfl
  | cons entry rest => simp [visitAll, visitValue]

theorem visitValue_inside {σ : Type} (perKvFunc : Str → V → σ × Bool → σ × Bool) (captured : σ)
    (visits : Nat) {entry : Str × V} (within : inside entry.1) :
    visitValue inside perKvFunc (-1) ⟨captured, true, visits⟩ entry =
      (true, ⟨(perKvFunc entry.1 entry.2 (captured, true)).1,
        (perKvFunc entry.1 entry.2 (captured, true)).2, visits + 1⟩) := by
  simp [visitValue, within]

theorem tryEmplace_fresh {map : OrderedMap Nat V} {key : Nat} (fresh : map.get? key = none)
    (val : V) :
    (map.tryEmplace key val).entries.Perm ((key, val) :: map.entries) := by
  rw [OrderedMap.tryEmplace, fresh, ← OrderedMap.erase_entries_of_absent fresh]
  exact OrderedMap.insert_perm map key val

/-- The scan goes on while the keys are inside and there is room; by induction on the entries,
with what was collected before generalised. -/
theorem visitAll_collectKv (kvMap : OrderedMap Nat V) (visits : Nat)
    (room : count = -1 ∨ kvMap.entries.length < count)
    (distinct : entries.Pairwise fun first second => actualKey first.1 ≠ actualKey second.1)
    (fresh : ∀ entry ∈ entries, kvMap.get? (actualKey entry.1) = none) :
    (visitAll (visitValue inside (collectKv count) (-1)) entries
        ⟨kvMap, true, visits⟩).captured.entries.Perm
      (kvMap.entries ++ (if count = -1 then entries.takeWhile (inside ·.1)
        else (entries.takeWhile (inside ·.1)).take (count.toNat - kvMap.entries.length)).map
          actualEntry) := by
  induction entries generalizing kvMap visits with
  | nil => simp [visitAll]
  | cons entry rest ih =>
    obtain ⟨others, tail⟩ := List.pairwise_cons.mp distinct
    by_cases within : inside entry.1
    · have added := tryEmplace_fresh (fresh entry List.mem_cons_self) entry.2
      have longer := added.length_eq
      rw [List.length_cons] at longer
      have moved : (kvMap.tryEmplace (actualKey entry.1) entry.2).entries.Perm
          (kvMap.entries ++ [actualEntry entry]) :=
        added.trans (List.perm_append_singleton _ _).symm
      rw [visitAll, visitValue_inside _ _ _ within,
        List.takeWhile_cons, if_pos within]
      simp only [collectKv, if_true, longer]
      split
      · -- the last key there was room for
        rename_i full
        rw [visitAll_stopped]
        have one : count.toNat - kvMap.entries.length = 0 + 1 := by omega
        rw [if_neg full.1, one]
        simpa using moved
      · rename_i more
        have rest' := ih (kvMap.tryEmplace (actualKey entry.1) entry.2) (visits + 1)
          (by omega) tail fun other member => by
            rw [OrderedMap.get?_tryEmplace, if_neg (others other member).symm]
            exact fresh other (List.mem_cons_of_mem _ member)
        refine rest'.trans ((moved.append_right _).trans ?_)
        rw [List.append_assoc, List.singleton_append, ← List.map_cons]
        by_cases all : count = -1
        · simp [all]
        · have step : count.toNat - kvMap.entries.length =
              count.toNat - (kvMap.entries.length + 1) + 1 := by omega
          rw [if_neg all, if_neg all, longer, step, List.take_succ_cons]
    · simp [visitAll, visitValue, within]

theorem takeWhile_eq_filter {α : Type} {keep : α → Bool} {list : List α}
    (closed : list.Pairwise fun first second => keep second → keep first) :
    list.takeWhile keep = list.filter keep := by
  induction list with
  | nil => rfl
  | cons head rest ih =>
    obtain ⟨above, tail⟩ := List.pairwise_cons.mp closed
    by_cases kept : keep head
    · rw [List.takeWhile_cons_of_pos kept, List.filter_cons_of_pos kept, ih tail]
    · have none' : ∀ other ∈ rest, ¬ keep other := fun other member keeps =>
        kept (above other member keeps)
      rw [List.takeWhile_cons_of_neg kept, List.filter_cons_of_neg kept,
        List.filter_eq_nil_iff.mpr none']

theorem Tree.map_filter (tree : Tree V) {select : Str × V → Bool} {range : Nat × V → Bool}
    (agree : ∀ entry : Str × V, Fits byteWidths entry.1 →
      (select entry ↔ range (actualEntry entry))) :
    (tree.table.entries.filter select).map actualEntry = tree.contents.entries.filter range := by
  rw [contents, List.filter_map]
  congr 1
  exact List.filter_congr fun entry member =>
    Bool.eq_iff_iff.mpr (agree entry (tree.keys entry member))

theorem entries_eq_of_perm {map : OrderedMap Nat V} {list : List (Nat × V)}
    (same : map.entries.Perm list)
    (ascending : list.Pairwise fun first second => first.1 < second.1) : map.entries = list :=
  same.eq_of_pairwise (fun _ _ _ _ less greater => absurd less greater.asymm) map.ascending
    ascending

end Contents

/-! ## The range operations are exact -/

section Exact
variable {V : Type} (tree : Tree V) {l r : Nat} {count : Int}

theorem Tree.distinct {entries : List (Str × V)} (sublist : entries.Sublist tree.table.entries) :
    entries.Pairwise fun first second => actualKey first.1 ≠ actualKey second.1 := by
  have all : tree.table.entries.Pairwise fun first second =>
      actualKey first.1 ≠ actualKey second.1 :=
    (List.pairwise_map.mp tree.contents.ascending).imp fun less => less.ne
  exact all.sublist sublist

theorem visitAll_empty {inside : Str → Bool} {visited : List (Str × V)}
    (valid : count = -1 ∨ 1 ≤ count)
    (distinct : visited.Pairwise fun first second => actualKey first.1 ≠ actualKey second.1)
    (closed : visited.Pairwise fun first second => inside second.1 → inside first.1) :
    (visitAll (visitValue inside (collectKv count) (-1)) visited
        ⟨.empty, true, 0⟩).captured.entries.Perm
      (firstOf count ((visited.filter (inside ·.1)).map actualEntry)) := by
  have room : count = -1 ∨ ((OrderedMap.empty : OrderedMap Nat V).entries.length : Int) < count :=
    valid.imp_right fun positive => positive
  refine (visitAll_collectKv .empty 0 room distinct fun _ _ => rfl).trans (List.Perm.of_eq ?_)
  rw [takeWhile_eq_filter closed, firstOf]
  split
  · rfl
  · rw [List.map_take]
    rfl

theorem Tree.closed {inside : Str → Bool} (within : Nat → Prop)
    (meaning : ∀ key, Fits byteWidths key → (inside key ↔ within (actualKey key)))
    {visited : List (Str × V)} (known : ∀ entry ∈ visited, entry ∈ tree.table.entries)
    (ordered : visited.Pairwise fun first second =>
      within (actualKey second.1) → within (actualKey first.1)) :
    visited.Pairwise fun first second => inside second.1 → inside first.1 := by
  refine ordered.imp_of_mem fun member member' closed => ?_
  rw [meaning _ (tree.keys _ (known _ member)), meaning _ (tree.keys _ (known _ member'))]
  exact closed

theorem Tree.ordered : tree.table.entries.Pairwise fun first second =>
    actualKey first.1 < actualKey second.1 :=
  (List.pairwise_map.mp tree.contents.ascending).imp fun less => less

theorem getKvInRange_exact (hl : l < 2 ^ 64) (hr : r < 2 ^ 64) (valid : count = -1 ∨ 1 ≤ count) :
    (getKvInRange tree.table l r count .empty).entries =
      firstOf count (tree.contents.range l r) := by
  have inside : ∀ key, Fits byteWidths key →
      (SearchRangeScanner.inside (some (keyBuf r)) true key ↔ actualKey key < r) := by
    intro key fits
    simp [searchRange_inside (fits_keyBuf r) fits, lt_keyBuf_iff fits hr]
  refine entries_eq_of_perm ((visitAll_empty valid (tree.distinct List.filter_sublist) ?_).trans
    (List.Perm.of_eq ?_)) ?_
  · refine tree.closed (· < r) inside (fun _ => List.mem_of_mem_filter) ?_
    exact (tree.ordered.filter _).imp fun less below => less.trans below
  · rw [List.filter_filter]
    apply congrArg (firstOf count)
    apply tree.map_filter
    intro entry fits
    simp only [Bool.and_eq_true, decide_eq_true_eq]
    simp only [inside entry.1 fits, keyBuf_lt_iff fits hl, eq_keyBuf_iff fits hl, Bool.not_false,
      true_and, actualEntry]
    omega
  · have ascending := tree.contents.ascending.filter fun entry => l ≤ entry.1 ∧ entry.1 < r
    unfold firstOf
    split
    · exact ascending
    · exact ascending.sublist (List.take_sublist _ _)

theorem getKvInRevRange_exact (hl : l < 2 ^ 64) (hr : r < 2 ^ 64)
    (valid : count = -1 ∨ 1 ≤ count) :
    (getKvInRevRange tree.table l r count .empty).entries =
      lastOf count (tree.contents.entries.filter fun entry => l < entry.1 ∧ entry.1 ≤ r) := by
  have inside : ∀ key, Fits byteWidths key →
      (BackwordScanner.inside (some (keyBuf l)) true key ↔ l < actualKey key) := by
    intro key fits
    simp [backword_inside (fits_keyBuf l) fits, keyBuf_lt_iff fits hl]
  refine entries_eq_of_perm ((visitAll_empty valid ?_ ?_).trans ?_) ?_
  · exact List.pairwise_reverse.mpr ((tree.distinct List.filter_sublist).imp Ne.symm)
  · refine tree.closed (l < ·) inside
      (fun _ member => List.mem_of_mem_filter (List.mem_reverse.mp member)) ?_
    refine List.pairwise_reverse.mpr ?_
    exact (tree.ordered.filter _).imp fun less above => above.trans less
  · have selected : ((tree.table.entries.filter fun entry =>
        entry.1 < keyBuf r ∨ (!false) = true ∧ entry.1 = keyBuf r).filter fun entry =>
          BackwordScanner.inside (some (keyBuf l)) true entry.1).map actualEntry =
        tree.contents.entries.filter fun entry => l < entry.1 ∧ entry.1 ≤ r := by
      rw [List.filter_filter]
      apply tree.map_filter
      intro entry fits
      simp only [Bool.and_eq_true, decide_eq_true_eq]
      simp only [inside entry.1 fits, lt_keyBuf_iff fits hr, eq_keyBuf_iff fits hr,
        Bool.not_false, true_and, actualEntry]
      omega
    rw [List.filter_reverse, List.map_reverse, selected, firstOf, lastOf]
    split
    · exact List.reverse_perm _
    · rw [List.rtake_eq_reverse_take_reverse]
      exact (List.reverse_perm _).symm
  · have ascending := tree.contents.ascending.filter fun entry => l < entry.1 ∧ entry.1 ≤ r
    unfold lastOf
    split
    · exact ascending
    · exact ascending.sublist (List.drop_sublist _ _)

theorem visitAll_one {σ : Type} {inside : Str → Bool}
    (perKvFunc : Str → V → σ × Bool → σ × Bool) {captured : σ} {entry : Str × V}
    (within : inside entry.1) (rest : List (Str × V)) :
    (visitAll (visitValue inside perKvFunc 1) (entry :: rest) ⟨captured, true, 0⟩).captured =
      (perKvFunc entry.1 entry.2 (captured, true)).1 := by
  cases rest with
  | nil => simp [visitAll, visitValue, within]
  | cons second rest => simp [visitAll, visitValue, within]

theorem getNextKv_exact (hl : l < 2 ^ 64) :
    getNextKv tree.table l = tree.contents.entries.find? fun entry => l < entry.1 := by
  have selected : (tree.table.entries.filter fun entry =>
      keyBuf l < entry.1 ∨ (!true) = true ∧ entry.1 = keyBuf l).map actualEntry =
        tree.contents.entries.filter fun entry => l < entry.1 := by
    apply tree.map_filter
    intro entry fits
    simp only [decide_eq_true_eq]
    simp [keyBuf_lt_iff fits hl, actualEntry]
  rw [← List.head?_filter, ← selected, List.head?_map, getNextKv, scan, tableScan]
  cases visited : tree.table.entries.filter fun entry =>
      keyBuf l < entry.1 ∨ (!true) = true ∧ entry.1 = keyBuf l with
  | nil => rfl
  | cons entry rest =>
    have fits : Fits byteWidths entry.1 :=
      tree.keys entry (List.mem_of_mem_filter (visited ▸ List.mem_cons_self))
    have inside : SearchRangeScanner.inside (some (keyBuf (2 ^ 64 - 1))) false entry.1 := by
      have bound := actualKey_lt entry.1
      have last : 2 ^ 64 - 1 < 2 ^ 64 := by decide
      rw [searchRange_inside (fits_keyBuf _) fits, decide_eq_true_eq, lt_keyBuf_iff fits last,
        eq_keyBuf_iff fits last]
      simp only [true_and]
      omega
    rw [visitAll_one _ inside]
    rfl

end Exact

/-- `get_kv_in_range`, `get_kv_in_rev_range` and `get_next_kv` return what they say. -/
theorem rangeOperations_exact {V : Type} (tree : Tree V) (l r : Nat) (hl : l < 2 ^ 64)
    (hr : r < 2 ^ 64) (count : Int) (valid : count = -1 ∨ 1 ≤ count) :
    (getKvInRange tree.table l r count .empty).entries =
        firstOf count (tree.contents.entries.filter fun entry => l ≤ entry.1 ∧ entry.1 < r) ∧
      (getKvInRevRange tree.table l r count .empty).entries =
        lastOf count (tree.contents.entries.filter fun entry => l < entry.1 ∧ entry.1 ≤ r) ∧
      getNextKv tree.table l = tree.contents.entries.find? fun entry => l < entry.1 :=
  ⟨getKvInRange_exact tree hl hr valid, getKvInRevRange_exact tree hl hr valid,
    getNextKv_exact tree hl⟩

def smallTree : Tree Nat :=
  (((Tree.empty.insert 256 10).insert 1 11).insert (2 ^ 63) 12).insert 255 13

theorem rangeOperations_exact_small :
    smallTree.contents.entries = [(1, 11), (255, 13), (256, 10), (2 ^ 63, 12)] ∧
      (getKvInRange smallTree.table 1 256 1 .empty).entries =
        firstOf 1 (smallTree.contents.entries.filter fun entry => 1 ≤ entry.1 ∧ entry.1 < 256) ∧
      (getKvInRevRange smallTree.table 1 256 1 .empty).entries =
        lastOf 1 (smallTree.contents.entries.filter fun entry => 1 < entry.1 ∧ entry.1 ≤ 256) ∧
      getNextKv smallTree.table 1 = smallTree.contents.entries.find? fun entry => 1 < entry.1 :=
  ⟨by decide +kernel, rangeOperations_exact smallTree 1 256 (by decide) (by decide) 1 (by decide)⟩

end TpccRunner.Masstree
