import TpccRunner.Serval.RowHolds

/-!
# The two lookups of Serval

A set of writers is appended to the global array of an uncontended row, or to the region
of a contended one.  Whatever the order of the appends, both lookups find the version of
the greatest writer below the reader.
-/

set_option autoImplicit false

namespace TpccRunner.Serval

open TpccRunner.Utils TpccRunner.Lib

def GlobalVersionArray.appendAll (array : GlobalVersionArray) (version : Nat → Nat) :
    List Nat → GlobalVersionArray
  | [] => array
  | serial :: rest => (array.append (version serial) serial).appendAll version rest

def RowRegion.appendAll (region : RowRegion) (version : Nat → Nat) : List Nat → RowRegion
  | [] => region
  | serial :: rest =>
    (region.append (serial / 64) (version serial) (serial % 64)).appendAll version rest

/-- `identify_visible_version` and then `get` in the array of the core it names. -/
def RowRegion.visibleVersion (region : RowRegion) (serial : Nat) : Option Nat :=
  (region.identifyVisibleVersion (serial / 64) (serial % 64)).map fun visible =>
    (region.arrays visible.1).get visible.2

def AscendingPerCore (order : List Nat) : Prop :=
  order.Pairwise fun earlier later => earlier / 64 = later / 64 → earlier < later

section Appends
variable {version : Nat → Nat} {order : List Nat} {serials : Set Nat}

theorem insert_union_tail (serial : Nat) (rest : List Nat) :
    insert serial serials ∪ {other | other ∈ rest} =
      serials ∪ {other | other ∈ serial :: rest} := by
  ext other
  simp only [Set.mem_union, Set.mem_insert_iff, Set.mem_ofPred_eq, List.mem_cons]
  tauto

theorem GlobalHolds.appendAll {array : GlobalVersionArray}
    (holds : GlobalHolds array serials version) (nodup : order.Nodup)
    (fresh : ∀ serial ∈ order, serial ∉ serials) :
    GlobalHolds (array.appendAll version order) (serials ∪ {serial | serial ∈ order}) version := by
  induction order generalizing array serials with
  | nil => simpa [GlobalVersionArray.appendAll] using holds
  | cons serial rest ih =>
    obtain ⟨notAgain, tail⟩ := List.nodup_cons.mp nodup
    have appended := holds.append (fresh serial List.mem_cons_self)
    have more := ih appended tail fun other member known => by
      rcases known with rfl | known
      · exact notAgain member
      · exact fresh other (List.mem_cons_of_mem _ member) known
    rwa [insert_union_tail] at more

theorem RegionHolds.appendAll {region : RowRegion} (holds : RegionHolds region serials version)
    (ascending : AscendingPerCore order) (bounded : ∀ serial ∈ order, serial < 4096)
    (above : ∀ serial ∈ order, ∀ other ∈ serials, other / 64 = serial / 64 → other < serial) :
    RegionHolds (region.appendAll version order) (serials ∪ {serial | serial ∈ order})
      version := by
  induction order generalizing region serials with
  | nil => simpa [RowRegion.appendAll] using holds
  | cons serial rest ih =>
    obtain ⟨first, tail⟩ := List.pairwise_cons.mp ascending
    have appended := holds.append (bounded serial List.mem_cons_self)
      (above serial List.mem_cons_self)
    have more := ih appended tail
      (fun other member => bounded other (List.mem_cons_of_mem _ member))
      fun later member other known sameCore => by
        rcases known with rfl | known
        · exact first later member sameCore
        · exact above later (List.mem_cons_of_mem _ member) other known sameCore
    rwa [insert_union_tail] at more

end Appends

/-- Both lookups yield the version of the greatest writer below the reader, or both report
that there is none.  The region may hold what earlier epochs left in its arrays. -/
theorem lookups_agree (writers : Finset Nat) (version : Nat → Nat)
    (bounded : ∀ writer ∈ writers, writer < 4096)
    (arrival : List Nat) (arrivalNodup : arrival.Nodup)
    (arrivalAll : ∀ writer, writer ∈ arrival ↔ writer ∈ writers)
    (interleaving : List Nat) (ascending : AscendingPerCore interleaving)
    (interleavingAll : ∀ writer, writer ∈ interleaving ↔ writer ∈ writers)
    (region : RowRegion) (clean : region.coreBitmap = 0)
    (reader : Nat) (readerBound : reader < 4096) :
    ∃ greatest, GreatestBelow (writers : Set Nat) reader greatest ∧
      ((GlobalVersionArray.appendAll [] version arrival).searchVisibleVersion reader).map
        Prod.snd = greatest.map version ∧
      (region.appendAll version interleaving).visibleVersion reader = greatest.map version := by
  have global :=
    (@globalHolds_empty version).appendAll arrivalNodup fun _ _ impossible => impossible
  have inRegion := (@regionHolds_empty region version clean).appendAll ascending
    (fun writer member => bounded writer ((interleavingAll writer).mp member))
    fun _ _ _ impossible => impossible.elim
  have arrived : ∅ ∪ {writer | writer ∈ arrival} = (writers : Set Nat) := by
    ext writer
    simp [arrivalAll]
  have interleaved : ∅ ∪ {writer | writer ∈ interleaving} = (writers : Set Nat) := by
    ext writer
    simp [interleavingAll]
  rw [arrived] at global
  rw [interleaved] at inRegion
  obtain ⟨one, oneGreatest, found⟩ := global.search reader
  obtain ⟨two, twoGreatest, visible⟩ := inRegion.search readerBound
  have same : two = one := twoGreatest.unique oneGreatest
  subst same
  exact ⟨two, oneGreatest, found, visible⟩

/-- Writers 1, 63 and 64, appended in opposite orders; reader 64 sees writer 63. -/
theorem lookups_agree_across_cores :
    (∀ writer ∈ ({1, 63, 64} : Finset Nat), writer < 4096) ∧
    ∃ greatest, GreatestBelow (({1, 63, 64} : Finset Nat) : Set Nat) 64 greatest ∧
      ((GlobalVersionArray.appendAll [] (· + 100) [64, 63, 1]).searchVisibleVersion 64).map
        Prod.snd = greatest.map (· + 100) ∧
      (RowRegion.appendAll {} (· + 100) [64, 1, 63]).visibleVersion 64 =
        greatest.map (· + 100) :=
  ⟨by decide, lookups_agree {1, 63, 64} (· + 100) (by decide) [64, 63, 1] (by decide)
    (by intro writer; simp; tauto)
    [64, 1, 63] (by simp [AscendingPerCore]) (by intro writer; simp; tauto) {} rfl 64 (by decide)⟩

end TpccRunner.Serval
