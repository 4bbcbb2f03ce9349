import TpccRunner.Lib.OrderedMap

/-!
# Masstree as the protocols see it

`indexes/masstree.hpp` over the tree itself: an ordered map from keys to values whose keys
are partitioned into leaves.  The version of a leaf changes when a key is added to it and
when it is split; an insertion may split the leaf that has to receive the key first.  Which
leaves are split, and where, is left open.
-/

set_option autoImplicit false

namespace TpccRunner.Masstree

open Lib

variable {K : Type} [LinearOrder K]

structure Index (K : Type) [LinearOrder K] where
  entries : OrderedMap K Nat
  /-- The lower fence of every leaf but the leftmost, which is leaf 0. -/
  fences : OrderedMap K Nat
  version : Nat → Nat
  nextLeaf : Nat

namespace Index

def find (index : Index K) (key : K) : Option Nat := index.entries.get? key

def leafOf (index : Index K) (key : K) : Nat :=
  match (index.fences.entries.filter fun fence => fence.1 ≤ key).getLast? with
  | none => 0
  | some fence => fence.2

def nextFence (index : Index K) (key : K) : Option K :=
  (index.fences.entries.find? fun fence => key < fence.1).map Prod.fst

def touch (index : Index K) (leaf : Nat) : Index K :=
  { index with version := Function.update index.version leaf (index.version leaf + 1) }

def split (index : Index K) (fence : K) : Index K :=
  { index.touch (index.leafOf fence) with
    fences := index.fences.insert fence index.nextLeaf
    nextLeaf := index.nextLeaf + 1 }

def makeRoom (index : Index K) (key : K) : Option K → Option (Index K)
  | none => some index
  | some fence =>
    if index.leafOf fence = index.leafOf key ∧ index.fences.get? fence = none then
      some (index.split fence)
    else none

def add (index : Index K) (key : K) (val : Nat) : Index K :=
  { index.touch (index.leafOf key) with entries := index.entries.insert key val }

def remove (index : Index K) (key : K) : Index K :=
  { index with entries := index.entries.erase key }

section Lookups
variable (index : Index K) (key other : K)

@[simp] theorem find_add (val : Nat) :
    (index.add key val).find other = if other = key then some val else index.find other :=
  OrderedMap.get?_insert index.entries key val other

@[simp] theorem find_remove :
    (index.remove key).find other = if other = key then none else index.find other :=
  OrderedMap.get?_erase index.entries key other

theorem find_makeRoom {index room : Index K} {key : K} {at? : Option K}
    (made : index.makeRoom key at? = some room) : room.find = index.find := by
  cases at? with
  | none => cases made; rfl
  | some fence =>
    obtain ⟨-, made⟩ := Option.ite_none_right_eq_some.mp made
    cases made
    rfl

end Lookups

end Index

/-- `NodeMap`: the leaves a transaction depends on, with their versions. -/
abbrev NodeMap := List (Nat × Nat)

namespace NodeMap

/-- `nm.emplace(leaf, version)`: a present leaf keeps its version. -/
def emplace (nm : NodeMap) (leaf version : Nat) : NodeMap :=
  if (nm.lookup leaf).isSome then nm else nm ++ [(leaf, version)]

/-- The leaf function of a scan; `none` for a leaf that has changed (`BAD_SCAN`). -/
def visit (nm : NodeMap) (leaf version : Nat) : Option NodeMap :=
  match nm.lookup leaf with
  | none => some (nm ++ [(leaf, version)])
  | some known => if known = version then some nm else none

/-- The end of `insert`; `none` for a leaf that has changed before (`BAD_INSERT`). -/
def afterInsert (nm : NodeMap) (leaf oldVersion newVersion : Nat) : Option NodeMap :=
  match nm.lookup leaf with
  | none => some nm
  | some known =>
    if known = oldVersion then
      some (nm.map fun entry => if entry.1 = leaf then (leaf, newVersion) else entry)
    else none

end NodeMap

end TpccRunner.Masstree
