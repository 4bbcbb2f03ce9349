import Mathlib

/-!
# Version chains of MVTO

`Version` and the two walks along `prev` of `protocols/mvto/include/mvto.hpp`:
`get_correct_version`, which looks for the newest version a transaction may read, and
`gc_version_chain`, which keeps the newest version not above `smallest_ts` and
everything newer.  A chain is the list of its versions from the head.
-/

set_option autoImplicit false

namespace TpccRunner.Mvto

variable {R : Type}

/-- A version of a value; `id` tells the versions of one value apart. -/
structure Version (R : Type) where
  id : Nat
  readTs : Nat
  writeTs : Nat
  /-- `rec`, `none` for the null pointer. -/
  record : Option R
  deleted : Bool
  deriving DecidableEq

def Version.updateReadts (version : Version R) (ts : Nat) : Version R :=
  if ts < version.readTs then version else { version with readTs := ts }

def getCorrectVersion (startTs : Nat) : List (Version R) → Option (Version R)
  | [] => none
  | version :: prev =>
    if startTs < version.writeTs then getCorrectVersion startTs prev else some version

def gcVersionChain (smallestTs : Nat) : List (Version R) → List (Version R)
  | [] => []
  | version :: prev =>
    if smallestTs < version.writeTs then version :: gcVersionChain smallestTs prev
    else [version]

def gcFreed (smallestTs : Nat) : List (Version R) → List (Version R)
  | [] => []
  | version :: prev => if smallestTs < version.writeTs then gcFreed smallestTs prev else prev

def touch (id ts : Nat) (chain : List (Version R)) : List (Version R) :=
  chain.map fun version => if version.id = id then version.updateReadts ts else version

section Versions
variable (version : Version R) (ts : Nat)

@[simp] theorem Version.updateReadts_id : (version.updateReadts ts).id = version.id := by
  unfold Version.updateReadts
  split <;> rfl

@[simp] theorem Version.updateReadts_writeTs :
    (version.updateReadts ts).writeTs = version.writeTs := by
  unfold Version.updateReadts
  split <;> rfl

@[simp] theorem Version.updateReadts_record :
    (version.updateReadts ts).record = version.record := by
  unfold Version.updateReadts
  split <;> rfl

@[simp] theorem Version.updateReadts_deleted :
    (version.updateReadts ts).deleted = version.deleted := by
  unfold Version.updateReadts
  split <;> rfl

theorem Version.le_updateReadts : ts ≤ (version.updateReadts ts).readTs := by
  unfold Version.updateReadts
  split
  · omega
  · exact le_rfl

theorem Version.readTs_le_updateReadts : version.readTs ≤ (version.updateReadts ts).readTs := by
  unfold Version.updateReadts
  split
  · exact le_rfl
  · exact Nat.le_of_not_lt ‹_›

end Versions

section Chains
variable {startTs smallestTs : Nat} {chain : List (Version R)} {version : Version R}

theorem getCorrectVersion_split (found : getCorrectVersion startTs chain = some version) :
    version.writeTs ≤ startTs ∧ ∃ newer older, chain = newer ++ version :: older ∧
      ∀ other ∈ newer, startTs < other.writeTs := by
  induction chain with
  | nil => cases found
  | cons head prev ih =>
    unfold getCorrectVersion at found
    split at found
    · rename_i tooNew
      obtain ⟨old, newer, older, rfl, above⟩ := ih found
      refine ⟨old, head :: newer, older, rfl, ?_⟩
      simpa [tooNew] using above
    · obtain rfl := Option.some.inj found
      exact ⟨by omega, [], prev, rfl, by simp⟩

theorem gcVersionChain_append_gcFreed (smallestTs : Nat) (chain : List (Version R)) :
    gcVersionChain smallestTs chain ++ gcFreed smallestTs chain = chain := by
  induction chain with
  | nil => rfl
  | cons head prev ih =>
    unfold gcVersionChain gcFreed
    split
    · rw [List.cons_append, ih]
    · rfl

theorem gcVersionChain_subset : gcVersionChain smallestTs chain ⊆ chain := by
  intro other member
  rw [← gcVersionChain_append_gcFreed smallestTs chain]
  exact List.mem_append_left _ member

@[simp] theorem gcVersionChain_head? (smallestTs : Nat) (chain : List (Version R)) :
    (gcVersionChain smallestTs chain).head? = chain.head? := by
  cases chain with
  | nil => rfl
  | cons head prev =>
    unfold gcVersionChain
    split <;> rfl

/-- A version is deallocated only behind one that is not above `smallest_ts`. -/
theorem gcFreed_behind (freed : version ∈ gcFreed smallestTs chain) :
    ∃ newer older kept, chain = newer ++ version :: older ∧ kept ∈ newer ∧
      kept.writeTs ≤ smallestTs := by
  induction chain with
  | nil => cases freed
  | cons head prev ih =>
    unfold gcFreed at freed
    split at freed
    · obtain ⟨newer, older, kept, rfl, member, old⟩ := ih freed
      exact ⟨head :: newer, older, kept, rfl, List.mem_cons_of_mem _ member, old⟩
    · obtain ⟨newer, older, rfl⟩ := List.append_of_mem freed
      exact ⟨head :: newer, older, head, rfl, List.mem_cons_self, by omega⟩

theorem touch_head? (id ts : Nat) (chain : List (Version R)) :
    (touch id ts chain).head? = chain.head?.map fun version =>
      if version.id = id then version.updateReadts ts else version := by
  unfold touch
  exact List.head?_map

end Chains

end TpccRunner.Mvto
