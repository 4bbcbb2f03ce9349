import TpccRunner.Mvto.System

/-!
# The invariant of MVTO

What holds in every state of every run, whatever operations the transactions perform
and whatever bounds `gc_version_chain` is given.  The heart of it is the check of
`precommit`: it compares `start_ts` with the head of a chain only, and this is enough to
put a new version behind every transaction that has read from the chain, because a
reader that is not positioned at the head finds a head that is too new for it.
-/

set_option autoImplicit false

namespace TpccRunner.Mvto

open Lib

variable {n : Nat} {K R : Type}

def Phase.held : Phase K R → List Nat
  | .selected access | .collected access => [access.val]
  | .locking locked _ | .removing _ locked => locked.map fun entry => entry.2.val
  | .applying rest | .unlocking rest => rest.map fun entry => entry.2.val
  | .applied entry rest => entry.2.val :: rest.map fun entry => entry.2.val
  | .idle | .running | .failed | .aborted | .committed => []

def Phase.unapplied : Phase K R → List (K × Element R)
  | .locking locked _ => locked
  | .applying rest => rest
  | .applied _ rest => rest
  | _ => []

def Phase.accessing : Phase K R → Option (Access K R)
  | .selected access | .collected access => some access
  | _ => none

/-- The version, as value and version, that the running operation has selected. -/
def Phase.selection : Phase K R → Option (Nat × Nat)
  | .selected access | .collected access =>
    access.version.map fun version => (access.val, version.id)
  | _ => none

def Phase.toLock : Phase K R → List K
  | .locking _ rest => rest
  | _ => []

def Phase.toRemove : Phase K R → List (K × Element R)
  | .removing rest _ => rest
  | _ => []

theorem held_of_unapplied {phase : Phase K R} {entry : K × Element R}
    (unapplied : entry ∈ phase.unapplied) : entry.2.val ∈ phase.held := by
  cases phase with
  | locking locked rest => exact List.mem_map_of_mem unapplied
  | applying rest => exact List.mem_map_of_mem unapplied
  | applied first rest => exact List.mem_cons_of_mem _ (List.mem_map_of_mem unapplied)
  | _ => cases unapplied

theorem held_of_selection {phase : Phase K R} {val id : Nat}
    (selected : phase.selection = some (val, id)) : val ∈ phase.held := by
  cases phase with
  | selected | collected =>
    obtain ⟨version, -, same⟩ := Option.map_eq_some_iff.mp selected
    obtain ⟨rfl, -⟩ := Prod.mk.inj same
    exact List.mem_singleton_self _
  | _ => cases selected

section Readers
variable (ts id : Nat) (chain : List (Version R))

/-- Nothing older than `ts` is newer than the version a transaction has selected. -/
def Newest : Prop :=
  ∀ newer version older, chain = newer ++ version :: older → version.id = id →
    ∀ other ∈ newer, ts ≤ other.writeTs

/-- The head of the chain does not admit a write older than `ts`. -/
def Guarded : Prop := ∀ head ∈ chain.head?, ts ≤ head.readTs ∨ ts ≤ head.writeTs

def Admits : Prop := ∀ head ∈ chain.head?, head.readTs ≤ ts ∧ head.writeTs ≤ ts

/-- The selected version is the head, or the head is too new for the transaction. -/
def AtHead : Prop := ∀ head ∈ chain.head?, head.id = id ∨ ts < head.writeTs

end Readers

section Chains
variable {ts id smallestTs : Nat} {chain : List (Version R)}

theorem Admits.le_of_guarded {reader : Nat} (admits : Admits ts chain)
    (guarded : Guarded reader chain) (nonempty : chain ≠ []) : reader ≤ ts := by
  obtain ⟨head, rest, rfl⟩ := List.exists_cons_of_ne_nil nonempty
  have old := admits head rfl
  obtain seen | written := guarded head rfl
  · exact seen.trans old.1
  · exact written.trans old.2

theorem Newest.nil : Newest ts id ([] : List (Version R)) := by
  intro newer version older split
  simp at split

theorem Guarded.nil : Guarded ts ([] : List (Version R)) := by
  intro head first
  cases first

theorem Newest.gc (newest : Newest ts id chain) :
    Newest ts id (gcVersionChain smallestTs chain) := by
  intro newer version older split same
  apply newest newer version (older ++ gcFreed smallestTs chain) _ same
  calc
    chain = gcVersionChain smallestTs chain ++ gcFreed smallestTs chain :=
      (gcVersionChain_append_gcFreed smallestTs chain).symm
    _ = newer ++ version :: (older ++ gcFreed smallestTs chain) := by
      rw [split, List.append_assoc, List.cons_append]

theorem Guarded.gc (guarded : Guarded ts chain) : Guarded ts (gcVersionChain smallestTs chain) := by
  unfold Guarded
  rw [gcVersionChain_head?]
  exact guarded

theorem Newest.map {change : Version R → Version R}
    (sameId : ∀ version, (change version).id = version.id)
    (sameTs : ∀ version, (change version).writeTs = version.writeTs)
    (newest : Newest ts id chain) : Newest ts id (chain.map change) := by
  intro newer version older split same
  obtain ⟨newer', rest', rfl, rfl, split'⟩ := List.map_eq_append_iff.mp split
  obtain ⟨version', older', rfl, rfl, rfl⟩ := List.map_eq_cons_iff.mp split'
  intro other member
  obtain ⟨other', member', rfl⟩ := List.mem_map.mp member
  rw [sameTs]
  exact newest newer' version' older' rfl (by rw [← same, sameId]) other' member'

theorem Guarded.map {change : Version R → Version R}
    (sameTs : ∀ version, (change version).writeTs = version.writeTs)
    (later : ∀ version, version.readTs ≤ (change version).readTs)
    (guarded : Guarded ts chain) : Guarded ts (chain.map change) := by
  intro head first
  rw [List.head?_map] at first
  obtain ⟨head', first', rfl⟩ := Option.mem_map.mp first
  rw [sameTs]
  exact (guarded head' first').imp_left fun seen => seen.trans (later head')

theorem Newest.cons {version : Version R} (new : version.id ≠ id) (late : ts ≤ version.writeTs)
    (newest : Newest ts id chain) : Newest ts id (version :: chain) := by
  intro newer other older split same
  cases newer with
  | nil =>
    obtain ⟨rfl, -⟩ := List.cons.inj split
    exact absurd same new
  | cons first newer =>
    obtain ⟨rfl, rfl⟩ := List.cons.inj split
    intro behind member
    obtain rfl | member := List.mem_cons.mp member
    · exact late
    · exact newest newer other older rfl same behind member

theorem Guarded.cons {version : Version R} (late : ts ≤ version.writeTs) :
    Guarded ts (version :: chain) := by
  intro head first
  obtain rfl := Option.some.inj first
  exact .inr late

/-- Selecting a version leaves nothing readable in front of it. -/
theorem Newest.mono {later : Nat} (newest : Newest later id chain) (upTo : ts ≤ later) :
    Newest ts id chain :=
  fun newer version older split same other member =>
    upTo.trans (newest newer version older split same other member)

/-- What is newer than the selected version was written after the transaction began. -/
theorem Newest.of_select {version : Version R}
    (distinct : chain.Pairwise fun newer older => older.id < newer.id)
    (found : getCorrectVersion ts chain = some version) : Newest (ts + 1) version.id chain := by
  obtain ⟨-, newer, older, rfl, above⟩ := getCorrectVersion_split found
  intro newer' version' older' split same other member
  -- two versions with one id stand at the same place
  have place : newer = newer' := by
    obtain ⟨between, rfl, split'⟩ | ⟨between, rfl, split'⟩ := List.append_eq_append_iff.mp split
    · cases between with
      | nil => simp
      | cons first between =>
        obtain ⟨rfl, rfl⟩ := List.cons.inj split'
        have lt := (List.pairwise_append.mp distinct).2.1
        have := (List.pairwise_cons.mp lt).1 version' (by simp)
        omega
    · cases between with
      | nil => simp
      | cons first between =>
        obtain ⟨rfl, rfl⟩ := List.cons.inj split'
        have lt := (List.pairwise_append.mp distinct).2.2 version' (by simp) version (by simp)
        omega
  subst place
  exact above other member

theorem AtHead.of_select {version : Version R}
    (found : getCorrectVersion ts chain = some version) : AtHead ts version.id chain := by
  obtain ⟨-, newer, older, rfl, above⟩ := getCorrectVersion_split found
  intro head first
  cases newer with
  | nil =>
    obtain rfl := Option.some.inj first
    exact .inl rfl
  | cons other newer =>
    obtain rfl := Option.some.inj first
    exact .inr (above _ List.mem_cons_self)

/-- A reader guards the chain once it has updated `read_ts`. -/
theorem AtHead.guarded_touch (atHead : AtHead ts id chain) : Guarded ts (touch id ts chain) := by
  intro head first
  rw [touch_head?] at first
  obtain ⟨head', first', rfl⟩ := Option.mem_map.mp first
  split
  · exact .inl (Version.le_updateReadts head' ts)
  · rename_i other
    exact .inr ((atHead head' first').resolve_left other).le

end Chains

def Evolves (ts id : Nat) (chain chain' : List (Version R)) : Prop :=
  (Newest ts id chain → Newest ts id chain') ∧ (Guarded ts chain → Guarded ts chain')

structure ValueOk (state : State n K R) (val : Nat) : Prop where
  ids : (state.value val).chain.Pairwise fun newer older => older.id < newer.id
  below : ∀ version ∈ (state.value val).chain, version.id < state.nextVersion
  kept : ∀ version ∈ (state.value val).chain, state.freed val version.id = false
  freedBelow : ∀ id, state.freed val id = true → id < state.nextVersion

structure TxOk (state : State n K R) (worker : Fin n) (tx : Tx K R) : Prop where
  owned : ∀ val ∈ tx.phase.held, (state.value val).owner = some worker
  heldBelow : ∀ val ∈ tx.phase.held, val < state.nextValue
  heldOnce : tx.phase.held.Nodup
  elementBelow : ∀ key element, tx.rws key = some element → element.val < state.nextValue
  unread : ∀ access, tx.phase.accessing = some access → tx.rws access.key = none
  writes : tx.phase = .failed ∨
    ∀ key ∈ tx.ws, ∃ element, tx.rws key = some element ∧ element.rwt ≠ .read
  toLock : ∀ key ∈ tx.phase.toLock, key ∈ tx.ws
  toRemove : ∀ entry ∈ tx.phase.toRemove, entry.2.val ∈ tx.phase.held
  admits : ∀ entry ∈ tx.phase.unapplied, entry.2.isNew = false →
    Admits tx.startTs (state.value entry.2.val).chain ∧ (state.value entry.2.val).chain ≠ []
  atHead : ∀ val id, tx.phase.selection = some (val, id) →
    AtHead tx.startTs id (state.value val).chain
  chosenBelow : ∀ val id, (val, id) ∈ tx.chosen → val < state.nextValue ∧ id < state.nextVersion
  newest : ∀ val id, (val, id) ∈ tx.chosen → Newest tx.startTs id (state.value val).chain
  guarded : ∀ val id, (val, id) ∈ tx.chosen →
    tx.phase.selection = some (val, id) ∨ Guarded tx.startTs (state.value val).chain

structure Inv (state : State n K R) : Prop where
  value : ∀ val, ValueOk state val
  index : ∀ key val, state.index key = some val → val < state.nextValue
  tx : ∀ worker, TxOk state worker (state.tx worker)

theorem Inv.start (loaded : Loaded K) (records : Nat → R) :
    Inv (start loaded records : State n K R) where
  value val := by constructor <;> simp [Mvto.start]
  index := loaded.allocated
  tx worker := by
    constructor <;> simp [Mvto.start, Tx.new, Phase.held, Phase.toLock, Phase.toRemove,
      Phase.unapplied, Phase.selection, Phase.accessing]

section Frames
variable {state : State n K R} {worker : Fin n} {tx : Tx K R} {val : Nat}

/-- What a worker relies on when the shared part changes: its locks, the heads of the chains it
has checked or reads from, and what it has read. -/
theorem TxOk.evolve {state' : State n K R} (ok : TxOk state worker tx)
    (values : state.nextValue ≤ state'.nextValue)
    (versions : state.nextVersion ≤ state'.nextVersion)
    (owned : ∀ val ∈ tx.phase.held, (state'.value val).owner = (state.value val).owner)
    (checked : ∀ entry ∈ tx.phase.unapplied,
      (state'.value entry.2.val).chain.head? = (state.value entry.2.val).chain.head?)
    (selected : ∀ val id, tx.phase.selection = some (val, id) →
      (state'.value val).chain.head? = (state.value val).chain.head?)
    (evolves : ∀ val id, (val, id) ∈ tx.chosen →
      Evolves tx.startTs id (state.value val).chain (state'.value val).chain) :
    TxOk state' worker tx where
  owned other held := (owned other held).trans (ok.owned other held)
  heldBelow other held := (ok.heldBelow other held).trans_le values
  heldOnce := ok.heldOnce
  elementBelow key element present := (ok.elementBelow key element present).trans_le values
  unread := ok.unread
  writes := ok.writes
  toLock := ok.toLock
  toRemove := ok.toRemove
  admits entry member old := by
    have admits := ok.admits entry member old
    unfold Admits at admits ⊢
    rw [ne_eq, ← List.head?_eq_none_iff] at admits ⊢
    rwa [checked entry member]
  atHead other id here := by
    unfold AtHead
    rw [selected other id here]
    exact ok.atHead other id here
  chosenBelow other id chosen :=
    (ok.chosenBelow other id chosen).imp (·.trans_le values) (·.trans_le versions)
  newest other id chosen := (evolves other id chosen).1 (ok.newest other id chosen)
  guarded other id chosen := (ok.guarded other id chosen).imp_right (evolves other id chosen).2

theorem Evolves.refl (ts id : Nat) (chain : List (Version R)) : Evolves ts id chain chain :=
  ⟨fun newest => newest, fun guarded => guarded⟩

theorem TxOk.mono {state' : State n K R} (ok : TxOk state worker tx)
    (same : state'.value = state.value) (values : state.nextValue ≤ state'.nextValue)
    (versions : state.nextVersion ≤ state'.nextVersion) : TxOk state' worker tx := by
  refine ok.evolve values versions ?_ ?_ ?_ ?_ <;> intros <;> rw [same]
  exact .refl ..

theorem TxOk.setOwner (ok : TxOk state worker tx) (unheld : val ∉ tx.phase.held)
    (owner : Option (Fin n)) : TxOk (state.setOwner val owner) worker tx := by
  refine ok.evolve le_rfl le_rfl ?_ ?_ ?_ ?_
  · intro other held
    have different : other ≠ val := fun same => unheld (same ▸ held)
    rw [setOwner_of_ne _ _ _ different]
  all_goals intros; rw [setOwner_chain]
  exact .refl ..

theorem TxOk.setChain {chain : List (Version R)} (ok : TxOk state worker tx)
    (unapplied : ∀ entry ∈ tx.phase.unapplied, entry.2.val ≠ val)
    (unselected : ∀ id, tx.phase.selection ≠ some (val, id))
    (evolves : ∀ id, (val, id) ∈ tx.chosen →
      Evolves tx.startTs id (state.value val).chain chain) :
    TxOk (state.setChain val chain) worker tx := by
  refine ok.evolve le_rfl le_rfl ?_ ?_ ?_ ?_
  · exact fun other _ => setChain_owner state val chain other
  · exact fun entry member => by rw [setChain_of_ne _ _ _ (unapplied entry member)]
  · intro other id selected
    have different : other ≠ val := fun same => unselected id (same ▸ selected)
    rw [setChain_of_ne _ _ _ different]
  · intro other id chosen
    by_cases same : other = val
    · subst same
      rw [setChain_chain]
      exact evolves id chosen
    · rw [setChain_of_ne _ _ _ same]
      exact .refl ..

theorem TxOk.setChain_of_unheld {chain : List (Version R)} (ok : TxOk state worker tx)
    (unheld : val ∉ tx.phase.held)
    (evolves : ∀ id, (val, id) ∈ tx.chosen →
      Evolves tx.startTs id (state.value val).chain chain) :
    TxOk (state.setChain val chain) worker tx :=
  ok.setChain (fun _ unapplied same => unheld (same ▸ held_of_unapplied unapplied))
    (fun _ selected => unheld (held_of_selection selected)) evolves

end Frames

end TpccRunner.Mvto
