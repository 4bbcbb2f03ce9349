import TpccRunner.Mvto.Invariant

/-!
# Every step of MVTO keeps the invariant

The steps are compositions of a few changes of the state: a worker's transaction is
replaced, a lock changes hands, a chain changes.  Each change has its rule; a step is
then a matter of who holds what.
-/

set_option autoImplicit false

namespace TpccRunner.Mvto

open Lib

variable {n : Nat} {K R : Type} {state state' : State n K R} {worker : Fin n} {val : Nat}

def Phase.Quiet (phase : Phase K R) : Prop :=
  phase.held = [] ∧ phase.unapplied = [] ∧ phase.accessing = none ∧ phase.toLock = [] ∧
    phase.toRemove = []

theorem selection_of_accessing {phase : Phase K R} (quiet : phase.accessing = none) :
    phase.selection = none := by
  cases phase with
  | selected | collected => cases quiet
  | _ => rfl

section Transactions
variable {tx : Tx K R}

theorem TxOk.of_quiet (quiet : tx.phase.Quiet)
    (elements : ∀ key element, tx.rws key = some element → element.val < state.nextValue)
    (writes : tx.phase = .failed ∨
      ∀ key ∈ tx.ws, ∃ element, tx.rws key = some element ∧ element.rwt ≠ .read)
    (below : ∀ val id, (val, id) ∈ tx.chosen → val < state.nextValue ∧ id < state.nextVersion)
    (newest : ∀ val id, (val, id) ∈ tx.chosen → Newest tx.startTs id (state.value val).chain)
    (guarded : ∀ val id, (val, id) ∈ tx.chosen → Guarded tx.startTs (state.value val).chain) :
    TxOk state worker tx := by
  obtain ⟨held, unapplied, accessing, toLock, toRemove⟩ := quiet
  exact
    { owned := by simp [held]
      heldBelow := by simp [held]
      heldOnce := by simp [held]
      elementBelow := elements
      unread := by simp [accessing]
      writes := writes
      toLock := by simp [toLock]
      toRemove := by simp [toRemove]
      admits := by simp [unapplied]
      atHead := by simp [selection_of_accessing accessing]
      chosenBelow := below
      newest := newest
      guarded := fun val id chosen => .inr (guarded val id chosen) }

theorem TxOk.guarded_of_unselected (ok : TxOk state worker tx)
    (unselected : tx.phase.selection = none) :
    ∀ val id, (val, id) ∈ tx.chosen → Guarded tx.startTs (state.value val).chain := by
  intro val id chosen
  obtain selected | guarded := ok.guarded val id chosen
  · rw [unselected] at selected
    cases selected
  · exact guarded

theorem TxOk.writes_of_live (ok : TxOk state worker tx) (live : tx.phase ≠ .failed) :
    ∀ key ∈ tx.ws, ∃ element, tx.rws key = some element ∧ element.rwt ≠ .read :=
  ok.writes.resolve_left live

theorem TxOk.setQuiet (ok : TxOk state worker tx) (unselected : tx.phase.selection = none)
    {phase : Phase K R} (quiet : phase.Quiet) (live : phase = .failed ∨ tx.phase ≠ .failed) :
    TxOk state worker { tx with phase } :=
  .of_quiet quiet ok.elementBelow (live.imp_right ok.writes_of_live) ok.chosenBelow ok.newest
    (ok.guarded_of_unselected unselected)

theorem TxOk.new (startTs smallestTs : Nat) :
    TxOk state worker (Tx.new startTs smallestTs : Tx K R) := by
  apply TxOk.of_quiet ⟨rfl, rfl, rfl, rfl, rfl⟩ <;> simp [Tx.new]

structure Outcome.Ok (outcome : Outcome R) (written : Prop) (nextValue : Nat) : Prop where
  below : ∀ element, outcome.element = some element → element.val < nextValue
  writes : outcome.pushed = true ∨ written →
    ∀ element, outcome.element = some element → element.rwt ≠ .read
  present : outcome.result.isSome → outcome.element.isSome

variable [DecidableEq K] {op : Operation} {key : K} {outcome : Outcome R}

theorem TxOk.settle (below : ∀ val id, (val, id) ∈ tx.chosen →
      val < state.nextValue ∧ id < state.nextVersion)
    (newest : ∀ val id, (val, id) ∈ tx.chosen → Newest tx.startTs id (state.value val).chain)
    (guarded : ∀ val id, (val, id) ∈ tx.chosen → Guarded tx.startTs (state.value val).chain)
    (elements : ∀ key element, tx.rws key = some element → element.val < state.nextValue)
    (writes : ∀ key ∈ tx.ws, ∃ element, tx.rws key = some element ∧ element.rwt ≠ .read)
    (ok : outcome.Ok (key ∈ tx.ws) state.nextValue) :
    TxOk state worker (tx.settle op key outcome) := by
  have quiet : (tx.settle op key outcome).phase.Quiet := by
    unfold Tx.settle
    dsimp only
    split <;> exact ⟨rfl, rfl, rfl, rfl, rfl⟩
  apply TxOk.of_quiet quiet _ _ below newest guarded
  · intro other element present
    by_cases same : other = key
    · subst same
      exact ok.below element (by simpa [Tx.settle] using present)
    · exact elements other element (by simpa [Tx.settle, same] using present)
  · cases returned : outcome.result with
    | none => exact .inl (by simp [Tx.settle, returned])
    | some record =>
      refine .inr fun other member => ?_
      have member' : other ∈ tx.ws ∨ (outcome.pushed = true ∧ other = key) := by
        by_cases pushed : outcome.pushed
        · simpa [Tx.settle, pushed] using member
        · simpa [Tx.settle, pushed] using member
      by_cases same : other = key
      · subst same
        obtain ⟨element, present⟩ := Option.isSome_iff_exists.mp (ok.present (by simp [returned]))
        refine ⟨element, by simp [Tx.settle, present], ok.writes ?_ element present⟩
        exact member'.symm.imp_left And.left
      · have old := member'.resolve_right fun both => same both.2
        simpa [Tx.settle, same] using writes other old

omit [DecidableEq K] in
theorem Element.perform_ok {element : Element R} {written : Prop} {nextValue : Nat}
    (below : element.val < nextValue) (write : written → element.rwt ≠ .read)
    (performed : element.perform op = some outcome) : outcome.Ok written nextValue := by
  unfold Element.perform at performed
  dsimp only at performed
  split at performed <;> simp only [Option.some.injEq, reduceCtorEq] at performed <;>
    subst performed <;> constructor <;> simp_all [Outcome.null]

omit [DecidableEq K] in
theorem Access.perform_ok {access : Access K R} {version : Version R} {fresh : R}
    {written : Prop} {nextValue : Nat} (below : access.val < nextValue) (new : ¬ written) :
    (access.perform version fresh).Ok written nextValue := by
  unfold Access.perform Access.insertWith Access.updateWith
  split <;> (try split) <;> (try split) <;> constructor <;> simp_all [Outcome.null]

end Transactions

section Changes

theorem Inv.of_setTx {tx : Tx K R} (value : ∀ val, ValueOk state val)
    (index : ∀ key val, state.index key = some val → val < state.nextValue)
    (others : ∀ other, other ≠ worker → TxOk state other (state.tx other))
    (self : TxOk state worker tx) : Inv (state.setTx worker tx) where
  value val := { value val with }
  index := index
  tx other := by
    by_cases same : other = worker
    · subst same
      have here : (state.setTx other tx).tx other = tx := Function.update_self ..
      rw [here]
      exact self.mono rfl le_rfl le_rfl
    · have elsewhere : (state.setTx worker tx).tx other = state.tx other :=
        Function.update_of_ne same ..
      rw [elsewhere]
      exact (others other same).mono rfl le_rfl le_rfl

theorem Inv.setTx {tx : Tx K R} (inv : Inv state) (ok : TxOk state worker tx) :
    Inv (state.setTx worker tx) :=
  .of_setTx inv.value inv.index (fun other _ => inv.tx other) ok

theorem Inv.setQuiet (inv : Inv state) (unselected : (state.tx worker).phase.selection = none)
    {phase : Phase K R} (quiet : phase.Quiet)
    (live : phase = .failed ∨ (state.tx worker).phase ≠ .failed) :
    Inv (state.setPhase worker phase) :=
  inv.setTx ((inv.tx worker).setQuiet unselected quiet live)

theorem Inv.fail (inv : Inv state) (unselected : (state.tx worker).phase.selection = none) :
    Inv (state.setPhase worker .failed) :=
  inv.setQuiet unselected ⟨rfl, rfl, rfl, rfl, rfl⟩ (.inl rfl)

theorem Inv.unheld (inv : Inv state) {other : Fin n}
    (unowned : (state.value val).owner ≠ some other) : val ∉ (state.tx other).phase.held :=
  fun held => unowned ((inv.tx other).owned val held)

theorem ValueOk.setOwner (ok : ∀ val, ValueOk state val) (owner : Option (Fin n)) (other : Nat) :
    ValueOk (state.setOwner val owner) other where
  ids := by
    rw [setOwner_chain]
    exact (ok other).ids
  below := by
    rw [setOwner_chain]
    exact (ok other).below
  kept := by
    rw [setOwner_chain]
    exact (ok other).kept
  freedBelow := (ok other).freedBelow

theorem Inv.setOwner (inv : Inv state) (unheld : ∀ other, val ∉ (state.tx other).phase.held)
    (owner : Option (Fin n)) : Inv (state.setOwner val owner) where
  value := ValueOk.setOwner inv.value owner
  index := inv.index
  tx other := (inv.tx other).setOwner (unheld other) owner

theorem ValueOk.setChain {chain : List (Version R)} (ok : ∀ val, ValueOk state val)
    (ids : chain.Pairwise fun newer older => older.id < newer.id)
    (fresh : ∀ version ∈ chain, version.id < state.nextVersion ∧
      state.freed val version.id = false) (other : Nat) :
    ValueOk (state.setChain val chain) other := by
  by_cases same : other = val
  · subst same
    refine ⟨?_, ?_, ?_, (ok other).freedBelow⟩
    · rw [setChain_chain]
      exact ids
    · rw [setChain_chain]
      exact fun version member => (fresh version member).1
    · rw [setChain_chain]
      exact fun version member => (fresh version member).2
  · have elsewhere := setChain_of_ne state val chain same
    exact ⟨elsewhere ▸ (ok other).ids, elsewhere ▸ (ok other).below, elsewhere ▸ (ok other).kept,
      (ok other).freedBelow⟩

theorem ValueOk.mapChain {change : Version R → Version R} (ok : ∀ val, ValueOk state val)
    (sameId : ∀ version, (change version).id = version.id) (other : Nat) :
    ValueOk (state.setChain val ((state.value val).chain.map change)) other := by
  apply ValueOk.setChain ok
  · rw [List.pairwise_map]
    simpa only [sameId] using (ok val).ids
  · intro version member
    obtain ⟨old, member', rfl⟩ := List.mem_map.mp member
    rw [sameId]
    exact ⟨(ok val).below old member', (ok val).kept old member'⟩

theorem Inv.setChain {chain : List (Version R)} (inv : Inv state)
    (ids : chain.Pairwise fun newer older => older.id < newer.id)
    (fresh : ∀ version ∈ chain, version.id < state.nextVersion ∧
      state.freed val version.id = false)
    (unheld : ∀ other, val ∉ (state.tx other).phase.held)
    (evolves : ∀ other id, (val, id) ∈ (state.tx other).chosen →
      Evolves (state.tx other).startTs id (state.value val).chain chain) :
    Inv (state.setChain val chain) where
  value := ValueOk.setChain inv.value ids fresh
  index := inv.index
  tx other := (inv.tx other).setChain_of_unheld (unheld other) (evolves other)

theorem Inv.setIndex (inv : Inv state) {index : K → Option Nat}
    (below : ∀ key val, index key = some val → val < state.nextValue) :
    Inv { state with index } where
  value val := { inv.value val with }
  index := below
  tx other := (inv.tx other).mono rfl le_rfl le_rfl

theorem Inv.raise (inv : Inv state) {nextVersion : Nat} (later : state.nextVersion ≤ nextVersion) :
    Inv { state with nextVersion } where
  value val :=
    { inv.value val with
      below := fun version member => ((inv.value val).below version member).trans_le later
      freedBelow := fun id freed => ((inv.value val).freedBelow id freed).trans_le later }
  index := inv.index
  tx other := (inv.tx other).mono rfl le_rfl later

theorem Inv.gc (inv : Inv state) (worker : Fin n) (val : Nat) : Inv (state.gc worker val) := by
  set smallestTs := (state.tx worker).smallestTs
  have here : (state.gc worker val).value val =
      { state.value val with chain := gcVersionChain smallestTs (state.value val).chain } := by
    simp [State.gc, State.setChain, State.setValue, smallestTs]
  have elsewhere :
      ∀ other, other ≠ val → (state.gc worker val).value other = state.value other := by
    intro other different
    simp [State.gc, State.setChain, State.setValue, different]
  have split := gcVersionChain_append_gcFreed smallestTs (state.value val).chain
  have ordered := (inv.value val).ids
  rw [← split, List.pairwise_append] at ordered
  have heads : ∀ other, ((state.gc worker val).value other).chain.head? =
      (state.value other).chain.head? := by
    intro other
    by_cases same : other = val
    · rw [same, here, gcVersionChain_head?]
    · rw [elsewhere other same]
  refine ⟨fun other => ?_, inv.index, fun other => ?_⟩
  · by_cases same : other = val
    · subst same
      refine ⟨?_, ?_, ?_, ?_⟩
      · rw [here]
        exact ordered.1
      · rw [here]
        exact fun version member => (inv.value other).below version (gcVersionChain_subset member)
      · rw [here]
        intro version member
        have kept := (inv.value other).kept version (gcVersionChain_subset member)
        have apart : ∀ older ∈ gcFreed smallestTs (state.value other).chain,
            older.id ≠ version.id := fun older freed => (ordered.2.2 version member older freed).ne
        simpa [State.gc, kept] using apart
      · intro id freed
        simp only [State.gc, Bool.or_eq_true, Bool.and_eq_true, List.any_eq_true,
          decide_eq_true_eq] at freed
        obtain freed | ⟨-, version, member, rfl⟩ := freed
        · exact (inv.value other).freedBelow id freed
        · apply (inv.value other).below version
          rw [← split]
          exact List.mem_append_right _ member
    · have ok := inv.value other
      have freed : (state.gc worker val).freed other = state.freed other := by
        funext id
        simp [State.gc, same]
      exact ⟨elsewhere other same ▸ ok.ids, elsewhere other same ▸ ok.below,
        elsewhere other same ▸ freed ▸ ok.kept, freed ▸ ok.freedBelow⟩
  · refine (inv.tx other).evolve le_rfl le_rfl ?_ ?_ ?_ ?_
    · exact fun val' _ => setChain_owner state val _ val'
    · exact fun entry _ => heads entry.2.val
    · exact fun val' _ _ => heads val'
    · intro val' id _
      by_cases same : val' = val
      · rw [same, here]
        exact ⟨Newest.gc, Guarded.gc⟩
      · rw [elsewhere val' same]
        exact .refl ..

end Changes

section Operations
variable [DecidableEq K] {op : Operation} {key : K}

theorem Inv.own {element : Element R} {outcome : Outcome R} (inv : Inv state)
    (running : (state.tx worker).phase = .running)
    (present : (state.tx worker).rws key = some element)
    (performed : element.perform op = some outcome) :
    Inv (state.setTx worker ((state.tx worker).settle op key outcome)) := by
  have ok := inv.tx worker
  have writes := ok.writes_of_live (by simp [running])
  apply inv.setTx
  apply TxOk.settle ok.chosenBelow ok.newest _ ok.elementBelow writes
  · apply Element.perform_ok (ok.elementBelow key element present) _ performed
    intro member
    obtain ⟨element', present', write⟩ := writes key member
    rw [present] at present'
    exact Option.some.inj present' ▸ write
  · exact ok.guarded_of_unselected (by rw [running]; rfl)

theorem Inv.store {element : Element R} {record : R} (inv : Inv state)
    (running : (state.tx worker).phase = .running)
    (present : (state.tx worker).rws key = some element) :
    Inv (state.setTx worker ((state.tx worker).store key element record)) := by
  have ok := inv.tx worker
  have quiet : ((state.tx worker).store key element record).phase.Quiet := by
    unfold Tx.store
    rw [running]
    exact ⟨rfl, rfl, rfl, rfl, rfl⟩
  apply inv.setTx
  apply TxOk.of_quiet quiet _ _ ok.chosenBelow ok.newest
    (ok.guarded_of_unselected (by rw [running]; rfl))
  · intro other element' present'
    by_cases same : other = key
    · subst same
      have here : some { element with writeRec := some record } = some element' := by
        simpa [Tx.store] using present'
      obtain rfl := Option.some.inj here
      exact ok.elementBelow other element present
    · exact ok.elementBelow other element' (by simpa [Tx.store, same] using present')
  · refine .inr fun other member => ?_
    obtain ⟨old, present', write⟩ := ok.writes_of_live (by simp [running]) other member
    by_cases same : other = key
    · subst same
      obtain rfl := Option.some.inj (present.symm.trans present')
      exact ⟨{ element with writeRec := some record }, by simp [Tx.store], write⟩
    · exact ⟨old, by simpa [Tx.store, same] using present', write⟩

omit [DecidableEq K] in
theorem TxOk.alloc {tx : Tx K R} {value : Value n R} (ok : TxOk state worker tx) :
    TxOk { state.setValue state.nextValue value with
        nextValue := state.nextValue + 1
        nextVersion := state.nextVersion + 1 } worker tx := by
  have chains : ∀ val, val < state.nextValue →
      (state.setValue state.nextValue value).value val = state.value val := by
    intro val below
    simp [State.setValue, below.ne]
  refine ok.evolve (Nat.le_succ _) (Nat.le_succ _) ?_ ?_ ?_ ?_
  · exact fun val held => congrArg Value.owner (chains val (ok.heldBelow val held))
  · exact fun entry unapplied => by
      rw [← chains _ (ok.heldBelow _ (held_of_unapplied unapplied))]
  · exact fun val id selected => by
      rw [← chains _ (ok.heldBelow _ (held_of_selection selected))]
  · intro val id chosen
    rw [← chains _ (ok.chosenBelow val id chosen).1]
    exact .refl ..

omit [DecidableEq K] in
theorem Inv.alloc (inv : Inv state) (version : Version R) (new : version.id = state.nextVersion) :
    Inv { state.setValue state.nextValue ⟨none, [version]⟩ with
        nextValue := state.nextValue + 1
        nextVersion := state.nextVersion + 1 } where
  value val := by
    by_cases same : val = state.nextValue
    · subst same
      have old : state.freed state.nextValue version.id = false := by
        rw [Bool.eq_false_iff]
        intro freed
        have := (inv.value state.nextValue).freedBelow version.id freed
        omega
      refine ⟨?_, ?_, ?_, fun id freed => ?_⟩
      · simp [State.setValue]
      · simp [State.setValue, new]
      · simpa [State.setValue] using old
      · exact Nat.lt_succ_of_lt ((inv.value _).freedBelow id freed)
    · have elsewhere : (state.setValue state.nextValue ⟨none, [version]⟩).value val =
          state.value val := by
        simp [State.setValue, same]
      have ok := inv.value val
      refine ⟨?_, ?_, ?_, fun id freed => Nat.lt_succ_of_lt (ok.freedBelow id freed)⟩
      · rw [elsewhere]
        exact ok.ids
      · rw [elsewhere]
        exact fun other member => Nat.lt_succ_of_lt (ok.below other member)
      · rw [elsewhere]
        exact ok.kept
  index key val present := Nat.lt_succ_of_lt (inv.index key val present)
  tx other := (inv.tx other).alloc

theorem Inv.miss {fresh : R} (inv : Inv state) (running : (state.tx worker).phase = .running) :
    Inv (state.miss worker op key fresh) := by
  have unselected : (state.tx worker).phase.selection = none := by
    rw [running]
    rfl
  have failed : Inv (state.setPhase worker .failed) := inv.fail unselected
  -- a new value, then the operation's element for it
  have created : ∀ op' : Operation, Inv
      { state.setValue state.nextValue
            ⟨none, [⟨state.nextVersion, (state.tx worker).startTs, (state.tx worker).startTs,
              some fresh, false⟩]⟩ with
        tx := Function.update state.tx worker
          ((state.tx worker).settle op' key
            ⟨some ⟨none, some fresh, .insert, true, state.nextValue⟩, true, some fresh, true⟩)
        nextValue := state.nextValue + 1
        nextVersion := state.nextVersion + 1 } := by
    intro op'
    have new := inv.alloc ⟨state.nextVersion, (state.tx worker).startTs,
      (state.tx worker).startTs, some fresh, false⟩ rfl
    have ok := new.tx worker
    apply new.setTx
    apply TxOk.settle ok.chosenBelow ok.newest (ok.guarded_of_unselected unselected)
      ok.elementBelow (ok.writes_of_live (by simp [State.setValue, running]))
    constructor <;> simp
  cases op with
  | insert | upsert => exact created _
  | read | update | remove => exact failed

theorem Inv.access (inv : Inv state) (running : (state.tx worker).phase = .running)
    (unread : (state.tx worker).rws key = none) (present : state.index key = some val)
    (free : (state.value val).owner = none) :
    Inv (state.access worker op key val) := by
  have unheld : ∀ other, val ∉ (state.tx other).phase.held :=
    fun other => inv.unheld (by simp [free])
  have unselected : (state.tx worker).phase.selection = none := by
    rw [running]
    rfl
  have ok := inv.tx worker
  unfold State.access
  dsimp only
  split
  · exact inv.fail unselected
  · split
    · -- delete_from_tree
      have cleared : Inv (state.setChain val []) := by
        apply inv.setChain List.Pairwise.nil (by simp) unheld
        exact fun other id _ => ⟨fun _ => Newest.nil, fun _ => Guarded.nil⟩
      refine (cleared.fail unselected).setIndex ?_
      intro other val' present'
      by_cases same : other = key
      · simp [same] at present'
      · exact inv.index other val' (by simpa [same] using present')
    · -- the lock is taken and a version selected
      have taken := inv.setOwner unheld (some worker)
      have ok' := taken.tx worker
      have chain : ((state.setOwner val (some worker)).value val).chain =
          (state.value val).chain := by
        simp [State.setOwner, State.setValue]
      set version := getCorrectVersion (state.tx worker).startTs (state.value val).chain
        with selected
      refine taken.setTx ?_
      have chosen_cases : ∀ val' id, (val', id) ∈
          (version.map fun version => (val, version.id)).toList ++ (state.tx worker).chosen →
          (∃ found, version = some found ∧ val' = val ∧ id = found.id) ∨
            (val', id) ∈ (state.tx worker).chosen := by
        intro val' id chosen
        refine (List.mem_append.mp chosen).imp_left fun new => ?_
        simp only [Option.mem_toList, Option.map_eq_some_iff, Prod.mk.injEq] at new
        obtain ⟨found, here, rfl, rfl⟩ := new
        exact ⟨found, here, rfl, rfl⟩
      refine
        { owned := ?_
          heldBelow := ?_
          heldOnce := List.nodup_singleton _
          elementBelow := ok'.elementBelow
          unread := ?_
          writes := .inr (ok'.writes_of_live (by simp [State.setOwner, State.setValue, running]))
          toLock := by simp [Phase.toLock]
          toRemove := by simp [Phase.toRemove]
          admits := by simp [Phase.unapplied]
          atHead := fun val' id here => ?_
          chosenBelow := fun val' id chosen => ?_
          newest := fun val' id chosen => ?_
          guarded := fun val' id chosen => ?_ }
      · simp [Phase.held, State.setOwner, State.setValue]
      · intro val' held
        obtain rfl := List.mem_singleton.mp held
        exact inv.index key _ present
      · intro access accessing
        obtain rfl := Option.some.inj accessing
        exact unread
      · obtain ⟨found, isFound, same⟩ := Option.map_eq_some_iff.mp here
        obtain ⟨rfl, rfl⟩ := Prod.mk.inj same
        rw [chain]
        exact AtHead.of_select (selected ▸ isFound)
      · obtain ⟨found, here, rfl, rfl⟩ | old := chosen_cases val' id chosen
        · obtain ⟨-, newer, older, split, -⟩ := getCorrectVersion_split (selected ▸ here)
          have member : found ∈ (state.value val').chain := by
            rw [split]
            exact List.mem_append_right _ List.mem_cons_self
          exact ⟨inv.index key _ present, (inv.value _).below found member⟩
        · exact ok.chosenBelow val' id old
      · obtain ⟨found, here, rfl, rfl⟩ | old := chosen_cases val' id chosen
        · rw [chain]
          exact (Newest.of_select (inv.value _).ids (selected ▸ here)).mono (Nat.le_succ _)
        · exact ok'.newest val' id old
      · obtain ⟨found, here, rfl, rfl⟩ | old := chosen_cases val' id chosen
        · exact .inl (by simp [Phase.selection, here])
        · exact .inr (ok'.guarded_of_unselected unselected val' id old)

theorem Inv.finishAccess {access : Access K R} {fresh : R} (inv : Inv state)
    (collected : (state.tx worker).phase = .collected access) :
    Inv (state.finishAccess worker access fresh) := by
  have ok := inv.tx worker
  have held : access.val ∈ (state.tx worker).phase.held := by
    rw [collected]
    exact List.mem_singleton_self _
  have unheld : ∀ other, other ≠ worker → access.val ∉ (state.tx other).phase.held := by
    intro other different
    apply inv.unheld
    rw [ok.owned access.val held]
    exact fun same => different (Option.some.inj same).symm
  unfold State.finishAccess
  cases selected : access.version with
  | none =>
    -- nothing was selected, so every earlier read is guarded already
    have unselected : (state.tx worker).phase.selection = none := by
      rw [collected]
      simp [Phase.selection, selected]
    apply (inv.fail unselected).setOwner
    intro other
    by_cases same : other = worker
    · simp [State.setPhase, State.setTx, same, Phase.held]
    · simpa [State.setPhase, State.setTx, same] using unheld other same
  | some version =>
    set chain := touch version.id (state.tx worker).startTs (state.value access.val).chain
    have selection : (state.tx worker).phase.selection = some (access.val, version.id) := by
      rw [collected]
      simp [Phase.selection, selected]
    have evolves : ∀ ts id, Evolves ts id (state.value access.val).chain chain := by
      intro ts id
      refine ⟨Newest.map ?_ ?_, Guarded.map ?_ ?_⟩
      · intro version
        split <;> simp
      · intro version
        split <;> simp
      · intro version
        split <;> simp
      · intro version
        split
        · exact Version.readTs_le_updateReadts version _
        · exact le_rfl
    have values : ∀ val, ValueOk (state.setChain access.val chain) val := by
      apply ValueOk.mapChain inv.value
      intro version
      split <;> simp
    have readers : ∀ val id, (val, id) ∈ (state.tx worker).chosen →
        Newest (state.tx worker).startTs id ((state.setChain access.val chain).value val).chain ∧
        Guarded (state.tx worker).startTs ((state.setChain access.val chain).value val).chain := by
      intro val id chosen
      by_cases same : val = access.val
      · subst same
        rw [setChain_chain]
        exact ⟨(evolves _ id).1 (ok.newest _ id chosen), (ok.atHead _ _ selection).guarded_touch⟩
      · rw [setChain_of_ne _ _ _ same]
        refine ⟨ok.newest val id chosen, (ok.guarded val id chosen).resolve_left ?_⟩
        rw [selection]
        exact fun same' => same (Prod.mk.inj (Option.some.inj same')).1.symm
    dsimp only
    rw [setValue_eq]
    apply Inv.of_setTx (ValueOk.setOwner values none) inv.index
    · intro other different
      exact ((inv.tx other).setChain_of_unheld (unheld other different)
        (fun id _ => evolves _ id)).setOwner (unheld other different) none
    · have writes := ok.writes_of_live (by simp [collected])
      have unread : (state.tx worker).rws access.key = none :=
        ok.unread access (by rw [collected]; rfl)
      refine TxOk.settle ?_ ?_ ?_ ?_ writes ?_
      · exact ok.chosenBelow
      · intro val id chosen
        rw [setOwner_chain]
        exact (readers val id chosen).1
      · intro val id chosen
        rw [setOwner_chain]
        exact (readers val id chosen).2
      · exact ok.elementBelow
      · apply Access.perform_ok (ok.heldBelow access.val held)
        intro member
        obtain ⟨element, present, -⟩ := writes access.key member
        simp [unread] at present

end Operations

section Precommit
variable {tx : Tx K R} {phase : Phase K R}

theorem TxOk.setPhase (ok : TxOk state worker tx) (unselected : tx.phase.selection = none)
    (live : tx.phase ≠ .failed) (accessing : phase.accessing = none)
    (held : ∀ val ∈ phase.held, (state.value val).owner = some worker ∧ val < state.nextValue)
    (once : phase.held.Nodup) (toLock : ∀ key ∈ phase.toLock, key ∈ tx.ws)
    (toRemove : ∀ entry ∈ phase.toRemove, entry.2.val ∈ phase.held)
    (admits : ∀ entry ∈ phase.unapplied, entry.2.isNew = false →
      Admits tx.startTs (state.value entry.2.val).chain ∧
        (state.value entry.2.val).chain ≠ []) :
    TxOk state worker { tx with phase } where
  owned val member := (held val member).1
  heldBelow val member := (held val member).2
  heldOnce := once
  elementBelow := ok.elementBelow
  unread := by simp [accessing]
  writes := .inr (ok.writes_of_live live)
  toLock := toLock
  toRemove := toRemove
  admits := admits
  atHead := by simp [selection_of_accessing accessing]
  chosenBelow := ok.chosenBelow
  newest := ok.newest
  guarded val id chosen := .inr (ok.guarded_of_unselected unselected val id chosen)

theorem TxOk.shrink (ok : TxOk state worker tx) (unselected : tx.phase.selection = none)
    (live : tx.phase ≠ .failed) (accessing : phase.accessing = none)
    (fewer : phase.held.Sublist tx.phase.held) (toLock : phase.toLock = [])
    (toRemove : ∀ entry ∈ phase.toRemove, entry.2.val ∈ phase.held)
    (unapplied : ∀ entry ∈ phase.unapplied, entry ∈ tx.phase.unapplied) :
    TxOk state worker { tx with phase } := by
  apply ok.setPhase unselected live accessing _ (ok.heldOnce.sublist fewer) _ toRemove
  · exact fun entry member => ok.admits entry (unapplied entry member)
  · exact fun val member =>
      ⟨ok.owned val (fewer.subset member), ok.heldBelow val (fewer.subset member)⟩
  · simp [toLock]

theorem Inv.shrink (inv : Inv state) (unselected : (state.tx worker).phase.selection = none)
    (live : (state.tx worker).phase ≠ .failed) (accessing : phase.accessing = none)
    (fewer : phase.held.Sublist (state.tx worker).phase.held) (toLock : phase.toLock = [])
    (toRemove : ∀ entry ∈ phase.toRemove, entry.2.val ∈ phase.held)
    (unapplied : ∀ entry ∈ phase.unapplied, entry ∈ (state.tx worker).phase.unapplied) :
    Inv (state.setPhase worker phase) :=
  inv.setTx ((inv.tx worker).shrink unselected live accessing fewer toLock toRemove unapplied)

theorem Inv.unlock (inv : Inv state) (owned : (state.value val).owner = some worker)
    (released : val ∉ phase.held) (next : Inv (state.setPhase worker phase)) :
    Inv ((state.setOwner val none).setPhase worker phase) := by
  apply next.setOwner
  intro other
  by_cases same : other = worker
  · simpa [State.setPhase, State.setTx, same] using released
  · have unheld : val ∉ (state.tx other).phase.held :=
      inv.unheld (by rw [owned]; exact fun eq => same (Option.some.inj eq).symm)
    simpa [State.setPhase, State.setTx, same] using unheld

theorem Inv.pushVersion {version : Version R} (inv : Inv state)
    (new : version.id = state.nextVersion)
    (unapplied : ∀ other, ∀ entry ∈ (state.tx other).phase.unapplied, entry.2.val ≠ val)
    (unselected : ∀ other id, (state.tx other).phase.selection ≠ some (val, id))
    (late : ∀ other id, (val, id) ∈ (state.tx other).chosen →
      (state.tx other).startTs ≤ version.writeTs) :
    Inv { state.setChain val (version :: (state.value val).chain) with
      nextVersion := state.nextVersion + 1 } := by
  have raised := inv.raise (Nat.le_succ state.nextVersion)
  refine ⟨?_, inv.index, ?_⟩
  · apply ValueOk.setChain raised.value
    · refine List.pairwise_cons.mpr ⟨fun older member => ?_, (inv.value val).ids⟩
      rw [new]
      exact (inv.value val).below older member
    · intro other member
      obtain rfl | member := List.mem_cons.mp member
      · refine ⟨by simp [new], ?_⟩
        rw [Bool.eq_false_iff]
        intro freed
        have := (inv.value val).freedBelow other.id freed
        omega
      · exact ⟨(raised.value val).below other member, (inv.value val).kept other member⟩
  · intro other
    apply (raised.tx other).setChain (unapplied other) (unselected other)
    intro id chosen
    have old := ((inv.tx other).chosenBelow val id chosen).2
    exact ⟨Newest.cons (by omega) (late other id chosen),
      fun _ => Guarded.cons (late other id chosen)⟩

variable [DecidableEq K] {key : K} {element : Element R}

theorem Inv.insertNew (inv : Inv state)
    (unheld : ∀ other, element.val ∉ (state.tx other).phase.held)
    (below : element.val < state.nextValue) : Inv (state.insertNew key element) := by
  unfold State.insertNew
  split
  · have changed : Inv (state.setChain element.val
        ((state.value element.val).chain.map fun version =>
          { version with record := element.writeRec })) := by
      refine ⟨ValueOk.mapChain inv.value fun _ => rfl, inv.index, fun other => ?_⟩
      apply (inv.tx other).setChain_of_unheld (unheld other)
      exact fun id _ => ⟨Newest.map (fun _ => rfl) (fun _ => rfl),
        Guarded.map (fun _ => rfl) (fun _ => le_rfl)⟩
    apply changed.setIndex
    intro other val present
    by_cases same : other = key
    · obtain rfl : element.val = val := by simpa [same] using present
      exact below
    · exact inv.index other val (by simpa [same] using present)
  · exact inv

omit [DecidableEq K] in
theorem admits_of_check {startTs : Nat} {leafOld : Bool} (write : element.rwt ≠ .read)
    (old : element.isNew = false) (passed : state.check startTs key element leafOld = .accept) :
    Admits startTs (state.value element.val).chain ∧ (state.value element.val).chain ≠ [] := by
  unfold State.check at passed
  split at passed
  · cases passed
  · rename_i head prev chain
    rw [chain]
    refine ⟨?_, List.cons_ne_nil _ _⟩
    intro first isFirst
    obtain rfl := Option.some.inj isFirst
    rw [old] at passed
    cases kind : element.rwt with
    | read => exact absurd kind write
    | insert | update | delete =>
      rw [kind] at passed
      dsimp only at passed
      split at passed
      · cases passed
      · rename_i passes
        rw [not_or, not_or] at passes
        exact ⟨Nat.le_of_not_lt passes.1, Nat.le_of_not_lt passes.2.1⟩

theorem insertNew_owner (val : Nat) :
    ((state.insertNew key element).value val).owner = (state.value val).owner := by
  unfold State.insertNew
  split
  · exact setChain_owner state element.val _ val
  · rfl

theorem insertNew_nextValue : (state.insertNew key element).nextValue = state.nextValue := by
  unfold State.insertNew
  split <;> rfl

theorem insertNew_of_old (old : element.isNew = false) :
    state.insertNew key element = state := by
  simp [State.insertNew, old]

theorem Inv.lockNext {leafOld : Bool} {locked : List (K × Element R)} {rest : List K}
    (inv : Inv state) (locking : (state.tx worker).phase = .locking locked (key :: rest))
    (present : (state.tx worker).rws key = some element)
    (free : (state.value element.val).owner = none) :
    Inv (state.lockNext worker key element leafOld locked rest) := by
  have ok := inv.tx worker
  have live : (state.tx worker).phase ≠ .failed := by simp [locking]
  have unselected : (state.tx worker).phase.selection = none := by
    rw [locking]
    rfl
  have unheld : ∀ other, element.val ∉ (state.tx other).phase.held :=
    fun other => inv.unheld (by simp [free])
  have below := ok.elementBelow key element present
  have toLock : ∀ other ∈ key :: rest, other ∈ (state.tx worker).ws := by
    simpa [locking, Phase.toLock] using ok.toLock
  have write : element.rwt ≠ .read := by
    obtain ⟨element', present', write⟩ := ok.writes_of_live live key (toLock key List.mem_cons_self)
    rw [present] at present'
    exact Option.some.inj present' ▸ write
  have taken := inv.setOwner unheld (some worker)
  have inserted : Inv ((state.setOwner element.val (some worker)).insertNew key element) :=
    taken.insertNew unheld below
  have ok' : TxOk ((state.setOwner element.val (some worker)).insertNew key element) worker
      (state.tx worker) := by
    have self := inserted.tx worker
    rwa [insertNew_tx] at self
  -- the locks after this one
  set locked' := locked ++ [(key, element)]
  have vals : locked'.map (fun entry => entry.2.val) =
      locked.map (fun entry => entry.2.val) ++ [element.val] := by
    simp [locked']
  have old : ∀ val ∈ locked.map (fun entry => entry.2.val), val ≠ element.val ∧
      (state.value val).owner = some worker ∧ val < state.nextValue := by
    intro val member
    have held : val ∈ (state.tx worker).phase.held := by
      rw [locking]
      exact member
    exact ⟨fun same => unheld worker (same ▸ held), ok.owned val held, ok.heldBelow val held⟩
  have held : ∀ val ∈ locked'.map (fun entry => entry.2.val),
      ((state.setOwner element.val (some worker)).value val).owner = some worker ∧
        val < state.nextValue := by
    intro val member
    rw [vals] at member
    obtain member | here := List.mem_append.mp member
    · obtain ⟨different, owned, below⟩ := old val member
      rw [setOwner_of_ne _ _ _ different]
      exact ⟨owned, below⟩
    · obtain rfl := List.mem_singleton.mp here
      exact ⟨setOwner_owner _ _ _, below⟩
  have once : (locked'.map fun entry => entry.2.val).Nodup := by
    have onceBefore : (locked.map fun entry => entry.2.val).Nodup := by
      simpa [locking, Phase.held] using ok.heldOnce
    rw [vals]
    refine List.nodup_append.mpr
      ⟨onceBefore, List.nodup_singleton _, fun val member other here => ?_⟩
    obtain rfl := List.mem_singleton.mp here
    exact (old val member).1
  have subset : ∀ entry ∈ locked, entry.2.val ∈ locked'.map fun entry => entry.2.val := by
    intro entry member
    exact List.mem_map_of_mem (List.mem_append_left _ member)
  unfold State.lockNext
  dsimp only
  split
  · rename_i passed
    apply inserted.setTx
    rw [insertNew_tx]
    refine ok'.setPhase unselected live rfl ?_ once ?_ (by simp [Phase.toRemove]) ?_
    · intro val member
      rw [insertNew_owner, insertNew_nextValue]
      exact held val member
    · exact fun other member => toLock other (List.mem_cons_of_mem _ member)
    · intro entry member isOld
      obtain member | here := List.mem_append.mp member
      · exact ok'.admits entry (by rw [locking]; exact member) isOld
      · obtain rfl := List.mem_singleton.mp here
        rw [insertNew_of_old isOld, setOwner_chain]
        exact admits_of_check write isOld passed
  · apply taken.setTx
    exact (taken.tx worker).setPhase unselected live rfl held once (by simp [Phase.toLock])
      subset (by simp [Phase.unapplied])
  · apply inserted.setTx
    rw [insertNew_tx]
    refine ok'.setPhase unselected live rfl ?_ once (by simp [Phase.toLock]) ?_
      (by simp [Phase.unapplied])
    · intro val member
      rw [insertNew_owner, insertNew_nextValue]
      exact held val member
    · exact fun entry member => List.mem_map_of_mem member

omit [DecidableEq K] in
theorem push_setPhase : (state.push worker element).setPhase worker phase =
    (state.setPhase worker phase).push worker element := by
  unfold State.push
  split
  · rfl
  · simp [State.setPhase, State.setTx, State.setChain, State.setValue]

omit [DecidableEq K] in
/-- A new version goes on top of everything that has been read. -/
theorem Inv.applyNext {entry : K × Element R} {rest : List (K × Element R)} (inv : Inv state)
    (applying : (state.tx worker).phase = .applying (entry :: rest)) :
    Inv ((state.push worker entry.2).setPhase worker (.applied entry rest)) := by
  have ok := inv.tx worker
  have live : (state.tx worker).phase ≠ .failed := by simp [applying]
  have unselected : (state.tx worker).phase.selection = none := by
    rw [applying]
    rfl
  have next : Inv (state.setPhase worker (.applied entry rest)) := by
    apply inv.shrink unselected live rfl _ rfl (by simp [Phase.toRemove]) _
    · rw [applying]
      exact List.Sublist.refl _
    · intro other member
      rw [applying]
      exact List.mem_cons_of_mem _ member
  rw [push_setPhase]
  unfold State.push
  split
  · exact next
  · rename_i isOld
    have held : entry.2.val ∈ (state.tx worker).phase.held := by
      rw [applying]
      exact List.mem_cons_self
    have owned := ok.owned entry.2.val held
    have admits := ok.admits entry (by rw [applying]; exact List.mem_cons_self)
      (by simpa using isOld)
    have others : ∀ other, other ≠ worker → entry.2.val ∉ (state.tx other).phase.held :=
      fun other different => inv.unheld (by
        rw [owned]
        exact fun same => different (Option.some.inj same).symm)
    have once : entry.2.val ∉ rest.map fun entry => entry.2.val := by
      have nodup := ok.heldOnce
      rw [applying] at nodup
      exact (List.nodup_cons.mp nodup).1
    apply next.pushVersion rfl
    · intro other entry' member same
      by_cases self : other = worker
      · subst self
        simp only [State.setPhase, State.setTx, Function.update_self] at member
        exact once (same ▸ List.mem_map_of_mem member)
      · simp only [State.setPhase, State.setTx, Function.update_of_ne self] at member
        exact others other self (same ▸ held_of_unapplied member)
    · intro other id selected
      by_cases self : other = worker
      · subst self
        simp [State.setPhase, State.setTx, Phase.selection] at selected
      · simp only [State.setPhase, State.setTx, Function.update_of_ne self] at selected
        exact others other self (held_of_selection selected)
    · intro other id chosen
      by_cases self : other = worker
      · subst self
        exact le_rfl
      · simp only [State.setPhase, State.setTx, Function.update_of_ne self, Function.update_self]
          at chosen ⊢
        have guarded := ((inv.tx other).guarded _ id chosen).resolve_left
          fun selected => others other self (held_of_selection selected)
        exact admits.1.le_of_guarded guarded admits.2

omit [DecidableEq K] in
theorem Inv.unlockNext {entry : K × Element R} {rest : List (K × Element R)} (inv : Inv state)
    (unselected : (state.tx worker).phase.selection = none)
    (live : (state.tx worker).phase ≠ .failed) (accessing : phase.accessing = none)
    (toLock : phase.toLock = []) (toRemove : phase.toRemove = [])
    (held : (state.tx worker).phase.held = entry.2.val :: rest.map fun entry => entry.2.val)
    (heldAfter : phase.held = rest.map fun entry => entry.2.val)
    (unapplied : ∀ entry ∈ phase.unapplied, entry ∈ (state.tx worker).phase.unapplied) :
    Inv ((state.setOwner entry.2.val none).setPhase worker phase) := by
  have ok := inv.tx worker
  have once := ok.heldOnce
  rw [held] at once
  apply inv.unlock (ok.owned entry.2.val (by simp [held]))
  · rw [heldAfter]
    exact (List.nodup_cons.mp once).1
  · apply inv.shrink unselected live accessing _ toLock (by simp [toRemove]) unapplied
    rw [held, heldAfter]
    exact List.sublist_cons_self _ _

omit [DecidableEq K] in
theorem Inv.gcAccess {access : Access K R} (inv : Inv state)
    (selected : (state.tx worker).phase = .selected access) :
    Inv ((state.gc worker access.val).setPhase worker (.collected access)) := by
  have collected := inv.gc worker access.val
  have ok : TxOk (state.gc worker access.val) worker
      { state.tx worker with phase := .selected access } := by
    rw [← selected]
    exact collected.tx worker
  apply collected.setTx
  exact
    { owned := ok.owned
      heldBelow := ok.heldBelow
      heldOnce := ok.heldOnce
      elementBelow := ok.elementBelow
      unread := ok.unread
      writes := .inr (ok.writes_of_live (by simp))
      toLock := ok.toLock
      toRemove := ok.toRemove
      admits := ok.admits
      atHead := ok.atHead
      chosenBelow := ok.chosenBelow
      newest := ok.newest
      guarded := ok.guarded }

theorem Inv.removeNext {entry : K × Element R} {rest locked : List (K × Element R)}
    (inv : Inv state) (removing : (state.tx worker).phase = .removing (entry :: rest) locked) :
    Inv ((state.retract entry.1 entry.2).setPhase worker (.removing rest locked)) := by
  have ok := inv.tx worker
  have next : Inv (state.setPhase worker (.removing rest locked)) := by
    apply inv.shrink _ (by simp [removing]) rfl _ rfl _ (by simp [Phase.unapplied])
    · rw [removing]
      rfl
    · rw [removing]
      exact List.Sublist.refl _
    · intro other member
      have held := ok.toRemove other
      rw [removing] at held
      exact held (List.mem_cons_of_mem _ member)
  unfold State.retract
  split
  · have held : entry.2.val ∈ (state.tx worker).phase.held :=
      ok.toRemove entry (by rw [removing]; exact List.mem_cons_self)
    have owned := ok.owned entry.2.val held
    have cleared :
        Inv ((state.setPhase worker (.removing rest locked)).setChain entry.2.val []) := by
      refine ⟨ValueOk.setChain next.value List.Pairwise.nil (by simp), next.index, fun other => ?_⟩
      have evolves : ∀ ts id chain, Evolves ts id chain ([] : List (Version R)) :=
        fun ts id chain => ⟨fun _ => Newest.nil, fun _ => Guarded.nil⟩
      by_cases self : other = worker
      · subst self
        apply (next.tx other).setChain _ _ fun id _ => evolves _ id _
        · simp [State.setPhase, State.setTx, Phase.unapplied]
        · simp [State.setPhase, State.setTx, Phase.selection]
      · apply (next.tx other).setChain_of_unheld _ fun id _ => evolves _ id _
        have unheld : entry.2.val ∉ (state.tx other).phase.held :=
          inv.unheld (by
            rw [owned]
            exact fun same => self (Option.some.inj same).symm)
        simpa [State.setPhase, State.setTx, self] using unheld
    apply cleared.setIndex
    intro other val present
    by_cases same : other = entry.1
    · simp [same] at present
    · exact inv.index other val (by simpa [same] using present)
  · exact next

end Precommit

theorem Inv.congr {drawn : List Nat} {committed : List (Tx K R)} (inv : Inv state) :
    Inv { state with drawn, committed } :=
  ⟨fun val => { inv.value val with }, inv.index, fun other => (inv.tx other).mono rfl le_rfl le_rfl⟩

section Steps
variable [DecidableEq K]

theorem Inv.step {label : Label n K R} (inv : Inv state)
    (taken : step state label = some state') : Inv state' := by
  cases Transition.of_step taken with
  | starts => exact (inv.setTx (TxOk.new _ _)).congr
  | own running present performed => exact inv.own running present performed
  | miss running => exact inv.miss running
  | access running unread present free => exact inv.access running unread present free
  | gcAccess selected => exact inv.gcAccess selected
  | finishAccess collected => exact inv.finishAccess collected
  | store running present => exact inv.store running present
  | precommit running same =>
    apply inv.setTx
    apply (inv.tx _).setPhase (by rw [running]; rfl) (by simp [running]) rfl <;>
      simp [Phase.held, Phase.toRemove, Phase.unapplied, Phase.toLock, same.mem_iff]
  | lockNext locking present free => exact inv.lockNext locking present free
  | commit locking =>
    refine (inv.shrink ?_ ?_ ?_ ?_ ?_ ?_ ?_).congr <;> simp [locking, Phase.selection,
      Phase.accessing, Phase.held, Phase.toLock, Phase.toRemove, Phase.unapplied]
  | applyNext applying => exact inv.applyNext applying
  | applyEnd applying =>
    exact inv.setQuiet (by rw [applying]; rfl) ⟨rfl, rfl, rfl, rfl, rfl⟩
      (.inr (by simp [applying]))
  | @gcApply worker entry rest applied =>
    have applied' : ((state.gc worker entry.2.val).tx worker).phase = .applied entry rest :=
      applied
    apply (inv.gc worker entry.2.val).unlockNext (by rw [applied']; rfl) (by simp [applied'])
      rfl rfl rfl (by rw [applied']; rfl) rfl
    rw [applied']
    exact fun _ member => member
  | removeNext removing => exact inv.removeNext removing
  | removeEnd removing =>
    apply inv.shrink <;> simp [removing, Phase.selection, Phase.accessing, Phase.held,
      Phase.toLock, Phase.toRemove, Phase.unapplied]
  | unlockNext unlocking =>
    exact inv.unlockNext (by rw [unlocking]; rfl) (by simp [unlocking]) rfl rfl rfl
      (by rw [unlocking]; rfl) rfl (by simp [Phase.unapplied])
  | unlockEnd unlocking => exact inv.fail (by rw [unlocking]; rfl)
  | abort => exact inv.setTx (.of_quiet ⟨rfl, rfl, rfl, rfl, rfl⟩ (by simp) (by simp) (by simp)
      (by simp) (by simp))
  | finish ended =>
    obtain ended | ended := ended <;>
      exact inv.setQuiet (by rw [ended]; rfl) ⟨rfl, rfl, rfl, rfl, rfl⟩ (.inr (by simp [ended]))

end Steps

end TpccRunner.Mvto
