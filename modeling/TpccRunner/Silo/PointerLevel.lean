import TpccRunner.Silo.PlacementSteps
import TpccRunner.Silo.Reclamation

/-!
# `precommit` and `abort` at the level of the pointers

`Silo/System` has the records, tids and node versions of Silo, `Silo/Reclamation` its pointers;
both follow `precommit` and `abort` element by element.  `Represents` says that they are at the
same place: the index leads to the same values, the tidwords are locked and readable alike, and
every transaction has the same write set and the same rest of its loops before it.  Every state
of a run of the first is represented by one of the second, and however the transactions go on
with `precommit` and `abort`, the second can follow.

The epochs are not compared: in `Silo/System` the global one may grow at any time.  The
system that represents a state is built from it, not from the operations that led there.
-/

set_option autoImplicit false

namespace TpccRunner.Silo.Reclamation

open Lib

variable {n : Nat} {K R : Type}

def elementAt (rws : K → Option (ReadWriteElement R)) (key : K) : Element K :=
  match rws key with
  | some element => ⟨key, element.val, element.rwt, element.isNew⟩
  | none => ⟨key, 0, .read, false⟩

def phaseAt (tx : Silo.Tx K R) (e : Nat) : Phase K :=
  let elements (keys : List K) := keys.map (elementAt tx.rws)
  match tx.phase with
  | .running | .found _ _ _ | .missing _ _ | .scanning _ _ _ _ _ | .visiting _ _ _ _ _ => .running
  | .locking locked rest _ => .locking (elements locked) (elements rest)
  | .validating _ _ _ | .verifying _ _ _ => .validating e (elements tx.ws)
  | .writing _ _ rest => .writing e (elements rest)
  | .removing _ _ key rest => .removing e (elementAt tx.rws key) (elements rest)
  | .committed => .writing e []
  | .unlocking rest => .unlocking (elements rest)
  | .failed => .unlocking []
  | .aborting rest => .aborting (elements rest)
  | .retired key rest => .retired (elementAt tx.rws key) (elements rest)
  | .aborted => .running

structure Mirrors (tx : Silo.Tx K R) (tx' : Tx K) : Prop where
  phase : ∃ e, tx'.phase = phaseAt tx e
  writeSet : tx'.writeSet = tx.ws.map (elementAt tx.rws)

structure Represents [LinearOrder K] (state : Silo.State (Fin n) K R) (system : System n K) :
    Prop where
  slots : ∀ key, system.heap.pointers.slots (.key key) = state.index.find key
  lock : ∀ val, system.shared.lock val = (state.value val).tidword.lock
  readable : ∀ val, system.shared.readable val = (state.value val).tidword.isReadable
  begun : ∀ worker, system.heap.pointers.stamp worker ≠ none
  obtained : ∀ worker key element, (state.tx worker).rws key = some element →
    system.heap.pointers.Obtained worker (.key key) element.val
  mirrors : ∀ worker, Mirrors (state.tx worker) (system.tx worker)

/-- The pointers can go on until they represent the state. -/
def Reaches [LinearOrder K] (system : System n K) (state : Silo.State (Fin n) K R) : Prop :=
  ∃ trace system', Run System.step always system trace system' ∧ Represents state system'

theorem elementAt_of_own {rws : K → Option (ReadWriteElement R)} {key : K}
    {element : ReadWriteElement R} (own : rws key = some element) :
    elementAt rws key = ⟨key, element.val, element.rwt, element.isNew⟩ := by
  rw [elementAt, own]

theorem elementAt_key {rws : K → Option (ReadWriteElement R)} {key : K} :
    (elementAt rws key).key = key := by
  unfold elementAt
  split <;> rfl

variable [LinearOrder K]

/-- Every state of a run is represented: see `Placed.step`. -/
theorem exists_represents {state : Silo.State (Fin n) K R} {place : Nat → Option (K × Life (Fin n))}
    (placed : Placed state place) : ∃ system : System n K, Represents state system := by
  refine ⟨{
    heap := {
      epochs := Epoch.start fun _ => 0
      pointers := {
        slots := fun
          | .key key => state.index.find key
          | .record _ => none
        next := state.nextVal
        stamp := fun _ => some 1
        held := fun worker => (state.tx worker).touched.filterMap fun key =>
          ((state.tx worker).rws key).map fun element => (.key key, element.val)
        freed := fun _ => false }
      container := fun _ => [] }
    shared := {
      lock := fun val => (state.value val).tidword.lock
      readable := fun val => (state.value val).tidword.isReadable }
    tx := fun worker => {
      phase := phaseAt (state.tx worker) 1
      writeSet := (state.tx worker).ws.map (elementAt (state.tx worker).rws)
      peeked := none } }, fun _ => rfl, fun _ => rfl, fun _ => rfl, fun _ impossible => ?_,
    fun worker key element own => ?_, fun _ => ⟨⟨1, rfl⟩, rfl⟩⟩
  · cases impossible
  · refine List.mem_filterMap.mpr ⟨key, ?_, by rw [own, Option.map_some]⟩
    exact ((placed.proper worker).touched key).mpr (by rw [own, Option.isSome_some])

section Steps
variable {state after : Silo.State (Fin n) K R} {system system' : System n K} {worker : Fin n}
  {tx : Silo.Tx K R} {phase : Silo.Phase K R} {key : K} {element : ReadWriteElement R} {e : Nat}
  {place : Nat → Option (K × Life (Fin n))}

theorem Reaches.act (action : Action K) (taken : system.act worker action = some system')
    (represents : Represents state system') : Reaches system state :=
  ⟨[.act worker action], system', .single trivial taken, represents⟩

namespace Represents

theorem advance (represents : Represents state system) {tx' : Tx K}
    (moved : after.tx = Function.update state.tx worker tx)
    (moved' : system'.tx = Function.update system.tx worker tx') (mirrors : Mirrors tx tx')
    (own : ∀ key element, tx.rws key = some element → (state.tx worker).rws key = some element)
    (stamp : system'.heap.pointers.stamp = system.heap.pointers.stamp)
    (grows : ∀ worker slot object, system.heap.pointers.Obtained worker slot object →
      system'.heap.pointers.Obtained worker slot object)
    (slots : ∀ key, system'.heap.pointers.slots (.key key) = after.index.find key)
    (lock : ∀ val, system'.shared.lock val = (after.value val).tidword.lock)
    (readable : ∀ val, system'.shared.readable val = (after.value val).tidword.isReadable) :
    Represents after system' where
  slots := slots
  lock := lock
  readable := readable
  begun := stamp ▸ represents.begun
  obtained other key element mine := by
    refine grows _ _ _ (represents.obtained other key element ?_)
    rw [moved] at mine
    by_cases same : other = worker
    · subst same
      rw [Function.update_self] at mine
      exact own key element mine
    · rwa [Function.update_of_ne same] at mine
  mirrors other := by
    rw [moved, moved']
    by_cases same : other = worker
    · subst same
      rwa [Function.update_self, Function.update_self]
    · rw [Function.update_of_ne same, Function.update_of_ne same]
      exact represents.mirrors other

/-- A step that changes nothing but the transaction. -/
theorem setTx (represents : Represents state system) {tx' : Tx K} (mirrors : Mirrors tx tx')
    (own : ∀ key element, tx.rws key = some element → (state.tx worker).rws key = some element) :
    Represents (state.setTx worker tx) (system.setTx worker tx') :=
  represents.advance rfl rfl mirrors own rfl (fun _ _ _ => id) represents.slots represents.lock
    represents.readable

theorem mirrors_moveTo (represents : Represents state system) (phase : Silo.Phase K R) (e : Nat) :
    Mirrors ((state.tx worker).moveTo phase)
      { system.tx worker with phase := phaseAt ((state.tx worker).moveTo phase) e } :=
  ⟨⟨e, rfl⟩, (represents.mirrors worker).writeSet⟩

theorem setPhase (represents : Represents state system) (action : Action K)
    (taken : system.act worker action =
      some (system.setPhase worker (phaseAt ((state.tx worker).moveTo phase) e))) :
    Reaches system (state.setPhase worker phase) :=
  .act action taken (represents.setTx (represents.mirrors_moveTo phase e) fun _ _ => id)

/-- A step that the pointers do not see. -/
theorem goOn (represents : Represents state system)
    (same : ∀ e, phaseAt (state.tx worker) e = phaseAt ((state.tx worker).moveTo phase) e) :
    Reaches system (state.setPhase worker phase) := by
  obtain ⟨⟨e, here⟩, writeSet⟩ := represents.mirrors worker
  exact ⟨[], system, .nil, represents.advance rfl (Function.update_eq_self ..).symm
    ⟨⟨e, here.trans (same e)⟩, writeSet⟩ (fun _ _ => id) rfl (fun _ _ _ => id) represents.slots
    represents.lock represents.readable⟩

/-- A step that stores the tidword of a value. -/
theorem onValue (represents : Represents state system) {val : Nat} {value : Value R}
    (moved : system'.tx = Function.update system.tx worker { system.tx worker with
      phase := phaseAt ((state.tx worker).moveTo phase) e })
    (stamp : system'.heap.pointers.stamp = system.heap.pointers.stamp)
    (grows : ∀ worker slot object, system.heap.pointers.Obtained worker slot object →
      system'.heap.pointers.Obtained worker slot object)
    (slots : ∀ key, system'.heap.pointers.slots (.key key) =
      system.heap.pointers.slots (.key key))
    (lock : system'.shared.lock = Function.update system.shared.lock val value.tidword.lock)
    (readable : system'.shared.readable =
      Function.update system.shared.readable val value.tidword.isReadable) :
    Represents ((state.setValue val value).setPhase worker phase) system' := by
  refine represents.advance rfl moved (represents.mirrors_moveTo phase e) (fun _ _ => id) stamp
    grows (fun key => (slots key).trans (represents.slots key)) (fun other => ?_) fun other => ?_
  · refine .trans ?_ (update_view fun value : Value R => value.tidword.lock).symm
    rw [lock, Function.update_apply, represents.lock]
  · refine .trans ?_ (update_view fun value : Value R => value.tidword.isReadable).symm
    rw [readable, Function.update_apply, represents.readable]

theorem lockNext (represents : Represents state system) {locked rest : List K} {tid : Nat}
    (locking : (state.tx worker).phase = .locking locked (key :: rest) tid)
    (own : (state.tx worker).rws key = some element)
    (unlocked : (state.value element.val).tidword.lock = false) (tid' : Nat) :
    Reaches system ((state.setLock element.val true).setPhase worker
      (if !element.isNew && !(state.value element.val).tidword.isReadable then
        .unlocking (locked ++ [key])
      else .locking (locked ++ [key]) rest tid')) := by
  obtain ⟨e, here⟩ := (represents.mirrors worker).phase
  have taken : system.act worker .lockNext = some ((system.setLock element.val true).setPhase
      worker (phaseAt ((state.tx worker).moveTo
        (if !element.isNew && !(state.value element.val).tidword.isReadable then
          .unlocking (locked ++ [key])
        else .locking (locked ++ [key]) rest tid')) e)) := by
    simp only [System.act, System.lockNext, here, phaseAt, locking, List.map_cons,
      elementAt_of_own own, represents.lock, unlocked, represents.readable, Bool.false_eq_true,
      if_false]
    split <;> simp [elementAt_of_own own]
  exact .act _ taken (represents.onValue rfl rfl (fun _ _ _ => id) (fun _ => rfl) rfl
    (Function.update_eq_self_iff.mpr (represents.readable element.val).symm).symm)

theorem validate (represents : Represents state system) (valid : Bool) {epoch tid : Nat}
    (deciding : (∃ rest, (state.tx worker).phase = .validating epoch tid rest) ∨
      ∃ rest, (state.tx worker).phase = .verifying epoch tid rest) :
    Reaches system (state.setPhase worker (if valid then .writing epoch tid (state.tx worker).ws
      else .unlocking (state.tx worker).ws)) := by
  obtain ⟨e, here⟩ := (represents.mirrors worker).phase
  refine represents.setPhase (.validate valid) (e := e) ?_
  obtain ⟨rest, phase⟩ | ⟨rest, phase⟩ := deciding <;>
    simp only [System.act, System.validate, here, phaseAt, phase] <;> cases valid <;> rfl

theorem writeNext (represents : Represents state system) {epoch tid serial : Nat} {rest : List K}
    (writing : (state.tx worker).phase = .writing epoch tid (key :: rest))
    (own : (state.tx worker).rws key = some element) :
    Reaches system ((state.setValue element.val (element.installed epoch tid serial)).setPhase
      worker (if element.rwt = .delete then .removing epoch tid key rest
        else .writing epoch tid rest)) := by
  obtain ⟨e, here⟩ := (represents.mirrors worker).phase
  have readable : (element.installed epoch tid serial).tidword.isReadable =
      !decide (element.rwt = .delete) := by simp [ReadWriteElement.installed, TidWord.isReadable]
  have pointers := Epoch.Heap.exchange_pointers system.heap worker (.record element.val) e
    (!decide (element.rwt = .delete))
  have taken : system.act worker .writeNext = some
      { heap := system.heap.exchange worker (.record element.val) e
          (!decide (element.rwt = .delete))
        shared :=
          { lock := Function.update system.shared.lock element.val false
            readable := Function.update system.shared.readable element.val
              (!decide (element.rwt = .delete)) }
        tx := Function.update system.tx worker { system.tx worker with
          phase := phaseAt ((state.tx worker).moveTo (if element.rwt = .delete then
            .removing epoch tid key rest else .writing epoch tid rest)) e } } := by
    simp only [System.act, System.writeNext, here, phaseAt, writing, List.map_cons,
      elementAt_of_own own, Epoch.Heap.step, represents.begun, if_false, Option.map_some,
      decide_eq_true_eq]
    split <;> simp only [Tx.moveTo, elementAt_of_own own]
  refine .act _ taken (represents.onValue rfl ?_ (fun other slot object held => ?_)
    (fun other => ?_) rfl (by rw [readable]))
  all_goals rw [pointers]
  · split <;> rfl
  · split
    · exact Pointers.mem_hold.mpr (.inl held)
    · exact held
  · split <;> simp [Pointers.put, Pointers.clear]

/-- `idx.remove` of a deleted element or of an inserted value. -/
theorem unlink (represents : Represents state system) (placed : Placed state place)
    {rest : List K} (suffix : key :: rest <:+ (state.tx worker).ws) (action : Action K) {t : Nat}
    (acts : system.act worker action = (system.heap.step (.unlink worker (.key key)
      (elementAt (state.tx worker).rws key).val t)).map fun heap =>
        System.setPhase { system with heap } worker (phaseAt ((state.tx worker).moveTo phase) e)) :
    Reaches system ({ state with index := state.index.remove key }.setPhase worker phase) := by
  obtain ⟨element, own, -⟩ :=
    (placed.proper worker).element_of_ws (suffix.subset List.mem_cons_self)
  rw [elementAt_of_own own, Epoch.Heap.step,
    if_pos (represents.obtained worker key element own), Option.map_some] at acts
  refine .act _ acts (represents.advance rfl rfl (represents.mirrors_moveTo phase e)
    (fun _ _ => id) rfl (fun _ _ _ => id) (fun other => ?_) represents.lock represents.readable)
  show Function.update system.heap.pointers.slots (.key key) none (.key other) =
    (state.index.remove key).find other
  rw [Masstree.Index.find_remove]
  by_cases same : other = key
  · rw [same, Function.update_self, if_pos rfl]
  · rw [Function.update_of_ne (by simpa using same), if_neg same, represents.slots]

/-- A step of `precommit` or `abort`. -/
theorem move (represents : Represents state system) (placed : Placed state place)
    (move : Move state worker after) (late : (state.tx worker).Early → ¬ (after.tx worker).Early) :
    Reaches system after := by
  have listed := (placed.proper worker).listed
  obtain ⟨⟨e, here⟩, writeSet⟩ := represents.mirrors worker
  obtain ⟨stamp, begun⟩ := Option.ne_none_iff_exists'.mp (represents.begun worker)
  cases move with
  | think early early' | access early _ _ _ early' =>
    exact absurd (by simpa using early') (late early)
  | insert inserts =>
    exact absurd (by simp [Tx.Early, inserts.phase]) (late (by simp [Tx.Early, inserts.missing]))
  | store running =>
    have early : (state.tx worker).Early := by simp [Tx.Early, running]
    exact absurd (by simp [Tx.settle, Tx.Early, running]) (late early)
  | precommit running =>
    have perm := List.perm_insertionSort (· ≤ ·) (state.tx worker).ws
    have running' : (system.tx worker).running = true := by
      rw [Tx.running, here, phaseAt, running]
    exact .act (.precommit (((state.tx worker).ws.insertionSort (· ≤ ·)).map
        (elementAt (state.tx worker).rws)))
      (.trans (if_pos ⟨running', represents.begun worker⟩)
        (if_pos (by rw [writeSet]; exact List.isPerm_iff.mpr (perm.map _))))
      (represents.setTx ⟨⟨0, rfl⟩, rfl⟩ fun _ _ => id)
  | @lock locked rest key tid element phase own unlocked usable =>
    have moved := represents.lockNext phase own unlocked
      (max tid (state.value element.val).tidword.tid)
    rwa [if_neg (by rcases usable with new | readable <;> simp [*])] at moved
  | lockFails phase own unlocked old unreadable =>
    have moved := represents.lockNext phase own unlocked 0
    have nodup := (placed.proper worker).nodup
    simp only [Tx.Listed, phase] at listed
    rw [listed] at nodup
    rw [if_pos (by simp [*])] at moved
    rwa [listed, unlockWriteset_append (List.disjoint_of_nodup_append nodup · List.mem_cons_self)]
  | loadEpoch phase =>
    simp only [Tx.Listed, phase, List.append_nil] at listed
    have taken : system.act worker .loadEpoch = some (system.setPhase worker
        (.validating system.heap.epochs.globalEpoch
          ((state.tx worker).ws.map (elementAt (state.tx worker).rws)))) := by
      simp only [System.act, System.loadEpoch, here, phaseAt, phase, List.map_nil, listed]
    exact .act _ taken (represents.advance rfl rfl ⟨⟨_, rfl⟩, writeSet⟩ (fun _ _ => id) rfl
      (fun _ _ _ => id) represents.slots represents.lock represents.readable)
  | skip phase | validate phase | validated phase | verify phase | written phase | unlocked phase =>
    exact represents.goOn fun e => by simp only [phaseAt, phase, Tx.moveTo, List.map_nil]
  | decide phase => exact represents.validate true (.inr ⟨_, phase⟩)
  | fail phase =>
    rw [unlockWriteset_none]
    exact represents.validate false phase
  | write phase own => exact represents.writeNext phase own
  | remove phase =>
    simp only [Tx.Listed, phase] at listed
    refine represents.unlink placed listed .removeNext (e := e) (t := e) ?_
    simp only [System.act, System.removeNext, here, phaseAt, phase, elementAt_key, Tx.moveTo]
  | @unlock key rest element phase own =>
    have taken : system.act worker .unlockNext = some ((system.setLock element.val false).setPhase
        worker (phaseAt ((state.tx worker).moveTo (.unlocking rest)) e)) := by
      simp only [System.act, System.unlockNext, here, phaseAt, phase, List.map_cons,
        elementAt_of_own own, Tx.moveTo]
    exact .act _ taken (represents.onValue rfl rfl (fun _ _ _ => id) (fun _ => rfl) rfl
      (Function.update_eq_self_iff.mpr (represents.readable element.val).symm).symm)
  | abort phase =>
    refine represents.setPhase .abort (e := e) ?_
    obtain phase | phase := phase <;>
      simp only [System.act, System.abort, here, phaseAt, phase, begun, Tx.moveTo, writeSet]
  | @retire key rest element phase own isNew unlocked =>
    have taken : system.act worker .abortNext = some (System.setPhase { system with
        shared.readable := Function.update system.shared.readable element.val false } worker
        (phaseAt ((state.tx worker).moveTo (.retired key rest)) e)) := by
      simp [System.act, System.abortNext, here, phaseAt, phase, elementAt_of_own own,
        represents.lock, unlocked, isNew]
    exact .act _ taken (represents.onValue rfl rfl (fun _ _ _ => id) (fun _ => rfl)
      (Function.update_eq_self_iff.mpr (represents.lock element.val).symm).symm rfl)
  | keep phase own old =>
    refine represents.setPhase .abortNext (e := e) ?_
    simp [System.act, System.abortNext, here, phaseAt, phase, elementAt_of_own own, old]
  | aborted phase =>
    have taken : system.act worker .abortNext = some (system.setTx worker { system.tx worker with
        phase := .running, writeSet := [] }) := by
      simp only [System.act, System.abortNext, here, phaseAt, phase, List.map_nil]
    exact .act _ taken (represents.setTx ⟨⟨0, rfl⟩, rfl⟩ fun _ _ own => by cases own)
  | unlink phase =>
    simp only [Tx.Listed, phase] at listed
    refine represents.unlink placed listed .unlinkNext (e := e) (t := stamp) ?_
    simp only [System.act, System.unlinkNext, here, phaseAt, phase, elementAt_key, begun,
      Tx.moveTo]

end Represents

/-- A transaction that has not finished its operations does nothing but to begin `precommit` or
`abort`. -/
def Commits (state : Silo.State (Fin n) K R) (label : Silo.Label (Fin n) K R) : Prop :=
  ∀ worker, label.actor = some worker → (state.tx worker).Early →
    label = .precommit worker ∨ label = .abort worker

theorem step_matched {label : Silo.Label (Fin n) K R} (represents : Represents state system)
    (placed : Placed state place) (commits : Commits state label)
    (taken : Silo.step state label = some after) : Reaches system after := by
  obtain ⟨-, rfl⟩ | ⟨worker, actor, move⟩ := step_cases taken
  · exact ⟨[], system, .nil, { represents with }⟩
  · refine represents.move placed move fun early => ?_
    rcases commits worker actor early with rfl | rfl
    · simp only [Silo.step, State.precommit] at taken
      split at taken <;> cases taken
      simp [Tx.Early]
    · simp only [Silo.step, State.abort] at taken
      split at taken <;> cases taken <;> simp [Tx.Early, State.setPhase]

/-- `precommit` and `abort` of `Silo/System` are those of `Silo/Reclamation`. -/
theorem run_matched {contents : Contents K R} {trace : List (Silo.Label (Fin n) K R)}
    (run : Run Silo.step always (start contents) trace state) :
    ∃ system : System n K, Represents state system ∧ ∀ more after,
      Run Silo.step Commits state more after → Reaches system after := by
  obtain ⟨place, placed⟩ := run.invariant (fun state => ∃ place, Placed state place)
    (Placed.start contents) fun _ _ _ ⟨_, placed⟩ _ taken => placed.step taken
  obtain ⟨system, represents⟩ := exists_represents placed
  refine ⟨system, represents, fun more after goesOn => ?_⟩
  obtain ⟨trace', system', run', -, last⟩ := goesOn.simulate
    (fun state system => (∃ place, Placed state place) ∧ Represents state system)
    ⟨⟨place, placed⟩, represents⟩ fun before label after other related commits taken => by
      obtain ⟨⟨place, placed⟩, represents⟩ := related
      obtain ⟨trace', system', steps, last⟩ := step_matched represents placed commits taken
      exact ⟨trace', system', steps, placed.step taken, last⟩
  exact ⟨trace', system', run', last⟩

end Steps

end TpccRunner.Silo.Reclamation
