import TpccRunner.Silo.Growth

/-!
# Commit ids

`precommit` installs the pair of the epoch it has loaded and a tid above those of its read
and write sets.  The tid has 29 bits and is never reset, so the pairs on a record grow only
as long as the tids that `precommit` meets have not reached the end of the field.
-/

set_option autoImplicit false

namespace TpccRunner.Silo

open Lib Masstree

variable {I K R : Type}

def TidWord.Before (tw tw' : TidWord) : Prop :=
  tw.epoch < tw'.epoch ∨ tw.epoch = tw'.epoch ∧ tw.tid < tw'.tid

def Tx.nextKey (tx : Tx K R) : Option K :=
  match tx.phase with
  | .locking _ (key :: _) _ | .validating _ _ (key :: _) => some key
  | _ => none

/-- `commit_tw.epoch`, once it is loaded. -/
def Tx.commitEpoch (tx : Tx K R) : Option Nat :=
  match tx.phase with
  | .validating epoch _ _ | .verifying epoch _ _ | .writing epoch _ _ | .removing epoch _ _ _ =>
    some epoch
  | _ => none

def Tx.TidLeft (tx : Tx K R) : Prop :=
  match tx.phase with
  | .locking _ _ tid | .validating _ tid _ => tid + 1 < 2 ^ 29
  | .verifying _ tid _ | .writing _ tid _ | .removing _ tid _ _ => tid ≠ 0
  | _ => True

theorem Tx.Early.tidLeft {tx : Tx K R} (early : tx.Early) : tx.TidLeft := by
  unfold Tx.Early at early
  unfold Tx.TidLeft
  split <;> simp_all

theorem Tx.Early.commitEpoch_eq {tx : Tx K R} (early : tx.Early) : tx.commitEpoch = none := by
  unfold Tx.Early at early
  unfold Tx.commitEpoch
  split <;> simp_all

variable [LinearOrder K]

/-- What `precommit` installs next, what its tid is above, and what `is_valid` accepts. -/
structure State.IdsGrow [DecidableEq I] (state : State I K R) : Prop where
  installs : ∀ i epoch tid key rest element after,
    (state.tx i).phase = .writing epoch tid (key :: rest) →
      (state.tx i).rws key = some element → step state (.writeNext i) = some after →
        (state.value element.val).tidword.Before (after.value element.val).tidword
  above : ∀ i epoch tid rest, (state.tx i).phase = .writing epoch tid rest →
    ∀ key element, (state.tx i).rws key = some element →
      element.tw.tid < tid ∧ (key ∈ rest → (state.value element.val).tidword.tid < tid)
  accepts : ∀ i key element, (state.tx i).rws key = some element →
    (state.value element.val).tidword.isValid element.tw = true →
      (state.value element.val).writer = element.seen ∧
        (state.value element.val).record = element.base

/-- The epoch thread does not wrap the 32-bit epoch, and the tid of a record that `precommit`
locks or validates is not the last one of its 29 bits. -/
def IdsFit (state : State I K R) (label : Label I K R) : Prop :=
  (label.actor = none → state.globalEpoch + 1 < 2 ^ 32) ∧
    ∀ i ∈ label.actor, ∀ key ∈ (state.tx i).nextKey, ∀ element ∈ (state.tx i).rws key,
      (state.value element.val).tidword.tid + 1 < 2 ^ 29

instance (state : State I K R) (label : Label I K R) : Decidable (IdsFit state label) :=
  inferInstanceAs (Decidable ((label.actor = none → state.globalEpoch + 1 < 2 ^ 32) ∧
    ∀ i ∈ label.actor, ∀ key ∈ (state.tx i).nextKey, ∀ element ∈ (state.tx i).rws key,
      (state.value element.val).tidword.tid + 1 < 2 ^ 29))

/-! ## The tid does not wrap -/

section Steps
variable {state after : State I K R} {place : Nat → Option (K × Life I)} {i : I}
  [DecidableEq I]

theorem tidLeft_move (left : (state.tx i).TidLeft) (move : Move state i after)
    (fits : ∀ key ∈ (state.tx i).nextKey, ∀ element ∈ (state.tx i).rws key,
      (state.value element.val).tidword.tid + 1 < 2 ^ 29) : (after.tx i).TidLeft := by
  unfold Tx.TidLeft at left
  cases move with
  | think _ early' | access _ _ _ _ early' =>
    rw [setTx_tx_self]
    exact early'.tidLeft
  | insert inserts => simp [State.setTx, Tx.TidLeft, inserts.phase]
  | store running => simp [State.setTx, Tx.TidLeft, Tx.settle, running]
  | @lock locked rest key tid element phase own | @validate epoch tid key rest element phase own =>
    have small := fits key (by simp [Tx.nextKey, phase]) element own
    simp only [phase] at left
    simp only [State.setPhase, setTx_tx_self, Tx.TidLeft, Tx.moveTo_phase]
    omega
  | loadEpoch phase =>
    simp only [phase] at left
    simpa [State.setTx, Tx.TidLeft] using left
  | @validated epoch tid phase =>
    simp only [phase] at left
    simp only [State.setPhase, setTx_tx_self, Tx.TidLeft, Tx.moveTo_phase]
    omega
  | skip phase | verify phase | decide phase | remove phase =>
    simp only [phase] at left
    simpa [State.setPhase, Tx.TidLeft] using left
  | write phase =>
    simp only [phase] at left
    simp only [State.setPhase, setTx_tx_self]
    split <;> simpa [Tx.TidLeft] using left
  | precommit => simp [Tx.TidLeft]
  | _ => simp [State.setPhase, Tx.TidLeft]

end Steps

/-! ## The epochs -/

/-- No epoch is ahead of the global one, and a commit epoch is not behind those of the
records that are locked for it. -/
structure Timed (state : State I K R) : Prop where
  values : ∀ val, (state.value val).tidword.epoch ≤ state.globalEpoch
  commits : ∀ i, ∀ epoch ∈ (state.tx i).commitEpoch, epoch ≤ state.globalEpoch ∧
    ∀ key element, (state.tx i).rws key = some element → key ∈ (state.tx i).secured →
      (state.value element.val).tidword.epoch ≤ epoch

namespace Timed

variable {state after : State I K R} {place : Nat → Option (K × Life I)} {i : I} {tx' : Tx K R}
  [DecidableEq I]

theorem local' (timed : Timed state) (tx : after.tx = Function.update state.tx i tx')
    (epoch : ∀ val, (after.value val).tidword.epoch ≤ (state.value val).tidword.epoch)
    (globalEpoch : after.globalEpoch = state.globalEpoch)
    (commits : ∀ epoch ∈ tx'.commitEpoch, epoch ≤ state.globalEpoch ∧
      ∀ key element, tx'.rws key = some element → key ∈ tx'.secured →
        (state.value element.val).tidword.epoch ≤ epoch) : Timed after where
  values val := by
    rw [globalEpoch]
    exact (epoch val).trans (timed.values val)
  commits j epoch' member := by
    rw [tx] at member ⊢
    rw [globalEpoch]
    by_cases same : j = i
    · subst same
      rw [Function.update_self] at member ⊢
      obtain ⟨bound, locked⟩ := commits epoch' member
      exact ⟨bound, fun key element own secured =>
        (epoch _).trans (locked key element own secured)⟩
    · rw [Function.update_of_ne same] at member ⊢
      obtain ⟨bound, locked⟩ := timed.commits j epoch' member
      exact ⟨bound, fun key element own secured =>
        (epoch _).trans (locked key element own secured)⟩

theorem setPhase (timed : Timed state) {phase : Phase K R}
    (tx : after.tx = Function.update state.tx i ((state.tx i).moveTo phase))
    (epoch : ∀ val, (after.value val).tidword.epoch = (state.value val).tidword.epoch)
    (globalEpoch : after.globalEpoch = state.globalEpoch)
    (kept : ∀ epoch ∈ ((state.tx i).moveTo phase).commitEpoch, epoch ∈ (state.tx i).commitEpoch ∧
      ∀ key ∈ ((state.tx i).moveTo phase).secured, key ∈ (state.tx i).secured) : Timed after := by
  refine timed.local' tx (fun val => (epoch val).le) globalEpoch fun epoch member => ?_
  obtain ⟨old, secured⟩ := kept epoch member
  obtain ⟨bound, locked⟩ := timed.commits i epoch old
  exact ⟨bound, fun key element own member => locked key element own (secured key member)⟩

theorem write (timed : Timed state) (placed : Placed state place) {epoch tid serial : Nat}
    {key : K} {rest : List K} {element : ReadWriteElement R} {phase : Phase K R}
    (writing : (state.tx i).phase = .writing epoch tid (key :: rest))
    (own : (state.tx i).rws key = some element)
    (next : phase = .removing epoch tid key rest ∨ phase = .writing epoch tid rest) :
    Timed ((state.setValue element.val (element.installed epoch tid serial)).setPhase i phase) := by
  obtain ⟨bound, locked⟩ := timed.commits i epoch (by simp [Tx.commitEpoch, writing])
  have fresh := placed.fresh_of_writing writing
  have secured : (state.tx i).secured = key :: rest := by simp [Tx.secured, writing]
  have value : ∀ val, ((state.setValue element.val
      (element.installed epoch tid serial)).setPhase i phase).value val =
        Function.update state.value element.val (element.installed epoch tid serial) val :=
    fun _ => rfl
  refine ⟨fun val => ?_, fun j => ?_⟩
  · rw [value]
    by_cases same : val = element.val
    · subst same
      rwa [Function.update_self]
    · rw [Function.update_of_ne same]
      exact timed.values val
  · intro epoch' member
    simp only [value]
    by_cases same : j = i
    · subst same
      simp only [State.setPhase, setTx_tx_self] at member ⊢
      obtain rfl : epoch' = epoch := by
        obtain rfl | rfl := next <;> simpa [Tx.commitEpoch, eq_comm] using member
      refine ⟨bound, fun other element' own' member => ?_⟩
      have left : other ∈ rest := by
        obtain rfl | rfl := next <;> simpa [Tx.secured] using member
      have apart : element'.val ≠ element.val := by
        intro equal
        obtain rfl := placed.key_eq own' own equal
        exact fresh left
      rw [Function.update_of_ne apart]
      exact locked other element' own' (by simp [secured, left])
    · rw [State.setPhase, setTx_tx_of_ne _ _ same] at member ⊢
      obtain ⟨bound', locked'⟩ := timed.commits j epoch' member
      refine ⟨bound', fun other element' own' secured' => ?_⟩
      have apart : element'.val ≠ element.val := by
        intro equal
        obtain rfl := placed.key_eq own' own equal
        exact same (placed.exclusive j i other element' element
          (Tx.mem_held_of_secured secured') (Tx.mem_held_of_secured (by simp [secured])) own' own
          equal)
      rw [Function.update_of_ne apart]
      exact locked' other element' own' secured'

theorem move (timed : Timed state) (placed : Placed state place) (move : Move state i after) :
    Timed after := by
  cases move with
  | think _ early' | access _ _ _ _ early' =>
    refine timed.local' rfl (fun _ => le_rfl) rfl fun epoch member => ?_
    simp [early'.commitEpoch_eq] at member
  | insert inserts =>
    refine timed.local' rfl (fun val => ?_) rfl fun epoch member => ?_
    · change (Function.update state.value state.nextVal Value.placeholder val).tidword.epoch ≤ _
      by_cases same : val = state.nextVal
      · subst same
        simp [Value.placeholder]
      · rw [Function.update_of_ne same]
    · simp [Tx.commitEpoch, inserts.phase] at member
  | store running =>
    refine timed.local' rfl (fun _ => le_rfl) rfl fun epoch member => ?_
    simp [Tx.commitEpoch, Tx.settle, running] at member
  | precommit | aborted =>
    refine timed.local' rfl (fun _ => le_rfl) rfl fun epoch member => ?_
    simp [Tx.commitEpoch] at member
  | loadEpoch =>
    refine timed.local' rfl (fun _ => le_rfl) rfl fun epoch member => ?_
    obtain rfl : epoch = state.globalEpoch := by simpa [Tx.commitEpoch, eq_comm] using member
    exact ⟨le_rfl, fun _ _ _ _ => timed.values _⟩
  | skip phase | validate phase | validated phase | verify phase | decide phase | remove phase =>
    refine timed.setPhase rfl (fun _ => rfl) rfl fun epoch member => ?_
    simpa [Tx.commitEpoch, Tx.secured, phase] using member
  | write phase own =>
    refine timed.write placed phase own ?_
    split
    · exact .inl rfl
    · exact .inr rfl
  | lock | lockFails | unlock | retire =>
    refine timed.setPhase rfl (setValue_congr state _ · (·.tidword.epoch) rfl) rfl
      fun epoch member => ?_
    simp [Tx.commitEpoch] at member
  | fail | written | unlocked | abort | keep | unlink =>
    refine timed.setPhase rfl (fun _ => rfl) rfl fun epoch member => ?_
    simp [Tx.commitEpoch] at member

end Timed

/-! ## Whole runs -/

section Runs
variable [DecidableEq I] {contents : Contents K R} {trace : List (Label I K R)}
  {final : State I K R}

theorem run_idsFit (run : Run step IdsFit (start contents) trace final) :
    (∃ place, Placed final place) ∧ Grows final ∧ Timed final ∧ ∀ i, (final.tx i).TidLeft := by
  refine run.invariant (fun state => (∃ place, Placed state place) ∧ Grows state ∧ Timed state ∧
    ∀ i, (state.tx i).TidLeft) ⟨Placed.start contents, Grows.start contents, ?_, ?_⟩ ?_
  · exact ⟨fun val => Nat.zero_le _, fun i epoch member => by cases member⟩
  · exact fun i => trivial
  · rintro before label after ⟨⟨place, placed⟩, grows, timed, left⟩ ⟨epochFits, tidFits⟩ taken
    refine ⟨placed.step taken, ?_⟩
    obtain ⟨clock, rfl⟩ | ⟨i, actor, move⟩ := step_cases taken
    · have fits := epochFits clock
      refine ⟨⟨grows.bounded, grows.fits, grows.grown⟩, ?_, left⟩
      have later : before.globalEpoch ≤ (before.globalEpoch + 1) % 2 ^ 32 := by omega
      refine ⟨fun val => (timed.values val).trans later, fun i epoch member => ?_⟩
      obtain ⟨bound, locked⟩ := timed.commits i epoch member
      exact ⟨bound.trans later, locked⟩
    · refine ⟨grows.move placed move fun epoch tid key rest phase => ?_,
        timed.move placed move, fun j => ?_⟩
      · have left := left i
        simpa [Tx.TidLeft, phase] using left
      · by_cases same : j = i
        · subst same
          exact tidLeft_move (left j) move (tidFits j actor)
        · rw [move.tx_of_ne same]
          exact left j

/-- In every run in which the ids fit, the commit ids grow. -/
theorem commitIds_grow (run : Run step IdsFit (start contents) trace final) :
    final.IdsGrow := by
  obtain ⟨⟨place, placed⟩, grows, timed, left⟩ := run_idsFit run
  -- a transaction that writes has a tid above the records it still has to write
  have above : ∀ i epoch tid rest, (final.tx i).phase = .writing epoch tid rest →
      ∀ key element, (final.tx i).rws key = some element →
        element.tw.tid < tid ∧ (key ∈ rest → (final.value element.val).tidword.tid < tid) := by
    intro i epoch tid rest writing key element own
    have counted := (grows.grown i key element own).counted
    have left := left i
    simp only [Tx.Counted, Tx.TidLeft, writing] at counted left
    exact (counted left).symm
  refine ⟨?_, above, ?_⟩
  · intro i epoch tid key rest element after writing own taken
    have installed : after.value element.val =
        element.installed epoch tid (final.tx i).serial := by
      simp only [step, State.writeNext, writing, own, Option.map_some, Option.some.injEq] at taken
      rw [← taken]
      exact Function.update_self ..
    have greater := (above i epoch tid (key :: rest) writing key element own).2 List.mem_cons_self
    have later := (timed.commits i epoch (by simp [Tx.commitEpoch, writing])).2 key element own
      (by simp [Tx.secured, writing])
    rw [installed]
    obtain less | equal := later.lt_or_eq
    · exact .inl less
    · exact .inr ⟨equal, greater⟩
  · intro i key element own valid
    simp only [TidWord.isValid, Bool.and_eq_true, decide_eq_true_eq] at valid
    exact (grows.grown i key element own).same valid.1.2.symm

end Runs

/-! ## One record, updated again and again -/

def oneRow : Contents Unit Unit where
  index := ⟨⟨[((), 0)], List.pairwise_singleton _ _⟩, OrderedMap.empty, fun _ => 0, 1⟩
  records _ := ()
  nextVal := 1
  injective := by simp
  bounded := by
    intro key val found
    obtain rfl : val = 0 := by simpa using OrderedMap.get?_eq_some_iff.mp found
    exact Nat.one_pos

def updateRow (i : Option Nat) : List (Label (Option Nat) Unit Unit) :=
  [.call i .update (), .access i (), .precommit i, .lockNext i, .loadEpoch i [()],
    .validateNext i, .validateNext i, .verifyNext i, .writeNext i, .writeNext i]

def Phase.writes : Phase K R → Option (Nat × Nat × List K)
  | .writing epoch tid rest => some (epoch, tid, rest)
  | _ => none

/-- Two updates of the row, the second up to its write. -/
theorem twoUpdates_grow :
    ∃ final, execWhen step IdsFit (start oneRow)
        (updateRow (some 0) ++ (updateRow (some 1)).take 8) = some final ∧
      (∃ epoch tid, (final.tx (some 1)).phase = .writing epoch tid [()]) ∧ final.IdsGrow := by
  have reached : (execWhen step IdsFit (start oneRow)
      (updateRow (some 0) ++ (updateRow (some 1)).take 8)).map
        (fun final => (final.tx (some 1)).phase.writes) = some (some (1, 2, [()])) := by
    decide +kernel
  obtain ⟨final, success, writing⟩ := Option.map_eq_some_iff.mp reached
  refine ⟨final, success, ⟨1, 2, ?_⟩, commitIds_grow (Run.of_execWhen success)⟩
  unfold Phase.writes at writing
  split at writing <;> simp_all

section Wrapping
variable {n : Nat} {state : State (Option Nat) Unit Unit}

theorem exec_updateRow {i : Option Nat} {tid epoch : Nat} (found : state.index.find () = some 0)
    (readable : (state.value 0).tidword = ⟨false, true, false, tid, epoch⟩)
    (new : state.tx i = Tx.new) :
    ∃ tx', exec step state (updateRow i) = some { state with
      value := Function.update state.value 0
        ⟨⟨false, true, false, (tid + 1) % 2 ^ 29, state.globalEpoch⟩, (state.value 0).record,
          state.order.length + 1⟩
      tx := Function.update state.tx i tx'
      order := state.order ++ [i] } := by
  let element : ReadWriteElement Unit :=
    ⟨(state.value 0).record, (state.value 0).tidword, .update, false, 0, (state.value 0).writer,
      (state.value 0).record⟩
  refine ⟨{ Tx.new.settle () ⟨element, true, (state.value 0).record,
      [.read () (state.value 0).record]⟩ with
    phase := .committed
    serial := state.order.length + 1 }, ?_⟩
  simp [element, updateRow, exec, step, State.call, new, Tx.new, found, State.setPhase,
    State.setTx, Tx.moveTo, State.access, Tx.target, readable, Tx.access, Value.access,
    TidWord.isReadable, Tx.settle, State.precommit, State.lockNext, State.setLock, State.setValue,
    State.loadEpoch, List.isPerm, State.validateNext, TidWord.isValid, State.verifyNext,
    State.writeNext, ReadWriteElement.installed]

structure Updated (n : Nat) (state : State (Option Nat) Unit Unit) : Prop where
  found : state.index.find () = some 0
  tidword : (state.value 0).tidword = ⟨false, true, false, n % 2 ^ 29, if n = 0 then 0 else 1⟩
  writer : (state.value 0).writer = n
  order : state.order.length = n
  epoch : state.globalEpoch = 1
  free : ∀ m, n ≤ m → state.tx (some m) = Tx.new

theorem Updated.next (updated : Updated n state) :
    ∃ after, exec step state (updateRow (some n)) = some after ∧ Updated (n + 1) after ∧
      after.tx none = state.tx none := by
  obtain ⟨tx', success⟩ :=
    exec_updateRow updated.found updated.tidword (updated.free n le_rfl)
  refine ⟨_, success, ⟨updated.found, ?_, ?_, ?_, updated.epoch, fun m above => ?_⟩, ?_⟩
  · simp [updated.epoch]
  · simp [updated.order]
  · simp [updated.order]
  · have different : some m ≠ some n := by simp; omega
    change Function.update state.tx (some n) tx' (some m) = _
    rw [Function.update_of_ne different]
    exact updated.free m (by omega)
  · exact setTx_tx_of_ne state tx' (Option.some_ne_none n).symm

theorem Updated.reach (updated : Updated n state) (m : Nat) :
    ∃ trace after, Run step always state trace after ∧ Updated (n + m) after ∧
      after.tx none = state.tx none := by
  induction m with
  | zero => exact ⟨[], state, .nil, updated, rfl⟩
  | succ m ih =>
    obtain ⟨trace, middle, run, reached, same⟩ := ih
    obtain ⟨after, success, next, same'⟩ := reached.next
    exact ⟨_, after, run.trans (.of_exec success), next, same'.trans same⟩

theorem Updated.read (updated : Updated n state) (new : state.tx none = Tx.new) :
    ∃ after, exec step state [.call none .read (), .access none ()] = some after ∧
      Updated n after ∧ (after.tx none).rws () =
        some ⟨none, (state.value 0).tidword, .read, false, 0, n, (state.value 0).record⟩ := by
  have tidword := updated.tidword
  have tx' : ∃ tx', exec step state [.call none .read (), .access none ()] =
      some (state.setTx none tx') ∧ tx'.rws () =
        some ⟨none, (state.value 0).tidword, .read, false, 0, n, (state.value 0).record⟩ := by
    refine ⟨(Tx.new.settle () ⟨⟨none, (state.value 0).tidword, .read, false, 0, n,
      (state.value 0).record⟩, false, (state.value 0).record,
      [.read () (state.value 0).record]⟩), ?_, by simp [Tx.settle]⟩
    simp [exec, step, State.call, new, Tx.new, updated.found, State.setPhase, State.setTx,
      Tx.moveTo, State.access, Tx.target, tidword, Tx.access, Value.access, TidWord.isReadable,
      Tx.settle, updated.writer]
  obtain ⟨tx', success, rws⟩ := tx'
  refine ⟨_, success, ⟨updated.found, tidword, updated.writer, updated.order, updated.epoch,
    fun m above => ?_⟩, ?_⟩
  · rw [setTx_tx_of_ne state tx' (Option.some_ne_none m)]
    exact updated.free m above
  · rwa [setTx_tx_self]

end Wrapping

/-- After 2^29 updates in one epoch a record has the pair of epoch and tid that it had before
them, and `is_valid` accepts it for a transaction that has read it then. -/
theorem wrappedTid_accepted :
    ∃ trace final, Run step always (start oneRow : State (Option Nat) Unit Unit) trace final ∧
      ¬ final.IdsGrow := by
  have loaded : Updated 0 (start oneRow : State (Option Nat) Unit Unit) :=
    ⟨rfl, rfl, rfl, rfl, rfl, fun _ _ => rfl⟩
  obtain ⟨first, success, updated, untouched⟩ := loaded.next
  obtain ⟨second, success', updated', own⟩ := updated.read untouched
  obtain ⟨trace, final, run, wrapped, same⟩ := updated'.reach (2 ^ 29)
  refine ⟨_, final, ((Run.of_exec success).trans (.of_exec success')).trans run, fun grows => ?_⟩
  rw [← same] at own
  have accepted := (grows.accepts none () _ own ?_).1
  · rw [wrapped.writer] at accepted
    norm_num at accepted
  · rw [wrapped.tidword, updated.tidword]
    norm_num [TidWord.isValid, TidWord.isReadable]

end TpccRunner.Silo
