import TpccRunner.Common.EpochGarbage

/-!
# Timely collection is safe

Every retired object is covered by its tag, and the epoch lag keeps the tags that
`remove` deallocates below every active starting epoch.
-/

set_option autoImplicit false

namespace TpccRunner.Epoch

open Lib

variable {n : Nat} {Slot : Type}

theorem step_frame {before after : State n} {label : Label n} {worker : Fin n}
    (taken : step before label = some after) (noLoad : label ≠ .beginLoad worker)
    (noStore : label ≠ .beginStore worker) :
    after.begun worker = before.begun worker ∧
      after.workerEpoch worker = before.workerEpoch worker ∧
      after.loaded worker = before.loaded worker := by
  cases label with
  | beginLoad loading =>
    have other : worker ≠ loading := fun same => noLoad (same ▸ rfl)
    simp only [step, Option.ite_none_right_eq_some, Option.some.injEq] at taken
    obtain ⟨-, rfl⟩ := taken
    simp [other]
  | beginStore storing =>
    have other : worker ≠ storing := fun same => noStore (same ▸ rfl)
    simp only [step] at taken
    split at taken <;> cases taken
    simp [other]
  | setWorker _ | incrementLoad | sampleWorker | incrementAdd =>
    simp only [step] at taken
    split at taken <;> cases taken
    exact ⟨rfl, rfl, rfl⟩

theorem step_beginStore {before after : State n} {worker : Fin n}
    (taken : step before (.beginStore worker) = some after) :
    after.begun worker ∧ after.loaded worker = none := by
  simp only [step] at taken
  split at taken
  · cases taken
  · obtain rfl := Option.some.inj taken
    simp

structure Heap.Inv (heap : Heap n Slot) : Prop where
  lag : Lag heap.epochs
  era : ∀ worker e, heap.pointers.stamp worker = some e →
    heap.epochs.begun worker ∧ heap.epochs.workerEpoch worker = e ∧
      heap.epochs.loaded worker = none
  pointers : heap.pointers.Ok heap.Retired

theorem Heap.Inv.start (uninitialised : Fin n → Nat) (loaded : Loaded Slot) :
    (Heap.start uninitialised loaded).Inv where
  lag := Lag.start uninitialised
  era := by simp [Heap.start, Pointers.start]
  pointers := Pointers.Ok.start loaded (by simp [Heap.Retired, Heap.start])

section Steps
variable {before after : Heap n Slot} {worker : Fin n}

theorem Heap.Inv.manage (inv : before.Inv) {label : Label n}
    (regular : Regular before.epochs label)
    (outside : ∀ worker, label = .beginLoad worker ∨ label = .beginStore worker →
      before.pointers.stamp worker = none)
    (taken : before.manage label = some after) : after.Inv := by
  simp only [Heap.manage, Option.map_eq_some_iff] at taken
  obtain ⟨epochs, moved, rfl⟩ := taken
  refine ⟨inv.lag.step regular moved, ?_, inv.pointers⟩
  intro worker e active
  obtain ⟨begun, stored, unloaded⟩ := inv.era worker e active
  have noLoad : label ≠ .beginLoad worker := by
    intro same
    simp [outside worker (.inl same)] at active
  have noStore : label ≠ .beginStore worker := by
    intro same
    simp [outside worker (.inr same)] at active
  obtain ⟨sameBegun, sameEpoch, sameLoaded⟩ := step_frame moved noLoad noStore
  exact ⟨sameBegun ▸ begun, sameEpoch ▸ stored, sameLoaded ▸ unloaded⟩

theorem Heap.Inv.inactive_of_beginStore (inv : before.Inv)
    (taken : before.manage (.beginStore worker) = some after) :
    before.pointers.stamp worker = none := by
  by_contra active
  obtain ⟨e, active⟩ := Option.ne_none_iff_exists'.mp active
  have unloaded := (inv.era worker e active).2.2
  simp [Heap.manage, Epoch.step, unloaded] at taken

theorem Heap.Inv.beginStore (inv : before.Inv)
    (taken : (before.manage (.beginStore worker)).map (fun begun => { begun with
      pointers := begun.pointers.enter worker (begun.epochs.workerEpoch worker) }) =
        some after) : after.Inv := by
  obtain ⟨middle, managed, rfl⟩ := Option.map_eq_some_iff.mp taken
  obtain ⟨epochs, moved, rfl⟩ := Option.map_eq_some_iff.mp managed
  obtain ⟨begun, unloaded⟩ := step_beginStore moved
  have idle := inv.inactive_of_beginStore managed
  have outside : ∀ other, Label.beginStore worker = .beginLoad other ∨
      Label.beginStore worker = .beginStore other → before.pointers.stamp other = none := by
    intro other moves
    obtain same : worker = other := by simpa using moves
    exact same ▸ idle
  have regular : Regular before.epochs (.beginStore worker) := ⟨trivial, trivial⟩
  have others := inv.manage regular outside managed
  refine ⟨others.lag, ?_, inv.pointers.enter idle⟩
  intro other e active
  by_cases same : other = worker
  · subst same
    simp only [Pointers.enter, Function.update_self, Option.some.injEq] at active
    exact ⟨begun, active, unloaded⟩
  · exact others.era other e (by simpa [Pointers.enter, same] using active)

theorem Heap.Inv.clear (inv : before.Inv) {e tag : Nat}
    (active : before.pointers.stamp worker = some e) (old : expired e tag = true) :
    Clear before.pointers.stamp tag := by
  simp only [expired, Bool.and_eq_true, decide_eq_true_eq] at old
  intro other s active'
  obtain ⟨begun, stored, -⟩ := inv.era worker e active
  obtain ⟨begun', stored', -⟩ := inv.era other s active'
  have own := inv.lag.stored worker begun
  have theirs := inv.lag.stored other begun'
  omega

theorem Heap.Inv.remove (inv : before.Inv) {e : Nat}
    (active : before.pointers.stamp worker = some e) : (before.remove worker e).Inv := by
  refine ⟨inv.lag, ?_, ?_⟩
  · intro other e' active'
    by_cases same : other = worker
    · simp [Heap.remove, Pointers.leave, same] at active'
    · exact inv.era other e' (by
        simpa [Heap.remove, Pointers.leave, Pointers.free, same] using active')
  · have freed : Pointers.Ok (before.pointers.free fun object =>
        (before.container worker).any fun entry =>
          decide (entry.2 = object) && expired e entry.1) before.Retired := by
      apply inv.pointers.free
      intro object gone
      simp only [List.any_eq_true, Bool.and_eq_true, decide_eq_true_eq] at gone
      obtain ⟨⟨tag, object'⟩, member, rfl, old⟩ := gone
      exact ⟨tag, ⟨worker, member⟩, inv.clear active old⟩
    apply (freed.leave).retag
    intro object tag retired
    obtain ⟨other, member⟩ := retired
    refine ⟨tag, le_rfl, other, ?_⟩
    by_cases same : other = worker
    · subst same
      simp only [Heap.remove, Function.update_self, List.mem_filter] at member
      exact member.1
    · simpa [Heap.remove, same] using member

theorem Heap.collect_retired {tag object object' tag' : Nat}
    (retired : (before.collect worker tag object).Retired object' tag') :
    before.Retired object' tag' ∨ (tag' = tag ∧ object' = object) := by
  obtain ⟨other, member⟩ := retired
  by_cases same : other = worker
  · subst same
    simp only [Heap.collect, Function.update_self, List.mem_cons, Prod.mk.injEq] at member
    exact member.symm.imp_left fun member => ⟨other, member⟩
  · exact .inl ⟨other, by simpa [Heap.collect, same] using member⟩

variable [DecidableEq Slot] {slot : Slot}

theorem Heap.exchange_pointers (heap : Heap n Slot) (worker : Fin n) (slot : Slot) (tag : Nat)
    (fresh : Bool) : (heap.exchange worker slot tag fresh).pointers =
      if fresh then heap.pointers.put worker slot else heap.pointers.clear slot := by
  simp only [Heap.exchange]
  split <;> rfl

theorem Heap.exchange_epochs (heap : Heap n Slot) (worker : Fin n) (slot : Slot) (tag : Nat)
    (fresh : Bool) : (heap.exchange worker slot tag fresh).epochs = heap.epochs := by
  simp only [Heap.exchange]
  split <;> rfl

theorem Heap.Inv.exchange_cleared (inv : before.Inv) (worker : Fin n) (fresh : Bool) {tag : Nat}
    (timely : ∀ object, before.pointers.slots slot = some object → before.CoveredAt object tag) :
    (before.pointers.clear slot).Ok (before.exchange worker slot tag fresh).Retired := by
  cases present : before.pointers.slots slot with
  | none =>
    have same : (before.exchange worker slot tag fresh).Retired = before.Retired := by
      simp only [Heap.exchange, present]
      rfl
    exact same ▸ inv.pointers.clear
  | some old =>
    apply inv.pointers.clear_retire (inv.pointers.linked slot old present).1 _
      (timely old present)
    · intro object tag' retired
      simp only [Heap.exchange, present] at retired
      exact Heap.collect_retired retired
    · intro slot' present'
      exact inv.pointers.distinct slot' slot old present' present

theorem Heap.Inv.exchange (inv : before.Inv) {tag e : Nat} {fresh : Bool}
    (active : before.pointers.stamp worker = some e)
    (timely : ∀ object, before.pointers.slots slot = some object → before.CoveredAt object tag) :
    (before.exchange worker slot tag fresh).Inv := by
  have cleared := inv.exchange_cleared worker fresh timely
  have ok : (before.exchange worker slot tag fresh).pointers.Ok
      (before.exchange worker slot tag fresh).Retired := by
    rw [Heap.exchange_pointers]
    cases fresh with
    | false => exact cleared
    | true =>
      rw [if_pos rfl, ← Pointers.clear_put]
      exact cleared.put active
  refine ⟨(Heap.exchange_epochs before worker slot tag fresh).symm ▸ inv.lag, ?_, ok⟩
  intro other e' active'
  rw [Heap.exchange_epochs]
  apply inv.era other e'
  rw [Heap.exchange_pointers] at active'
  cases fresh <;> exact active'

theorem Heap.Inv.unlink (inv : before.Inv) {object tag : Nat}
    (obtained : before.pointers.Obtained worker slot object)
    (timely : before.CoveredAt object tag) : (before.unlink worker slot object tag).Inv := by
  obtain ⟨allocated, -, home⟩ := inv.pointers.held worker slot object obtained
  refine ⟨inv.lag, inv.era, ?_⟩
  apply inv.pointers.clear_retire allocated home timely
  intro object' tag' retired
  exact Heap.collect_retired retired

theorem Heap.Inv.step (inv : before.Inv) {label : HeapLabel n Slot}
    (taken : before.step label = some after) (timely : before.Timely label) : after.Inv := by
  cases label with
  | manage label =>
    cases label with
    | beginLoad worker =>
      simp only [Heap.step, Option.ite_none_right_eq_some] at taken
      refine inv.manage timely ?_ taken.2
      intro other moves
      obtain same : worker = other := by simpa using moves
      exact same ▸ taken.1
    | beginStore worker => exact inv.beginStore taken
    | setWorker _ | incrementLoad | sampleWorker | incrementAdd =>
      exact inv.manage timely (by simp) taken
  | find worker slot =>
    simp only [Heap.step] at taken
    split at taken
    · rename_i e object active present
      obtain rfl := Option.some.inj taken
      exact ⟨inv.lag, inv.era, inv.pointers.hold active present⟩
    · cases taken
  | exchange worker slot tag fresh =>
    simp only [Heap.step, Option.ite_none_left_eq_some, Option.some.injEq] at taken
    obtain ⟨active, rfl⟩ := taken
    obtain ⟨e, active⟩ := Option.ne_none_iff_exists'.mp active
    exact inv.exchange active timely
  | unlink worker slot object tag =>
    simp only [Heap.step, Option.ite_none_right_eq_some, Option.some.injEq] at taken
    obtain ⟨obtained, rfl⟩ := taken
    exact inv.unlink obtained timely
  | remove worker =>
    simp only [Heap.step, Option.map_eq_some_iff] at taken
    obtain ⟨e, active, rfl⟩ := taken
    exact inv.remove active

end Steps

end TpccRunner.Epoch
