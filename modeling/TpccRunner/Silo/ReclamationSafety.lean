import TpccRunner.Silo.Reclamation

/-!
# Silo's records are collected in time

The commit epoch is loaded while the write set is locked, and nobody starts to read
a record whose tidword is locked.  So whoever has a pointer to a record that
`precommit` replaces started no later than the commit epoch: collecting a record
needs no condition, and only the values taken out of the index do.
-/

set_option autoImplicit false

namespace TpccRunner.Silo.Reclamation

open Lib Epoch

variable {n : Nat} {K : Type}

def Phase.elements : Phase K → List (Element K)
  | .locking locked rest => locked ++ rest
  | .validating _ locked => locked
  | .writing _ rest => rest
  | .removing _ element rest => element :: rest
  | .unlocking rest => rest
  | .aborting rest => rest
  | .retired element rest => element :: rest
  | .running => []

def Tx.elements (tx : Tx K) : List (Element K) := tx.writeSet ++ tx.phase.elements

theorem Tx.mem_elements_tail {tx : Tx K} {element : Element K} {rest : List (Element K)}
    (elements : tx.phase.elements = element :: rest) : ∀ other ∈ rest, other ∈ tx.elements :=
  fun _ member => List.mem_append_right _ (elements ▸ List.mem_cons_of_mem _ member)

theorem Phase.locked_subset (phase : Phase K) : phase.locked ⊆ phase.elements := by
  cases phase <;> simp [Phase.locked, Phase.elements]

def Tx.locked (tx : Tx K) : List Nat := tx.phase.locked.map Element.val

def System.Reads (system : System n K) (worker : Fin n) (val : Nat) : Prop :=
  (system.tx worker).peeked = some val ∨
    ∃ object, system.heap.pointers.slots (.record val) = some object ∧
      system.heap.pointers.Holds worker object

structure System.Inv (system : System n K) : Prop where
  heap : system.heap.Inv
  idle : ∀ worker, system.heap.pointers.stamp worker = none → system.tx worker = Tx.new
  bound : ∀ worker, ∀ element ∈ (system.tx worker).elements, element.val < system.heap.pointers.next
  nodup : ∀ worker, (system.tx worker).locked.Nodup
  lock : ∀ worker, ∀ val ∈ (system.tx worker).locked, system.shared.lock val = true
  disjoint : ∀ worker other val, val ∈ (system.tx worker).locked →
    val ∈ (system.tx other).locked → worker = other
  guarded : ∀ worker e, (system.tx worker).phase.commitEpoch = some e →
    ∀ val ∈ (system.tx worker).locked, CoveredAt system.heap.pointers.stamp system.Reads val e

theorem System.Inv.start (uninitialised : Fin n → Nat) (database : Database K) :
    (System.start uninitialised database).Inv where
  heap := Heap.Inv.start uninitialised database.toLoaded
  idle _ _ := rfl
  bound := by simp [System.start, Tx.new, Tx.elements, Phase.elements]
  nodup := by simp [System.start, Tx.new, Tx.locked, Phase.locked]
  lock := by simp [System.start, Tx.new, Tx.locked, Phase.locked]
  disjoint := by simp [System.start, Tx.new, Tx.locked, Phase.locked]
  guarded := by simp [System.start, Tx.new, Phase.commitEpoch]

theorem System.Inv.locked_lt {system : System n K} (inv : system.Inv) {worker : Fin n} {val : Nat}
    (locked : val ∈ (system.tx worker).locked) : val < system.heap.pointers.next := by
  obtain ⟨element, member, rfl⟩ := List.mem_map.mp locked
  apply inv.bound worker element
  exact List.mem_append_right _ ((system.tx worker).phase.locked_subset member)

section Moves
variable {before : System n K} {worker : Fin n}

theorem System.Inv.heapMoves (inv : before.Inv) {heap : Heap n (Slot K)} (heapInv : heap.Inv)
    (grows : before.heap.pointers.next ≤ heap.pointers.next)
    (idle : ∀ worker, heap.pointers.stamp worker = none → before.tx worker = Tx.new)
    (fewer : ∀ holder val, val ∈ (before.tx holder).locked → ∀ reader s,
      heap.pointers.stamp reader = some s → System.Reads { before with heap } reader val →
        before.heap.pointers.stamp reader = some s ∧ before.Reads reader val) :
    System.Inv { before with heap } where
  heap := heapInv
  idle := idle
  bound worker element member := lt_of_lt_of_le (inv.bound worker element member) grows
  nodup := inv.nodup
  lock := inv.lock
  disjoint := inv.disjoint
  guarded := by
    intro holder e committing val locked
    apply (inv.guarded holder e committing val locked).mono le_rfl
    exact fewer holder val locked

theorem System.Inv.txMoves (inv : before.Inv) {tx : Tx K} {shared : TidWords}
    (active : before.heap.pointers.stamp worker = none → tx = Tx.new)
    (bound : ∀ element ∈ tx.elements, element.val < before.heap.pointers.next)
    (nodup : tx.locked.Nodup) (own : ∀ val ∈ tx.locked, shared.lock val = true)
    (others : ∀ other, other ≠ worker → ∀ val ∈ (before.tx other).locked,
      shared.lock val = true ∧ val ∉ tx.locked)
    (peeked : ∀ val, tx.peeked = some val → (before.tx worker).peeked = some val ∨
      (val ∉ tx.locked ∧ ∀ other, val ∉ (before.tx other).locked))
    (guarded : ∀ e, tx.phase.commitEpoch = some e → ∀ val ∈ tx.locked,
      CoveredAt before.heap.pointers.stamp before.Reads val e) :
    System.Inv { before with shared, tx := Function.update before.tx worker tx } := by
  refine ⟨inv.heap, ?_, ?_, ?_, ?_, ?_, ?_⟩
  · intro other inactive
    by_cases same : other = worker
    · subst same
      simpa using active inactive
    · simpa [same] using inv.idle other inactive
  · intro other element member
    by_cases same : other = worker
    · subst same
      exact bound element (by simpa using member)
    · exact inv.bound other element (by simpa [same] using member)
  · intro other
    by_cases same : other = worker
    · subst same
      simpa using nodup
    · simpa [same] using inv.nodup other
  · intro other val member
    by_cases same : other = worker
    · subst same
      exact own val (by simpa using member)
    · exact (others other same val (by simpa [same] using member)).1
  · intro first second val member member'
    by_cases same : first = worker <;> by_cases same' : second = worker
    · exact same.trans same'.symm
    · subst same
      simp only [Function.update_self] at member
      exact absurd member (others second same' val (by simpa [same'] using member')).2
    · subst same'
      simp only [Function.update_self] at member'
      exact absurd member' (others first same val (by simpa [same] using member)).2
    · exact inv.disjoint first second val (by simpa [same] using member)
        (by simpa [same'] using member')
  · -- a reader of a locked value has read it before
    intro holder e committing val member
    have fewer : ∀ reader s, before.heap.pointers.stamp reader = some s →
        System.Reads { before with shared, tx := Function.update before.tx worker tx }
          reader val →
        before.heap.pointers.stamp reader = some s ∧ before.Reads reader val := by
      intro reader s active reads
      refine ⟨active, reads.imp_left ?_⟩
      intro peek
      by_cases same : reader = worker
      · subst same
        obtain before | ⟨notOwn, notOthers⟩ := peeked val (by simpa using peek)
        · exact before
        · by_cases same' : holder = reader
          · subst same'
            exact absurd (by simpa using member) notOwn
          · exact absurd (by simpa [same'] using member) (notOthers holder)
      · simpa [same] using peek
    have covered : CoveredAt before.heap.pointers.stamp before.Reads val e := by
      by_cases same : holder = worker
      · subst same
        exact guarded e (by simpa using committing) val (by simpa using member)
      · exact inv.guarded holder e (by simpa [same] using committing) val
          (by simpa [same] using member)
    exact covered.mono le_rfl fewer

theorem System.Inv.txMoves_unlocked (inv : before.Inv) {tx : Tx K} {shared : TidWords}
    (active : before.heap.pointers.stamp worker = none → tx = Tx.new)
    (bound : ∀ element ∈ tx.elements, element.val < before.heap.pointers.next)
    (unlocked : tx.locked = [])
    (others : ∀ other, other ≠ worker → ∀ val ∈ (before.tx other).locked, shared.lock val = true)
    (peeked : ∀ val, tx.peeked = some val → (before.tx worker).peeked = some val ∨
      ∀ other, val ∉ (before.tx other).locked) :
    System.Inv { before with shared, tx := Function.update before.tx worker tx } := by
  apply inv.txMoves active bound
  · simp [unlocked]
  · simp [unlocked]
  · intro other notSame val member
    exact ⟨others other notSame val member, by simp [unlocked]⟩
  · intro val peek
    exact (peeked val peek).imp_right fun notLocked => ⟨by simp [unlocked], notLocked⟩
  · simp [unlocked]

theorem System.Inv.setTx_unlocked (inv : before.Inv) {tx : Tx K}
    (active : before.heap.pointers.stamp worker = none → tx = Tx.new)
    (bound : ∀ element ∈ tx.elements, element.val < before.heap.pointers.next)
    (unlocked : tx.locked = [])
    (peeked : ∀ val, tx.peeked = some val → (before.tx worker).peeked = some val ∨
      ∀ other, val ∉ (before.tx other).locked) :
    System.Inv (before.setTx worker tx) :=
  inv.txMoves_unlocked active bound unlocked (fun other _ => inv.lock other) peeked

end Moves

section LocalSteps
variable {before after : System n K} {worker : Fin n}

theorem Tx.phase_of_running {tx : Tx K} (running : tx.running) : tx.phase = .running := by
  simp only [Tx.running] at running
  split at running
  · assumption
  · cases running

theorem System.Inv.active (inv : before.Inv) (busy : (before.tx worker).phase ≠ .running) :
    before.heap.pointers.stamp worker ≠ none := by
  intro inactive
  exact busy (by simp [inv.idle worker inactive, Tx.new])

theorem System.Inv.setPhase (inv : before.Inv) {next : Phase K}
    (busy : (before.tx worker).phase ≠ .running)
    (bound : ∀ element ∈ next.elements, element ∈ (before.tx worker).elements)
    (same : next.locked = (before.tx worker).phase.locked)
    (guarded : ∀ e, next.commitEpoch = some e → ∀ val ∈ (before.tx worker).locked,
      CoveredAt before.heap.pointers.stamp before.Reads val e) :
    (before.setPhase worker next).Inv := by
  have sameLocked : Tx.locked { before.tx worker with phase := next } =
      (before.tx worker).locked := by
    simp [Tx.locked, same]
  apply inv.txMoves
  · exact fun inactive => absurd inactive (inv.active busy)
  · intro element member
    obtain member | member := List.mem_append.mp member
    · exact inv.bound worker element (List.mem_append_left _ member)
    · exact inv.bound worker element (bound element member)
  · exact sameLocked ▸ inv.nodup worker
  · rw [sameLocked]
    exact inv.lock worker
  · intro other notSame val member
    rw [sameLocked]
    exact ⟨inv.lock other val member, fun member' =>
      notSame (inv.disjoint other worker val member member')⟩
  · exact fun _ => .inl
  · rw [sameLocked]
    exact guarded

theorem System.Inv.releases (inv : before.Inv) {element : Element K} {rest : List (Element K)}
    {next : Phase K} {readable : Nat → Bool}
    (locked : (before.tx worker).phase.locked = element :: rest) (nextLocked : next.locked = rest)
    (busy : (before.tx worker).phase ≠ .running)
    (bound : next.elements ⊆ (before.tx worker).phase.elements)
    (committed : ∀ e, next.commitEpoch = some e →
      (before.tx worker).phase.commitEpoch = some e) :
    System.Inv { before with
      shared := { lock := Function.update before.shared.lock element.val false, readable }
      tx := Function.update before.tx worker { before.tx worker with phase := next } } := by
  have own : (before.tx worker).locked = element.val :: rest.map Element.val := by
    simp [Tx.locked, locked]
  have nextOwn : Tx.locked { before.tx worker with phase := next } = rest.map Element.val := by
    simp [Tx.locked, nextLocked]
  have nodup := own ▸ inv.nodup worker
  obtain ⟨notAgain, nodupRest⟩ := List.nodup_cons.mp nodup
  have stays : ∀ val ∈ rest.map Element.val, val ∈ (before.tx worker).locked := by
    intro val member
    rw [own]
    exact List.mem_cons_of_mem _ member
  apply inv.txMoves
  · exact fun inactive => absurd inactive (inv.active busy)
  · intro x member
    apply inv.bound worker
    obtain member | member := List.mem_append.mp member
    · exact List.mem_append_left _ member
    · exact List.mem_append_right _ (bound member)
  · exact nextOwn ▸ nodupRest
  · intro val member
    rw [nextOwn] at member
    have other : val ≠ element.val := fun same => notAgain (same ▸ member)
    simpa [other] using inv.lock worker val (stays val member)
  · intro other notSame val member
    have elsewhere : ∀ val', val' ∈ (before.tx worker).locked → val ≠ val' := by
      intro val' member' same
      exact notSame (inv.disjoint other worker val member (same ▸ member'))
    refine ⟨?_, ?_⟩
    · have notReleased := elsewhere element.val (by simp [own])
      simpa [notReleased] using inv.lock other val member
    · rw [nextOwn]
      exact fun member' => elsewhere val (stays val member') rfl
  · exact fun _ => .inl
  · intro e committing val member
    rw [nextOwn] at member
    exact inv.guarded worker e (committed e committing) val (stays val member)

theorem System.Inv.lockNext (inv : before.Inv)
    (taken : before.lockNext worker = some after) : after.Inv := by
  simp only [System.lockNext] at taken
  split at taken
  · rename_i locked element rest phase
    simp only [Option.ite_none_left_eq_some, Option.some.injEq] at taken
    obtain ⟨free, rfl⟩ := taken
    have notLocked : ∀ other, element.val ∉ (before.tx other).locked := by
      intro other member
      exact free (inv.lock other _ member)
    have own : (before.tx worker).phase.locked = locked := by simp [phase, Phase.locked]
    have elements : (before.tx worker).elements =
        (before.tx worker).writeSet ++ (locked ++ element :: rest) := by
      simp [Tx.elements, phase, Phase.elements]
    -- both ways on, the element joins those that are locked
    have joins : ∀ next : Phase K, next.locked = locked ++ [element] →
        next.elements ⊆ locked ++ element :: rest → next.commitEpoch = none →
        System.Inv { before with
          shared.lock := Function.update before.shared.lock element.val true
          tx := Function.update before.tx worker { before.tx worker with phase := next } } := by
      intro next nextLocked nextElements uncommitted
      have after : Tx.locked { before.tx worker with phase := next } =
          (before.tx worker).locked ++ [element.val] := by
        simp [Tx.locked, nextLocked, own]
      apply inv.txMoves
      · intro inactive
        exact absurd inactive (inv.active (by simp [phase]))
      · intro x member
        apply inv.bound worker
        rw [elements]
        obtain member | member := List.mem_append.mp member
        · exact List.mem_append_left _ member
        · exact List.mem_append_right _ (nextElements member)
      · rw [after]
        exact List.nodup_append.mpr ⟨inv.nodup worker, by simp, by
          intro val member val' isNew
          rw [List.mem_singleton.mp isNew]
          exact fun same => notLocked worker (same ▸ member)⟩
      · intro val member
        rw [after] at member
        obtain member | isNew := List.mem_append.mp member
        · by_cases same : val = element.val
          · simp [same]
          · simpa [same] using inv.lock worker val member
        · simp [List.mem_singleton.mp isNew]
      · intro other notSame val member
        have notNew : val ≠ element.val := fun same => notLocked other (same ▸ member)
        refine ⟨by simpa [notNew] using inv.lock other val member, ?_⟩
        rw [after]
        intro member'
        obtain member' | isNew := List.mem_append.mp member'
        · exact notSame (inv.disjoint other worker val member member')
        · exact notNew (List.mem_singleton.mp isNew)
      · exact fun _ => .inl
      · intro e committed
        simp [uncommitted] at committed
    split
    · exact joins _ rfl (by simp [Phase.elements]) rfl
    · exact joins _ rfl (by simp [Phase.elements]) rfl
  · cases taken

theorem System.Inv.loadEpoch (inv : before.Inv)
    (taken : before.loadEpoch worker = some after) : after.Inv := by
  simp only [System.loadEpoch] at taken
  split at taken
  · rename_i locked phase
    obtain rfl := Option.some.inj taken
    apply inv.setPhase
    · simp [phase]
    · intro element member
      exact List.mem_append_right _ (by simpa [phase, Phase.elements] using member)
    · simp [phase, Phase.locked]
    · -- every active transaction started by now
      intro e loaded val _ reader s active _
      simp only [Phase.commitEpoch, Option.some.injEq] at loaded
      obtain ⟨begun, stored, -⟩ := inv.heap.era reader s active
      rw [← loaded, ← stored]
      exact (inv.heap.lag.stored reader begun).1
  · cases taken

theorem System.Inv.validate (inv : before.Inv) {valid : Bool}
    (taken : before.validate worker valid = some after) : after.Inv := by
  simp only [System.validate] at taken
  split at taken
  · rename_i e locked phase
    obtain rfl := Option.some.inj taken
    apply inv.setPhase
    · simp [phase]
    · intro element member
      apply List.mem_append_right
      cases valid <;> simpa [phase, Phase.elements] using member
    · cases valid <;> simp [phase, Phase.locked]
    · intro e' committed
      apply inv.guarded worker e'
      cases valid <;> simp_all [Phase.commitEpoch]
  · cases taken

theorem System.Inv.unlockNext (inv : before.Inv)
    (taken : before.unlockNext worker = some after) : after.Inv := by
  simp only [System.unlockNext] at taken
  split at taken
  · rename_i element rest phase
    obtain rfl := Option.some.inj taken
    exact inv.releases (by simp [phase, Phase.locked]) rfl (by simp [phase])
      (by simp [phase, Phase.elements]) (by simp [Phase.commitEpoch])
  · cases taken

theorem System.Inv.abort (inv : before.Inv)
    (taken : before.abort worker = some after) : after.Inv := by
  have aborts : before.heap.pointers.stamp worker ≠ none →
      (before.setPhase worker (.aborting (before.tx worker).writeSet)).Inv := by
    intro active
    apply inv.setTx_unlocked
    · exact fun inactive => absurd inactive active
    · intro element member
      simp only [Tx.elements, Phase.elements, List.mem_append, or_self] at member
      exact inv.bound worker element (List.mem_append_left _ member)
    · simp [Tx.locked, Phase.locked]
    · exact fun _ => .inl
  simp only [System.abort] at taken
  split at taken
  · rename_i active
    obtain rfl := Option.some.inj taken
    exact aborts (by simp [active])
  · rename_i active
    obtain rfl := Option.some.inj taken
    exact aborts (by simp [active])
  · cases taken

theorem System.Inv.abortNext (inv : before.Inv)
    (taken : before.abortNext worker = some after) : after.Inv := by
  simp only [System.abortNext] at taken
  split at taken
  · rename_i element rest phase
    have busy : (before.tx worker).phase ≠ .running := by simp [phase]
    split at taken
    · simp only [Option.ite_none_left_eq_some, Option.some.injEq] at taken
      obtain ⟨-, rfl⟩ := taken
      apply inv.txMoves_unlocked
      · exact fun inactive => absurd inactive (inv.active busy)
      · simpa [Tx.elements, phase, Phase.elements] using inv.bound worker
      · simp [Tx.locked, Phase.locked]
      · exact fun other _ => inv.lock other
      · exact fun _ => .inl
    · obtain rfl := Option.some.inj taken
      apply inv.setPhase busy
      · exact Tx.mem_elements_tail (by rw [phase]; rfl)
      · simp [phase, Phase.locked]
      · simp [Phase.commitEpoch]
  · rename_i phase
    obtain rfl := Option.some.inj taken
    apply inv.setTx_unlocked
    · intro inactive
      exact absurd inactive (inv.active (by simp [phase]))
    · simp [Tx.elements, Phase.elements]
    · simp [Tx.locked, Phase.locked]
    · exact fun _ => .inl
  · cases taken

theorem System.Inv.manage (inv : before.Inv) {label : Epoch.Label n} {heap : Heap n (Slot K)}
    (heapInv : heap.Inv) (taken : before.heap.manage label = some heap) :
    System.Inv { before with heap } := by
  obtain ⟨epochs, -, rfl⟩ := Option.map_eq_some_iff.mp taken
  exact inv.heapMoves heapInv le_rfl inv.idle fun _ _ _ _ _ active reads => ⟨active, reads⟩

end LocalSteps

section HeapSteps
variable [DecidableEq K] {before after : System n K} {worker : Fin n}

theorem System.Inv.beginStore (inv : before.Inv) {heap : Heap n (Slot K)}
    (taken : before.heap.step (.manage (.beginStore worker)) = some heap) :
    System.Inv { before with heap } := by
  have heapInv := inv.heap.step taken ⟨trivial, trivial⟩
  obtain ⟨middle, managed, rfl⟩ := Option.map_eq_some_iff.mp taken
  have inactive := inv.heap.inactive_of_beginStore managed
  have empty := inv.heap.pointers.idle worker inactive
  have new := inv.idle worker inactive
  obtain ⟨epochs, -, rfl⟩ := Option.map_eq_some_iff.mp managed
  refine inv.heapMoves heapInv le_rfl ?_ ?_
  · intro other stillInactive
    by_cases same : other = worker
    · exact same ▸ new
    · exact inv.idle other (by simpa [Pointers.enter, same] using stillInactive)
  · intro holder val _ reader s active reads
    by_cases same : reader = worker
    · -- the new transaction has read nothing
      subst same
      exfalso
      obtain peeked | ⟨object, -, slot, held⟩ := reads
      · simp [new, Tx.new] at peeked
      · simp [Pointers.Obtained, Pointers.enter, empty] at held
    · exact ⟨by simpa [Pointers.enter, same] using active, reads⟩

theorem System.Inv.find (inv : before.Inv) {slot : Slot K} {heap : Heap n (Slot K)}
    (taken : before.heap.step (.find worker slot) = some heap)
    (reading : ∀ val, slot = .record val → (before.tx worker).peeked = some val) :
    System.Inv { before with heap } := by
  have heapInv := inv.heap.step taken trivial
  simp only [Heap.step] at taken
  split at taken
  · rename_i e object active present
    obtain rfl := Option.some.inj taken
    refine inv.heapMoves heapInv le_rfl inv.idle ?_
    intro holder val _ reader s active' reads
    refine ⟨active', ?_⟩
    obtain peeked | ⟨object', present', slot', held⟩ := reads
    · exact .inl peeked
    · obtain held | ⟨rfl, isNew⟩ := Pointers.mem_hold.mp held
      · exact .inr ⟨object', present', slot', held⟩
      · -- the pointer just found: it is the record of the value that was peeked
        obtain ⟨-, rfl⟩ := Prod.mk.inj isNew
        exact .inl (reading val (inv.heap.pointers.distinct _ _ _ present present'))
  · cases taken

theorem System.Inv.unlink (inv : before.Inv) {key : K} {val tag : Nat} {heap : Heap n (Slot K)}
    (taken : before.heap.step (.unlink worker (.key key) val tag) = some heap)
    (timely : before.heap.CoveredAt val tag) : System.Inv { before with heap } := by
  have heapInv := inv.heap.step taken timely
  simp only [Heap.step, Option.ite_none_right_eq_some, Option.some.injEq] at taken
  obtain ⟨-, rfl⟩ := taken
  refine inv.heapMoves heapInv le_rfl inv.idle ?_
  intro holder val' _ reader s active reads
  refine ⟨active, ?_⟩
  obtain peeked | ⟨object, present, held⟩ := reads
  · exact .inl peeked
  · exact .inr ⟨object, (Pointers.clear_slots present).2, held⟩

theorem System.Inv.exchange (inv : before.Inv) {slot : Slot K} {tag : Nat} {fresh : Bool}
    {heap : Heap n (Slot K)}
    (taken : before.heap.step (.exchange worker slot tag fresh) = some heap)
    (timely : before.heap.Timely (.exchange worker slot tag fresh))
    (unlocked : ∀ holder val, val ∈ (before.tx holder).locked → slot ≠ .record val) :
    System.Inv { before with heap } := by
  have heapInv := inv.heap.step taken timely
  simp only [Heap.step, Option.ite_none_left_eq_some, Option.some.injEq] at taken
  obtain ⟨-, rfl⟩ := taken
  have pointers := Heap.exchange_pointers before.heap worker slot tag fresh
  cases fresh with
  | false =>
    simp only [Bool.false_eq_true, ↓reduceIte] at pointers
    refine inv.heapMoves heapInv (by simp [pointers, Pointers.clear])
      (by simpa [pointers, Pointers.clear] using inv.idle) ?_
    intro holder val locked reader s active reads
    rw [pointers] at active
    refine ⟨active, ?_⟩
    obtain peeked | ⟨object, present, held⟩ := reads
    · exact .inl peeked
    · simp only [pointers] at present held
      exact .inr ⟨object, (Pointers.clear_slots present).2, held⟩
  | true =>
    simp only [↓reduceIte] at pointers
    refine inv.heapMoves heapInv (by simp [pointers, Pointers.put])
      (by simpa [pointers, Pointers.put] using inv.idle) ?_
    intro holder val locked reader s active reads
    rw [pointers] at active
    refine ⟨active, ?_⟩
    obtain peeked | ⟨object, present, slot', held⟩ := reads
    · exact .inl peeked
    · simp only [pointers] at present held
      obtain ⟨-, old⟩ | ⟨same, -⟩ := Pointers.put_slots present
      · obtain held | ⟨-, isNew⟩ := Pointers.mem_put held
        · exact .inr ⟨object, old, slot', held⟩
        · obtain ⟨-, rfl⟩ := Prod.mk.inj isNew
          exact absurd (inv.heap.pointers.linked _ _ old).1 (lt_irrefl _)
      · exact absurd same.symm (unlocked holder val locked)

theorem System.Inv.remove (inv : before.Inv) {heap : Heap n (Slot K)}
    (taken : before.heap.step (.remove worker) = some heap) (new : before.tx worker = Tx.new) :
    System.Inv { before with heap } := by
  have heapInv := inv.heap.step taken trivial
  simp only [Heap.step, Option.map_eq_some_iff] at taken
  obtain ⟨e, -, rfl⟩ := taken
  refine inv.heapMoves heapInv le_rfl ?_ ?_
  · intro other inactive
    by_cases same : other = worker
    · exact same ▸ new
    · exact inv.idle other (by
        simpa [Heap.remove, Pointers.leave, Pointers.free, same] using inactive)
  · intro holder val _ reader s active reads
    have notSame : reader ≠ worker := by
      intro same
      simp [Heap.remove, Pointers.leave, same] at active
    refine ⟨by simpa [Heap.remove, Pointers.leave, Pointers.free, notSame] using active, ?_⟩
    obtain peeked | ⟨object, present, slot, held⟩ := reads
    · exact .inl peeked
    · refine .inr ⟨object, present, slot, ?_⟩
      simpa [Pointers.Obtained, Heap.remove, Pointers.leave, Pointers.free, notSame] using held

theorem System.Inv.peek (inv : before.Inv) {key : K} {val : Nat}
    (running : (before.tx worker).phase = .running)
    (active : before.heap.pointers.stamp worker ≠ none)
    (taken : before.peek worker key val = some after) : after.Inv := by
  simp only [System.peek, Option.ite_none_right_eq_some, Option.some.injEq] at taken
  obtain ⟨⟨-, free⟩, rfl⟩ := taken
  apply inv.setTx_unlocked
  · exact fun inactive => absurd inactive active
  · exact inv.bound worker
  · simp [Tx.locked, running, Phase.locked]
  · intro val' peeked
    simp only [Option.some.injEq] at peeked
    subst peeked
    refine .inr fun other locked => ?_
    simp [inv.lock other val locked] at free

theorem System.Inv.write (inv : before.Inv) {key : K} {val : Nat} {rwt : ReadWriteType}
    (running : (before.tx worker).phase = .running)
    (active : before.heap.pointers.stamp worker ≠ none)
    (taken : before.write worker key val rwt = some after) : after.Inv := by
  simp only [System.write, Option.ite_none_right_eq_some, Option.some.injEq] at taken
  obtain ⟨⟨found, -⟩, rfl⟩ := taken
  apply inv.setTx_unlocked
  · exact fun inactive => absurd inactive active
  · intro element member
    simp only [Tx.elements, running, Phase.elements, List.append_nil, List.mem_append,
      List.mem_singleton] at member
    obtain member | rfl := member
    · exact inv.bound worker element (List.mem_append_left _ member)
    · exact (inv.heap.pointers.held worker _ val found).1
  · simp [Tx.locked, running, Phase.locked]
  · exact fun _ => .inl

theorem System.Inv.retype (inv : before.Inv) {key : K} {rwt : ReadWriteType}
    (running : (before.tx worker).phase = .running)
    (active : before.heap.pointers.stamp worker ≠ none)
    (taken : before.retype worker key rwt = some after) : after.Inv := by
  simp only [System.retype, Option.ite_none_right_eq_some, Option.some.injEq] at taken
  obtain ⟨-, rfl⟩ := taken
  apply inv.setTx_unlocked
  · exact fun inactive => absurd inactive active
  · intro element member
    simp only [Tx.elements, running, Phase.elements, List.append_nil, List.mem_map] at member
    obtain ⟨old, member, rfl⟩ := member
    have bound := inv.bound worker old (List.mem_append_left _ member)
    split <;> exact bound
  · simp [Tx.locked, running, Phase.locked]
  · exact fun _ => .inl

theorem System.Inv.insert (inv : before.Inv) {key : K}
    (running : (before.tx worker).phase = .running)
    (active : before.heap.pointers.stamp worker ≠ none)
    (taken : before.insert worker key = some after) : after.Inv := by
  simp only [System.insert, Option.ite_none_right_eq_some, Option.map_eq_some_iff] at taken
  obtain ⟨absent, heap, moved, rfl⟩ := taken
  have timely : before.heap.Timely (.exchange worker (.key key) 0 true) := by
    intro object present
    simp [absent] at present
  have inserted := inv.exchange moved timely (by simp)
  simp only [Heap.step, Option.ite_none_left_eq_some, Option.some.injEq] at moved
  obtain ⟨-, rfl⟩ := moved
  have pointers := Heap.exchange_pointers before.heap worker (.key key) 0 true
  simp only [↓reduceIte] at pointers
  apply inserted.txMoves_unlocked
  · intro inactive
    simp only [pointers] at inactive
    exact absurd inactive active
  · intro element member
    simp only [Tx.elements, running, Phase.elements, List.append_nil, List.mem_append,
      List.mem_singleton] at member
    obtain member | rfl := member
    · exact inserted.bound worker element (List.mem_append_left _ member)
    · simp [pointers, Pointers.put]
  · simp [Tx.locked, running, Phase.locked]
  · intro other _ val locked
    have allocated : val ≠ before.heap.pointers.next := ne_of_lt (inv.locked_lt locked)
    simpa [allocated] using inv.lock other val locked
  · exact fun _ => .inl

theorem System.Inv.precommit (inv : before.Inv) {order : List (Element K)}
    (active : before.heap.pointers.stamp worker ≠ none)
    (taken : before.precommit worker order = some after) : after.Inv := by
  simp only [System.precommit, Option.ite_none_right_eq_some, Option.some.injEq,
    List.isPerm_iff] at taken
  obtain ⟨sorted, rfl⟩ := taken
  apply inv.setTx_unlocked
  · exact fun inactive => absurd inactive active
  · intro element member
    simp only [Tx.elements, Phase.elements, List.nil_append, List.mem_append, or_self] at member
    exact inv.bound worker element (List.mem_append_left _ (sorted.mem_iff.mp member))
  · simp [Tx.locked, Phase.locked]
  · exact fun _ => .inl

theorem System.Inv.writeNext (inv : before.Inv)
    (taken : before.writeNext worker = some after) : after.Inv := by
  simp only [System.writeNext] at taken
  split at taken
  · rename_i e element rest phase
    obtain ⟨heap, moved, rfl⟩ := Option.map_eq_some_iff.mp taken
    have locked : (before.tx worker).phase.locked = element :: rest := by
      simp [phase, Phase.locked]
    have own : (before.tx worker).locked = element.val :: rest.map Element.val := by
      simp [Tx.locked, locked]
    -- who has the old record has read it before the value was locked
    have timely : before.heap.Timely
        (.exchange worker (.record element.val) e !decide (element.rwt = .delete)) := by
      intro object present
      have guarded := inv.guarded worker e (by simp [phase, Phase.commitEpoch]) element.val
        (by simp [own])
      intro reader s active held
      exact guarded reader s active (.inr ⟨object, present, held⟩)
    have released : ∀ next : Phase K, next.locked = rest → next.elements ⊆ element :: rest →
        (∀ e', next.commitEpoch = some e' → e' = e) →
        System.Inv { before with
          shared :=
            { lock := Function.update before.shared.lock element.val false
              readable := Function.update before.shared.readable element.val
                !decide (element.rwt = .delete) }
          tx := Function.update before.tx worker { before.tx worker with phase := next } } := by
      intro next nextLocked bound committed
      apply inv.releases locked nextLocked (by simp [phase])
      · simpa [phase, Phase.elements] using bound
      · intro e' committing
        simp [phase, Phase.commitEpoch, committed e' committing]
    have released := released
      (if decide (element.rwt = .delete) = true then .removing e element rest else .writing e rest)
      (by split <;> rfl) (by split <;> simp [Phase.elements])
      (by split <;> simp [Phase.commitEpoch, eq_comm])
    refine released.exchange moved timely ?_
    intro holder val member
    have elsewhere : element.val ≠ val := by
      rintro rfl
      by_cases same : holder = worker
      · subst same
        simp only [Function.update_self, Tx.locked] at member
        have notAgain := (List.nodup_cons.mp (own ▸ inv.nodup holder)).1
        apply notAgain
        split at member <;> simpa [Phase.locked] using member
      · have member' : element.val ∈ (before.tx holder).locked := by simpa [same] using member
        exact same (inv.disjoint holder worker element.val member' (by simp [own]))
    simpa using elsewhere
  · cases taken

theorem System.Inv.removeNext (inv : before.Inv) (covering : before.Covering worker .removeNext)
    (taken : before.removeNext worker = some after) : after.Inv := by
  simp only [System.removeNext] at taken
  split at taken
  · rename_i e element rest phase
    obtain ⟨heap, moved, rfl⟩ := Option.map_eq_some_iff.mp taken
    simp only [System.Covering, phase] at covering
    have removed := inv.unlink moved covering
    apply removed.setPhase
    · simp [phase]
    · exact Tx.mem_elements_tail (by rw [phase]; rfl)
    · simp [phase, Phase.locked]
    · intro e' committed
      apply removed.guarded worker e'
      simpa [phase, Phase.commitEpoch] using committed
  · cases taken

theorem System.Inv.unlinkNext (inv : before.Inv) (covering : before.Covering worker .unlinkNext)
    (taken : before.unlinkNext worker = some after) : after.Inv := by
  simp only [System.unlinkNext] at taken
  split at taken
  · rename_i element rest e phase active
    obtain ⟨heap, moved, rfl⟩ := Option.map_eq_some_iff.mp taken
    simp only [System.Covering, phase, active] at covering
    have removed := inv.unlink moved covering
    apply removed.setPhase
    · simp [phase]
    · exact Tx.mem_elements_tail (by rw [phase]; rfl)
    · simp [phase, Phase.locked]
    · simp [Phase.commitEpoch]
  · cases taken

theorem System.Inv.finish (inv : before.Inv)
    (taken : before.finish worker = some after) : after.Inv := by
  have ends : ∀ heap, before.heap.step (.remove worker) = some heap →
      System.Inv (Clients.setTx { before with heap } worker Tx.new) := by
    intro heap moved
    have fresh : System.Inv (before.setTx worker Tx.new) := by
      apply inv.setTx_unlocked
      · exact fun _ => rfl
      · simp [Tx.new, Tx.elements, Phase.elements]
      · simp [Tx.new, Tx.locked, Phase.locked]
      · simp [Tx.new]
    exact fresh.remove moved (by simp [Clients.setTx])
  simp only [System.finish] at taken
  split at taken
  · obtain ⟨heap, moved, rfl⟩ := Option.map_eq_some_iff.mp taken
    exact ends heap moved
  · obtain ⟨heap, moved, rfl⟩ := Option.map_eq_some_iff.mp taken
    exact ends heap moved
  · cases taken

theorem System.Inv.manageStep (inv : before.Inv) {label : Epoch.Label n} {heap : Heap n (Slot K)}
    (regular : Epoch.Regular before.heap.epochs label)
    (moved : before.heap.step (.manage label) = some heap) : System.Inv { before with heap } := by
  have heapInv := inv.heap.step moved regular
  cases label with
  | beginLoad worker =>
    simp only [Heap.step, Option.ite_none_right_eq_some] at moved
    exact inv.manage heapInv moved.2
  | beginStore worker => exact inv.beginStore moved
  | setWorker _ | incrementLoad | sampleWorker | incrementAdd => exact inv.manage heapInv moved

theorem System.Inv.act (inv : before.Inv) {action : Action K}
    (covering : before.Covering worker action)
    (taken : before.act worker action = some after) : after.Inv := by
  cases action with
  | find key =>
    obtain ⟨-, -, taken⟩ := Clients.whenRunning_eq_some taken
    obtain ⟨heap, moved, rfl⟩ := Option.map_eq_some_iff.mp taken
    exact inv.find moved (by simp)
  | peek key val =>
    obtain ⟨running, active, taken⟩ := Clients.whenRunning_eq_some taken
    exact inv.peek (Tx.phase_of_running running) active taken
  | loadRecord =>
    obtain ⟨-, -, taken⟩ := Clients.whenRunning_eq_some taken
    obtain ⟨val, peeked, taken⟩ := Option.bind_eq_some_iff.mp taken
    obtain ⟨heap, moved, rfl⟩ := Option.map_eq_some_iff.mp taken
    apply inv.find moved
    intro val' same
    rw [peeked]
    exact congrArg some (Slot.record.inj same)
  | write key val rwt =>
    obtain ⟨running, active, taken⟩ := Clients.whenRunning_eq_some taken
    exact inv.write (Tx.phase_of_running running) active taken
  | retype key rwt =>
    obtain ⟨running, active, taken⟩ := Clients.whenRunning_eq_some taken
    exact inv.retype (Tx.phase_of_running running) active taken
  | insert key =>
    obtain ⟨running, active, taken⟩ := Clients.whenRunning_eq_some taken
    exact inv.insert (Tx.phase_of_running running) active taken
  | precommit order =>
    obtain ⟨-, active, taken⟩ := Clients.whenRunning_eq_some taken
    exact inv.precommit active taken
  | lockNext => exact inv.lockNext taken
  | loadEpoch => exact inv.loadEpoch taken
  | validate valid => exact inv.validate taken
  | writeNext => exact inv.writeNext taken
  | removeNext => exact inv.removeNext covering taken
  | unlockNext => exact inv.unlockNext taken
  | abort => exact inv.abort taken
  | abortNext => exact inv.abortNext taken
  | unlinkNext => exact inv.unlinkNext covering taken
  | finish => exact inv.finish taken

theorem System.Inv.step (inv : before.Inv) {label : Label n K} (timely : before.Timely label)
    (taken : before.step label = some after) : after.Inv := by
  cases label with
  | manage label =>
    obtain ⟨heap, moved, rfl⟩ := Option.map_eq_some_iff.mp taken
    exact inv.manageStep timely moved
  | act worker action => exact inv.act timely taken

theorem run_inv {uninitialised : Fin n → Nat} {database : Database K} {trace : List (Label n K)}
    {final : System n K}
    (run : Run System.step System.Timely (System.start uninitialised database) trace final) :
    final.Inv :=
  run.invariant System.Inv (System.Inv.start uninitialised database)
    fun _ _ _ inv => inv.step

end HeapSteps

end TpccRunner.Silo.Reclamation
