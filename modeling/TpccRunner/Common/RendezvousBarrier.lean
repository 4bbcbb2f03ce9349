import TpccRunner.Lib.StepSystem

/-!
# The rendezvous barrier

`protocols/ycsb_common/rendezvous_barrier.hpp`.  One parent and `n` children pass the same
sequence of barriers.  A child decrements `ready_` and spins until the parent announces the
type of the barrier in `start_`; the parent spins until `ready_` is no longer positive, sets
it back to `n` and announces the type.  Both words serve all barriers, so a child may be at
the next barrier while another one still spins at this one.

The round a thread is in is measured by what the others can see of it: how often a child
has decremented `ready_` (`sent`), how often the parent has set it back (`resets`).
-/

set_option autoImplicit false

namespace TpccRunner.Rendezvous

open Lib

variable {n : Nat}

inductive BarrierType where
  | beforeExp
  | exp
  | initPhase
  | execPhase
  | newEpoc
  | size
  deriving DecidableEq

inductive ParentPc where
  | outside
  | waitReady
  /-- `initialize()` -/
  | reset
  | sendStart
  deriving DecidableEq

inductive ChildPc where
  | outside
  | sendReady
  | waitStart
  deriving DecidableEq

/-- `left` counts the barriers that the thread has left. -/
structure Parent where
  left : Nat
  pc : ParentPc
  deriving DecidableEq

structure Child where
  left : Nat
  pc : ChildPc
  deriving DecidableEq

structure State (n : Nat) where
  start : BarrierType
  ready : Int
  parent : Parent
  child : Fin n → Child

def start : State n where
  start := .beforeExp
  ready := n
  parent := ⟨0, .outside⟩
  child _ := ⟨0, .outside⟩

inductive Thread (n : Nat) where
  | parent
  | child (worker : Fin n)
  deriving DecidableEq

def State.left (state : State n) : Thread n → Nat
  | .parent => state.parent.left
  | .child worker => (state.child worker).left

def State.entered (state : State n) : Thread n → Nat
  | .parent => state.parent.left + if state.parent.pc = .outside then 0 else 1
  | .child worker =>
    (state.child worker).left + if (state.child worker).pc = .outside then 0 else 1

def State.setChild (state : State n) (worker : Fin n) (child : Child) : State n :=
  { state with child := Function.update state.child worker child }

section Steps
variable (types : List BarrierType)

def stepParent (state : State n) : Option (State n) :=
  match types[state.parent.left]? with
  | none => none
  | some type =>
    match state.parent.pc with
    | .outside => some { state with parent.pc := .waitReady }
    | .waitReady =>
      if 0 < state.ready then some state
      else some { state with parent.pc := .reset }
    | .reset => some { state with ready := n, parent.pc := .sendStart }
    | .sendStart =>
      some { state with start := type, parent := ⟨state.parent.left + 1, .outside⟩ }

def stepChild (state : State n) (worker : Fin n) : Option (State n) :=
  let child := state.child worker
  match types[child.left]? with
  | none => none
  | some type =>
    match child.pc with
    | .outside => some (state.setChild worker ⟨child.left, .sendReady⟩)
    | .sendReady =>
      some { state.setChild worker ⟨child.left, .waitStart⟩ with ready := state.ready - 1 }
    | .waitStart =>
      if state.start ≠ type then some state
      else some (state.setChild worker ⟨child.left + 1, .outside⟩)

/-- The next atomic step of a thread; a thread that has left its last barrier has none. -/
def step (state : State n) : Thread n → Option (State n)
  | .parent => stepParent types state
  | .child worker => stepChild types state worker

/-- The thread spins: its loop condition holds. -/
def State.Blocked (state : State n) : Thread n → Prop
  | .parent => state.parent.pc = .waitReady ∧ 0 < state.ready
  | .child worker =>
    (state.child worker).pc = .waitStart ∧ types[(state.child worker).left]? ≠ some state.start

end Steps

def Child.sent (child : Child) : Nat :=
  match child.pc with
  | .outside | .sendReady => child.left
  | .waitStart => child.left + 1

def Parent.resets (parent : Parent) : Nat :=
  match parent.pc with
  | .outside | .waitReady | .reset => parent.left
  | .sendStart => parent.left + 1

/-- The children that have not decremented `ready_` since it was set back. -/
def State.unready (state : State n) : Finset (Fin n) :=
  Finset.univ.filter fun worker => (state.child worker).sent = state.parent.resets

theorem mem_unready {state : State n} {worker : Fin n} :
    worker ∈ state.unready ↔ (state.child worker).sent = state.parent.resets := by
  simp [State.unready]

theorem unready_congr (state state' : State n)
    (sent : ∀ worker, (state'.child worker).sent = (state.child worker).sent)
    (resets : state'.parent.resets = state.parent.resets) : state'.unready = state.unready := by
  ext worker
  rw [mem_unready, mem_unready, sent, resets]

structure Inv (types : List BarrierType) (state : State n) : Prop where
  announced : (.beforeExp :: types)[state.parent.left]? = some state.start
  behind : ∀ worker, (state.child worker).left ≤ state.parent.left
  sent : ∀ worker, state.parent.resets ≤ (state.child worker).sent
  ready : state.ready = state.unready.card
  all : state.parent.pc = .reset ∨ state.parent.pc = .sendStart →
    ∀ worker, (state.child worker).sent = state.parent.left + 1

theorem Inv.start (types : List BarrierType) : Inv types (start : State n) where
  announced := rfl
  behind _ := le_rfl
  sent _ := le_rfl
  ready := by simp [Rendezvous.start, State.unready, Child.sent, Parent.resets]
  all := by simp [Rendezvous.start]

section Preservation
variable {types : List BarrierType} {before after : State n}

theorem Child.sent_le (child : Child) : child.sent ≤ child.left + 1 := by
  unfold Child.sent
  split <;> omega

theorem Parent.left_le_resets (parent : Parent) : parent.left ≤ parent.resets := by
  unfold Parent.resets
  split <;> omega

theorem State.sent_le_entered (state : State n) (worker : Fin n) :
    (state.child worker).sent ≤ state.entered (.child worker) := by
  unfold State.entered Child.sent
  cases pc : (state.child worker).pc <;> simp [pc]

theorem Inv.setParent {parent : Parent} {type : BarrierType} (inv : Inv types before)
    (later : before.parent.left ≤ parent.left) (same : parent.resets = before.parent.resets)
    (announced : (.beforeExp :: types)[parent.left]? = some type)
    (all : parent.pc = .reset ∨ parent.pc = .sendStart →
      ∀ worker, (before.child worker).sent = parent.left + 1) :
    Inv types { before with start := type, parent } where
  announced := announced
  behind worker := (inv.behind worker).trans later
  sent worker := same ▸ inv.sent worker
  ready := by
    have unready := unready_congr before { before with start := type, parent } (fun _ => rfl) same
    rw [unready]
    exact inv.ready
  all := all

theorem Inv.stepParent (inv : Inv types before) (taken : stepParent types before = some after) :
    Inv types after := by
  unfold Rendezvous.stepParent at taken
  split at taken
  · cases taken
  · rename_i type current
    cases pc : before.parent.pc with
    | outside =>
      simp only [pc, Option.some.injEq] at taken
      subst taken
      exact inv.setParent le_rfl (by simp [Parent.resets, pc]) inv.announced (by simp)
    | waitReady =>
      simp only [pc] at taken
      split at taken
      · obtain rfl := Option.some.inj taken
        exact inv
      · rename_i none
        obtain rfl := Option.some.inj taken
        have resets : before.parent.resets = before.parent.left := by simp [Parent.resets, pc]
        refine inv.setParent le_rfl (by simp [Parent.resets, pc]) inv.announced ?_
        -- nobody is missing, and nobody can be further than one round ahead
        intro _ worker
        have empty : before.unready = ∅ := by
          have := inv.ready
          exact Finset.card_eq_zero.mp (by omega)
        have present : worker ∉ before.unready := by simp [empty]
        rw [mem_unready, resets] at present
        have := inv.sent worker
        have := inv.behind worker
        have := (before.child worker).sent_le
        dsimp only
        omega
    | reset =>
      simp only [pc, Option.some.injEq] at taken
      subst taken
      have sent := inv.all (.inl pc)
      exact
        { announced := inv.announced
          behind := inv.behind
          sent := fun worker => (sent worker).ge
          ready := by simp [State.unready, Parent.resets, sent]
          all := fun _ => sent }
    | sendStart =>
      simp only [pc, Option.some.injEq] at taken
      subst taken
      exact inv.setParent (Nat.le_succ _) (by simp [Parent.resets, pc])
        (by simpa using current) (by simp)

theorem Inv.setChild {worker : Fin n} {child : Child} (inv : Inv types before)
    (behind : child.left ≤ before.parent.left) (same : child.sent = (before.child worker).sent) :
    Inv types (before.setChild worker child) := by
  have sents : ∀ other, ((before.setChild worker child).child other).sent =
      (before.child other).sent := by
    intro other
    by_cases self : other = worker
    · subst self
      simpa [State.setChild] using same
    · simp [State.setChild, self]
  refine ⟨inv.announced, fun other => ?_, fun other => ?_, ?_, fun pc other => ?_⟩
  · by_cases self : other = worker
    · subst self
      simpa [State.setChild] using behind
    · simpa [State.setChild, self] using inv.behind other
  · rw [sents]
    exact inv.sent other
  · rw [unready_congr before _ sents rfl]
    exact inv.ready
  · rw [sents]
    exact inv.all pc other

/-- A child is at the barrier that the parent has not announced, or has just announced. -/
theorem Inv.round (inv : Inv types before) {worker : Fin n}
    (waiting : (before.child worker).pc = .waitStart) :
    (before.child worker).left = before.parent.left ∨
      (before.child worker).left + 1 = before.parent.left := by
  have sent := inv.sent worker
  have resets := before.parent.left_le_resets
  have behind := inv.behind worker
  have : (before.child worker).sent = (before.child worker).left + 1 := by
    simp [Child.sent, waiting]
  omega

variable (distinct : List.IsChain (· ≠ ·) (.beforeExp :: types))

include distinct in
theorem Inv.start_ne (inv : Inv types before) :
    types[before.parent.left]? ≠ some before.start := by
  intro next
  have current := inv.announced
  obtain ⟨short, here⟩ := List.getElem?_eq_some_iff.mp current
  obtain ⟨short', there⟩ := List.getElem?_eq_some_iff.mp next
  have different := List.isChain_iff_getElem.mp distinct before.parent.left
    (by simpa using short')
  simp only [List.getElem_cons_succ] at different
  exact different (here.trans there.symm)

include distinct in
theorem Inv.stepChild {worker : Fin n} (inv : Inv types before)
    (taken : stepChild types before worker = some after) : Inv types after := by
  unfold Rendezvous.stepChild at taken
  dsimp only at taken
  split at taken
  · cases taken
  · rename_i type current
    cases pc : (before.child worker).pc with
    | outside =>
      simp only [pc, Option.some.injEq] at taken
      subst taken
      exact inv.setChild (inv.behind worker) (by simp [Child.sent, pc])
    | sendReady =>
      simp only [pc, Option.some.injEq] at taken
      subst taken
      have sentBefore : (before.child worker).sent = (before.child worker).left := by
        simp [Child.sent, pc]
      have resets : before.parent.resets = (before.child worker).left := by
        have := inv.sent worker
        have := inv.behind worker
        have := before.parent.left_le_resets
        omega
      have here : worker ∈ before.unready := mem_unready.mpr (sentBefore.trans resets.symm)
      have unready : (before.setChild worker ⟨(before.child worker).left, .waitStart⟩).unready =
          before.unready.erase worker := by
        ext other
        rw [Finset.mem_erase, mem_unready, mem_unready]
        by_cases self : other = worker
        · subst self
          simp [State.setChild, Child.sent, resets]
        · simp [State.setChild, self]
      refine ⟨inv.announced, fun other => ?_, fun other => ?_, ?_, fun all other => ?_⟩
      · by_cases self : other = worker
        · subst self
          simpa [State.setChild] using inv.behind other
        · simpa [State.setChild, self] using inv.behind other
      · by_cases self : other = worker
        · subst self
          simp [State.setChild, Child.sent, resets]
        · simpa [State.setChild, self] using inv.sent other
      · change before.ready - 1 =
          (before.setChild worker ⟨(before.child worker).left, .waitStart⟩).unready.card
        rw [unready, Finset.card_erase_of_mem here, inv.ready]
        have := Finset.card_pos.mpr ⟨worker, here⟩
        omega
      · -- everybody had decremented already
        have := inv.all all worker
        have := inv.behind worker
        omega
    | waitStart =>
      simp only [pc] at taken
      split at taken
      · obtain rfl := Option.some.inj taken
        exact inv
      · rename_i same
        obtain rfl := Option.some.inj taken
        have same : before.start = type := not_not.mp same
        have behind : (before.child worker).left + 1 ≤ before.parent.left := by
          obtain equal | before' := inv.round pc
          · rw [equal, ← same] at current
            exact absurd current (inv.start_ne distinct)
          · omega
        exact inv.setChild behind (by simp [Child.sent, pc])

include distinct in
theorem Inv.step {thread : Thread n} (inv : Inv types before)
    (taken : step types before thread = some after) : Inv types after := by
  cases thread with
  | parent => exact inv.stepParent taken
  | child worker => exact inv.stepChild distinct taken

include distinct in
theorem run_inv {trace : List (Thread n)}
    (run : Run (step types) always Rendezvous.start trace after) : Inv types after :=
  run.invariant (Inv types) (Inv.start types) fun _ _ _ inv _ taken => inv.step distinct taken

end Preservation

section Consequences
variable {types : List BarrierType} {state : State n}

/-- No thread has left more barriers than another has entered. -/
theorem Inv.left_le_entered (inv : Inv types state) (thread other : Thread n) :
    state.left thread ≤ state.entered other := by
  have parent : state.left thread ≤ state.parent.left := by
    cases thread with
    | parent => exact le_rfl
    | child worker => exact inv.behind worker
  have entered : state.parent.left ≤ state.entered other := by
    cases other with
    | parent => exact Nat.le_add_right _ _
    | child worker =>
      calc
        state.parent.left ≤ state.parent.resets := state.parent.left_le_resets
        _ ≤ (state.child worker).sent := inv.sent worker
        _ ≤ state.entered (.child worker) := state.sent_le_entered worker
  exact parent.trans entered

theorem Inv.ready_bounds (inv : Inv types state) : 0 ≤ state.ready ∧ state.ready ≤ n := by
  rw [inv.ready]
  refine ⟨Int.natCast_nonneg _, ?_⟩
  have := Finset.card_le_univ state.unready
  rw [Fintype.card_fin] at this
  exact_mod_cast this

theorem Inv.not_blocked_of_behind (inv : Inv types state) {worker : Fin n}
    (behind : (state.child worker).left + 1 = state.parent.left) :
    ¬ state.Blocked types (.child worker) := by
  rintro ⟨-, different⟩
  apply different
  have announced := inv.announced
  rw [← behind] at announced
  simpa using announced

/-- Some thread that has not left its last barrier can go on. -/
theorem Inv.progress (inv : Inv types state) {unfinished : Thread n}
    (more : state.left unfinished < types.length) :
    ∃ thread, state.left thread < types.length ∧ ¬ state.Blocked types thread := by
  by_cases finished : types.length ≤ state.parent.left
  · -- the parent is done: the last type stays announced
    cases unfinished with
    | parent => exact absurd more (Nat.not_lt.mpr finished)
    | child worker =>
      refine ⟨.child worker, more, inv.not_blocked_of_behind ?_⟩
      have := inv.sent worker
      have := state.parent.left_le_resets
      have := (state.child worker).sent_le
      have : (state.child worker).left < types.length := more
      have := inv.behind worker
      omega
  · by_cases blocked : state.Blocked types .parent
    · -- somebody has not decremented yet
      obtain ⟨waiting, positive⟩ := blocked
      have resets : state.parent.resets = state.parent.left := by simp [Parent.resets, waiting]
      rw [inv.ready] at positive
      obtain ⟨worker, missing⟩ := Finset.card_pos.mp (by exact_mod_cast positive)
      have sent : (state.child worker).sent = state.parent.left := by
        rw [mem_unready, resets] at missing
        exact missing
      have behind := inv.behind worker
      refine ⟨.child worker, ?_, ?_⟩
      · change (state.child worker).left < types.length
        omega
      · by_cases spins : (state.child worker).pc = .waitStart
        · apply inv.not_blocked_of_behind
          rw [← sent]
          simp [Child.sent, spins]
        · exact fun ⟨atWait, _⟩ => spins atWait
    · exact ⟨.parent, Nat.not_le.mp finished, blocked⟩

end Consequences

theorem rendezvousBarrier_correct (types : List BarrierType)
    (distinct : List.IsChain (· ≠ ·) (.beforeExp :: types)) (trace : List (Thread n))
    (state : State n) (run : Run (step types) always start trace state) :
    (∀ thread other k, k ≤ state.left thread → k ≤ state.entered other) ∧
      (0 ≤ state.ready ∧ state.ready ≤ n) ∧
      ((∃ thread, state.left thread < types.length) →
        ∃ thread, state.left thread < types.length ∧ ¬ state.Blocked types thread) := by
  have inv := run_inv distinct run
  refine ⟨fun thread other k left => ?_, inv.ready_bounds, ?_⟩
  · exact left.trans (inv.left_le_entered thread other)
  · rintro ⟨thread, more⟩
    exact inv.progress more

/-- Two children and the barriers of one epoch: the first child is already at the second
barrier while the other one still spins at the first. -/
theorem twoChildren_correct :
    ∃ state : State 2, (state.left (.child 0) = 1 ∧ state.entered (.child 0) = 2 ∧
        state.left (.child 1) = 0) ∧
      (0 ≤ state.ready ∧ state.ready ≤ 2) ∧
      ∃ thread, state.left thread < 4 ∧
        ¬ state.Blocked [.exp, .initPhase, .execPhase, .newEpoc] thread := by
  have reached : (exec (step [.exp, .initPhase, .execPhase, .newEpoc]) (start : State 2)
      [.child 0, .child 1, .child 0, .parent, .child 1, .parent, .parent, .parent, .child 0,
        .child 0, .child 0]).map
      (fun state => (state.left (.child 0), state.entered (.child 0), state.left (.child 1))) =
        some (1, 2, 0) := by
    decide +kernel
  obtain ⟨state, success, seen⟩ := Option.map_eq_some_iff.mp reached
  obtain ⟨left, seen⟩ := Prod.mk.inj seen
  obtain ⟨entered, other⟩ := Prod.mk.inj seen
  obtain ⟨-, bounds, progress⟩ := rendezvousBarrier_correct
    [.exp, .initPhase, .execPhase, .newEpoc] (by decide) _ state (Run.of_exec success)
  exact ⟨state, ⟨left, entered, other⟩, bounds, progress ⟨.child 1, by simp [other]⟩⟩

end TpccRunner.Rendezvous
