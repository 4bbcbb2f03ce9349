import TpccRunner.Utils.Schedule

/-!
# Which transactions the phases visit

`NUM_TXS_IN_ONE_EPOCH` is a build option.  The first phases of `ycsb_serval.cpp` and
`ycsb_serval_rc.cpp` give worker `w` the block that begins at `w * 64`, the execution
phases give it every 64th transaction, and both loops run over
`NUM_TXS_IN_ONE_EPOCH / 64` transactions.  The blocks fit together only when that number
is the constant 64 they are spaced by.
-/

set_option autoImplicit false

namespace TpccRunner.Utils

/-- The loops over `i` with `serial_id_ = worker_id * 64 + i` and `core_ = worker_id`. -/
def sequentialTurns (perCore : Nat) (worker : Worker) : List Turn :=
  (List.range perCore).map fun i => ⟨worker.val, worker.val * 64 + i⟩

/-- The loops over `i` with `serial_id_ = i * 64 + worker_id` and `core_ = i`. -/
def roundRobinTurns (perCore : Nat) (worker : Worker) : List Turn :=
  (List.range perCore).map fun i => ⟨i, i * 64 + worker.val⟩

inductive DriverPhase where
  /-- `do_initialization_phase` of Serval. -/
  | initialization
  /-- `do_write_phase` of Serval_RC. -/
  | write
  /-- `do_read_phase` of Serval_RC. -/
  | read
  /-- `do_execution_phase`, the same loop in both drivers. -/
  | execution
  deriving DecidableEq, Repr

namespace DriverPhase

/-- `NUM_TXS_IN_ONE_EPOCH_IN_ONE_CORE` transactions for every worker. -/
def turns (numTxs : Nat) : DriverPhase → Worker → List Turn
  | .initialization | .write | .read => sequentialTurns (numTxs / 64)
  | .execution => roundRobinTurns (numTxs / 64)

def visited (phase : DriverPhase) (numTxs : Nat) : List Turn :=
  (List.finRange 64).flatMap (phase.turns numTxs)

end DriverPhase

/-- The `(core, tx)` pair that the version arrays and bitmaps are given. -/
def Turn.pair (turn : Turn) : Nat × Nat := (turn.core, turn.serial % 64)

/-- The first phases and the execution phase each visit every transaction of the epoch
once, and they use the same pair for it. -/
structure CoversEpoch (numTxs : Nat) (first : List DriverPhase) : Prop where
  blocks : ∀ phase ∈ first, ((phase.visited numTxs).map Turn.serial).Perm (List.range numTxs)
  execution : ((DriverPhase.execution.visited numTxs).map Turn.serial).Perm (List.range numTxs)
  pairs : ∀ phase ∈ first, ∀ turn ∈ phase.visited numTxs,
    ∀ other ∈ DriverPhase.execution.visited numTxs,
      turn.serial = other.serial → turn.pair = other.pair

/-! ## Blocks and remainders -/

section Visits
variable {n : Nat} {turn : Turn}

theorem mem_visited_execution :
    turn ∈ DriverPhase.execution.visited (64 * n) ↔
      turn.serial < 64 * n ∧ turn.core = turn.serial / 64 := by
  obtain ⟨core, serial⟩ := turn
  have perCore : 64 * n / 64 = n := by omega
  simp only [DriverPhase.visited, DriverPhase.turns, roundRobinTurns, perCore, List.mem_flatMap,
    List.mem_finRange, true_and, List.mem_map, List.mem_range, Turn.mk.injEq]
  constructor
  · rintro ⟨worker, i, inside, rfl, rfl⟩
    have := worker.isLt
    omega
  · rintro ⟨inside, rfl⟩
    exact ⟨remainderOwner serial, serial / 64, by omega, rfl, by simp only [remainderOwner]; omega⟩

theorem nodup_serials {serial : Worker → Nat → Nat}
    (distinct : ∀ one two i j, i < n → j < n → serial one i = serial two j → one = two ∧ i = j) :
    ((List.finRange 64).flatMap fun worker => (List.range n).map (serial worker)).Nodup := by
  simp only [List.nodup_flatMap, ← List.mem_range] at distinct ⊢
  refine ⟨fun worker _ => List.nodup_range.map_on fun i iMem j jMem same =>
    (distinct worker worker i j iMem jMem same).2, (List.nodup_finRange 64).imp fun differs => ?_⟩
  rw [Function.onFun, List.disjoint_left]
  intro _ one two
  obtain ⟨i, iMem, rfl⟩ := List.mem_map.mp one
  obtain ⟨j, jMem, same⟩ := List.mem_map.mp two
  exact differs (distinct _ _ i j iMem jMem same.symm).1

theorem nodup_visited_execution :
    ((DriverPhase.execution.visited (64 * n)).map Turn.serial).Nodup := by
  have perCore : 64 * n / 64 = n := by omega
  simp only [DriverPhase.visited, List.map_flatMap, DriverPhase.turns, roundRobinTurns, perCore,
    List.map_map]
  refine nodup_serials fun one two i j _ _ same => ?_
  rw [Fin.ext_iff]
  simp only [Function.comp_apply] at same
  omega

theorem visited_execution_perm :
    ((DriverPhase.execution.visited (64 * n)).map Turn.serial).Perm (List.range (64 * n)) := by
  rw [List.perm_ext_iff_of_nodup nodup_visited_execution List.nodup_range]
  intro serial
  rw [List.mem_map, List.mem_range]
  constructor
  · rintro ⟨turn, member, rfl⟩
    exact (mem_visited_execution.mp member).1
  · intro inside
    exact ⟨⟨serial / 64, serial⟩, mem_visited_execution.mpr ⟨inside, rfl⟩, rfl⟩

variable {phase : DriverPhase}

theorem mem_visited_first (first : phase ≠ .execution) :
    turn ∈ phase.visited (64 * n) ↔ ∃ worker < 64, ∃ i < n, turn = ⟨worker, worker * 64 + i⟩ := by
  have perCore : 64 * n / 64 = n := by omega
  have turns : phase.turns (64 * n) = sequentialTurns n := by
    cases phase with
    | execution => exact absurd rfl first
    | initialization | write | read => rw [DriverPhase.turns, perCore]
  rw [DriverPhase.visited, turns]
  simp only [sequentialTurns, List.mem_flatMap, List.mem_finRange, true_and, List.mem_map,
    List.mem_range]
  constructor
  · rintro ⟨worker, i, inside, rfl⟩
    exact ⟨worker, worker.isLt, i, inside, rfl⟩
  · rintro ⟨worker, bound, i, inside, rfl⟩
    exact ⟨⟨worker, bound⟩, i, inside, rfl⟩

theorem nodup_visited_first (first : phase ≠ .execution) :
    ((phase.visited (64 * 64)).map Turn.serial).Nodup := by
  have turns : phase.turns (64 * 64) = sequentialTurns 64 := by
    cases phase with
    | execution => exact absurd rfl first
    | initialization | write | read => rfl
  simp only [DriverPhase.visited, List.map_flatMap, turns, sequentialTurns, List.map_map]
  refine nodup_serials fun one two i j _ _ same => ?_
  rw [Fin.ext_iff]
  simp only [Function.comp_apply] at same
  omega

theorem visited_first_perm (first : phase ≠ .execution) :
    ((phase.visited (64 * 64)).map Turn.serial).Perm (List.range (64 * 64)) := by
  rw [List.perm_ext_iff_of_nodup (nodup_visited_first first) List.nodup_range]
  intro serial
  rw [List.mem_map, List.mem_range]
  constructor
  · rintro ⟨turn, member, rfl⟩
    obtain ⟨worker, bound, i, inside, rfl⟩ := (mem_visited_first first).mp member
    show worker * 64 + i < 64 * 64
    omega
  · intro inside
    refine ⟨⟨serial / 64, serial⟩, (mem_visited_first first).mpr
      ⟨serial / 64, by omega, serial % 64, by omega, ?_⟩, rfl⟩
    rw [Turn.mk.injEq]
    omega

/-- Shorter blocks reach beyond the epoch, longer ones overlap and miss its end. -/
theorem perCore_of_perm (first : phase ≠ .execution) (positive : 1 ≤ n)
    (perm : ((phase.visited (64 * n)).map Turn.serial).Perm (List.range (64 * n))) : n = 64 := by
  have inside (serial : Nat) : serial < 64 * n ↔
      serial ∈ (phase.visited (64 * n)).map Turn.serial := by
    rw [perm.mem_iff, List.mem_range]
  have notBelow : 64 ≤ n := by
    have last := (inside (63 * 64)).mpr (List.mem_map.mpr
      ⟨⟨63, 63 * 64 + 0⟩, (mem_visited_first first).mpr ⟨63, by omega, 0, by omega, rfl⟩, rfl⟩)
    omega
  obtain ⟨turn, member, serial⟩ := List.mem_map.mp ((inside (64 * n - 1)).mp (by omega))
  obtain ⟨worker, bound, i, iBound, rfl⟩ := (mem_visited_first first).mp member
  have reached : worker * 64 + i = 64 * n - 1 := serial
  omega

theorem coversEpoch_iff {first : List DriverPhase} (positive : 1 ≤ n) (nonempty : first ≠ [])
    (firsts : ∀ phase ∈ first, phase ≠ .execution) : CoversEpoch (64 * n) first ↔ n = 64 := by
  constructor
  · intro covers
    obtain ⟨phase, member⟩ := List.exists_mem_of_ne_nil first nonempty
    exact perCore_of_perm (firsts phase member) positive (covers.blocks phase member)
  · rintro rfl
    refine ⟨fun phase member => visited_first_perm (firsts phase member), visited_execution_perm,
      ?_⟩
    intro phase member turn visited other later same
    obtain ⟨worker, bound, i, inside, rfl⟩ := (mem_visited_first (firsts phase member)).mp visited
    obtain ⟨-, core⟩ := mem_visited_execution.mp later
    have serial : worker * 64 + i = other.serial := same
    simp only [Turn.pair, core, ← serial, Prod.mk.injEq, and_true]
    omega

end Visits

/-- The phases of Serval and those of Serval_RC cover an epoch of `64 * n` transactions in
exactly one configuration, the default one. -/
theorem phases_cover_epoch_iff (n : Nat) (positive : 1 ≤ n) :
    (CoversEpoch (64 * n) [.initialization] ↔ n = 64) ∧
      (CoversEpoch (64 * n) [.write, .read] ↔ n = 64) := by
  constructor
  · exact coversEpoch_iff positive (by decide) (by decide)
  · exact coversEpoch_iff positive (by decide) (by decide)

theorem phases_cover_default_epoch :
    1 ≤ 64 ∧ CoversEpoch (64 * 64) [.initialization] ∧ CoversEpoch (64 * 64) [.write, .read] := by
  obtain ⟨serval, servalRc⟩ := phases_cover_epoch_iff 64 (by decide)
  exact ⟨by decide, serval.mpr rfl, servalRc.mpr rfl⟩

/-- With 64 transactions in an epoch the first phase of Serval goes to transaction 64 of the
next epoch instead of transaction 1. -/
theorem smallest_epoch_not_covered :
    (⟨1, 64⟩ : Turn) ∈ DriverPhase.initialization.visited 64 ∧
      (∀ turn ∈ DriverPhase.initialization.visited 64, turn.serial ≠ 1) ∧
      ¬ CoversEpoch 64 [.initialization] ∧ ¬ CoversEpoch 64 [.write, .read] := by
  refine ⟨by decide, by decide, fun covers => ?_, fun covers => ?_⟩
  · have perm := covers.blocks .initialization (by decide)
    exact absurd (perCore_of_perm (by decide) le_rfl perm) (by decide)
  · have perm := covers.blocks .write (by decide)
    exact absurd (perCore_of_perm (by decide) le_rfl perm) (by decide)

end TpccRunner.Utils
