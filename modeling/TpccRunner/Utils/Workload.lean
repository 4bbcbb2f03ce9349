import TpccRunner.Lib.Ranked
import TpccRunner.Lib.Worklist
import TpccRunner.Utils.Schedule
import TpccRunner.Utils.Version

/-!
# Workloads of the deterministic protocols

An epoch runs 4096 transactions, each with a list of reads and updates known in
advance.  The serial order is the order of epochs and serial ids, and a read
should return the version of the greatest writer before it.
-/

set_option autoImplicit false

namespace TpccRunner.Utils

open TpccRunner.Lib

inductive Ope where
  | read
  | update
  deriving DecidableEq, Repr

structure Operation where
  ope : Ope
  key : Nat
  deriving DecidableEq, Repr

/-- The transactions of an epoch, by their serial ids. -/
structure Transactions where
  rwSet : Nat → List Operation
  distinctKeys : ∀ serial, ((rwSet serial).map Operation.key).Nodup

abbrev Workload := Nat → Transactions

def Workload.rwSet (load : Workload) (epoch serial : Nat) : List Operation :=
  (load epoch).rwSet serial

inductive Phase where
  | init
  | exec
  deriving DecidableEq, Repr

theorem Workload.nodup_rwSet (load : Workload) (epoch serial : Nat) :
    (load.rwSet epoch serial).Nodup := List.Nodup.of_map _ ((load epoch).distinctKeys serial)

/-- `NUM_REGIONS`: the row regions or row buffers a controller can hand out. -/
def numRegions : Nat := 10000

structure ReadEvent where
  epoch : Nat
  serial : Nat
  key : Nat
  record : Option Record
  deriving DecidableEq, Repr

/-! ## What a read should return -/

def Workload.writers (load : Workload) (key epoch : Nat) : Set Nat :=
  {serial | serial < 4096 ∧ ⟨.update, key⟩ ∈ load.rwSet epoch serial}

def Workload.allWriters (load : Workload) (key : Nat) : Set (Nat ×ₗ Nat) :=
  {at' | 1 ≤ (ofLex at').1 ∧ (ofLex at').2 ∈ load.writers key (ofLex at').1}

def recordOf : Option (Nat ×ₗ Nat) → Record
  | some at' => .written (ofLex at').1 (ofLex at').2
  | none => .loaded

/-- The read returned the version of the greatest writer before it. -/
def ReadEvent.Correct (load : Workload) (event : ReadEvent) : Prop :=
  ∃ found, GreatestBelow (load.allWriters event.key) (toLex (event.epoch, event.serial)) found ∧
    event.record = some (recordOf found)

/-! ## Worklists of a phase -/

section Worklists
variable {load : Workload} {epoch key serial : Nat} {worker : Worker} {item : Item Operation}
  {assignment : Worker → List Turn} {owner : Nat → Worker}

def Workload.operations (load : Workload) (assignment : Worker → List Turn) (epoch : Nat)
    (worker : Worker) : List (Item Operation) :=
  perTransaction (load.rwSet epoch) (assignment worker)

def Workload.updates (load : Workload) (assignment : Worker → List Turn) (epoch : Nat)
    (worker : Worker) : List (Item Operation) :=
  (load.operations assignment epoch worker).filter (·.op.ope = .update)

theorem mem_operations (assigns : Assigns assignment owner) :
    item ∈ load.operations assignment epoch worker ↔ item.turn.serial < 4096 ∧
      item = itemOf item.turn.serial item.op ∧ owner item.turn.serial = worker ∧
      item.op ∈ load.rwSet epoch item.turn.serial :=
  mem_assigned assigns

theorem mem_updates (assigns : Assigns assignment owner) :
    item ∈ load.updates assignment epoch worker ↔ item.turn.serial < 4096 ∧
      item = itemOf item.turn.serial item.op ∧ owner item.turn.serial = worker ∧
      item.op ∈ load.rwSet epoch item.turn.serial ∧ item.op.ope = .update := by
  rw [Workload.updates, List.mem_filter, mem_operations assigns]
  simp only [decide_eq_true_eq]
  tauto

theorem proper_operations (assigns : Assigns assignment owner) (load : Workload) (epoch : Nat) :
    Worklist.Proper (fun item => owner item.turn.serial) (load.operations assignment epoch) :=
  ⟨fun _ _ member => ((mem_operations assigns).mp member).2.2.1,
    fun worker => nodup_perTransaction (assigns.nodup worker) (load.nodup_rwSet epoch)⟩

theorem proper_updates (assigns : Assigns assignment owner) (load : Workload) (epoch : Nat) :
    Worklist.Proper (fun item => owner item.turn.serial) (load.updates assignment epoch) :=
  ⟨fun _ _ member => ((mem_updates assigns).mp member).2.2.1,
    fun worker => ((proper_operations assigns load epoch).nodup worker).filter _⟩

theorem operations_ascending (assigns : Assigns assignment owner) (load : Workload) (epoch : Nat)
    (worker : Worker) :
    (load.operations assignment epoch worker).Pairwise fun a b => a.turn.serial ≤ b.turn.serial :=
  perTransaction_ascending (assigns.ascending worker)

theorem updates_ascending (assigns : Assigns assignment owner) (load : Workload) (epoch : Nat)
    (worker : Worker) :
    (load.updates assignment epoch worker).Pairwise fun a b => a.turn.serial ≤ b.turn.serial :=
  (operations_ascending assigns load epoch worker).filter _

theorem remains_operations (assigns : Assigns assignment owner)
    (writer : serial ∈ load.writers key epoch) :
    Worklist.Remains (load.operations assignment epoch) (itemOf serial ⟨.update, key⟩) :=
  ⟨owner serial, (mem_operations assigns).mpr ⟨writer.1, rfl, rfl, writer.2⟩⟩

theorem remains_updates (assigns : Assigns assignment owner)
    (writer : serial ∈ load.writers key epoch) :
    Worklist.Remains (load.updates assignment epoch) (itemOf serial ⟨.update, key⟩) :=
  ⟨owner serial, (mem_updates assigns).mpr ⟨writer.1, rfl, rfl, writer.2, rfl⟩⟩

end Worklists

/-! ## Final states of epochs -/

section Order
variable {load : Workload} {key : Nat}

def FinalBefore (load : Workload) (key epoch : Nat) (record : Record) : Prop :=
  ∃ found, GreatestBelow (load.allWriters key) (toLex (epoch, 0)) found ∧ record = recordOf found

theorem lex_lt {a b c d : Nat} : (toLex (a, b) : Nat ×ₗ Nat) < toLex (c, d) ↔
    a < c ∨ a = c ∧ b < d := Prod.Lex.toLex_lt_toLex

theorem lex_le {a b c d : Nat} : (toLex (a, b) : Nat ×ₗ Nat) ≤ toLex (c, d) ↔
    a < c ∨ a = c ∧ b ≤ d := Prod.Lex.toLex_le_toLex

theorem mem_allWriters {epoch serial : Nat} :
    (toLex (epoch, serial) : Nat ×ₗ Nat) ∈ load.allWriters key ↔
      1 ≤ epoch ∧ serial ∈ load.writers key epoch := Iff.rfl

theorem writers_finite (load : Workload) (key epoch : Nat) : (load.writers key epoch).Finite :=
  (Set.finite_Iio 4096).subset fun _ member => member.1

theorem exists_last_writer {epoch : Nat} (written : (load.writers key epoch).Nonempty) :
    ∃ last, IsGreatest (load.writers key epoch) last := by
  obtain ⟨last, member, upper⟩ :=
    Set.exists_max_image _ id (writers_finite load key epoch) written
  exact ⟨last, member, upper⟩

theorem greatest_of_last {epoch last later serial : Nat} (positive : 1 ≤ epoch)
    (isLast : IsGreatest (load.writers key epoch) last) (before : epoch < later)
    (quiet : ∀ between, epoch < between → between < later → load.writers key between = ∅)
    (noneSmaller : ∀ other ∈ load.writers key later, serial ≤ other) :
    GreatestBelow (load.allWriters key) (toLex (later, serial)) (some (toLex (epoch, last))) := by
  refine ⟨⟨mem_allWriters.mpr ⟨positive, isLast.1⟩, lex_lt.mpr (.inl before)⟩, ?_⟩
  rintro other ⟨member, below⟩
  obtain ⟨⟨otherEpoch, otherSerial⟩, rfl⟩ := toLex.surjective other
  obtain ⟨-, writer⟩ := mem_allWriters.mp member
  rw [lex_le]
  rcases lex_lt.mp below with earlier | ⟨same, smaller⟩
  · rcases lt_trichotomy otherEpoch epoch with less | same | more
    · exact .inl less
    · subst same
      exact .inr ⟨rfl, isLast.2 writer⟩
    · rw [quiet otherEpoch more earlier] at writer
      exact absurd writer (Set.notMem_empty _)
  · subst same
    exact absurd (noneSmaller otherSerial writer) (by omega)

theorem none_of_unwritten {later serial : Nat}
    (quiet : ∀ between, 1 ≤ between → between < later → load.writers key between = ∅)
    (noneSmaller : ∀ other ∈ load.writers key later, serial ≤ other) :
    GreatestBelow (load.allWriters key) (toLex (later, serial)) none := by
  intro other member
  obtain ⟨⟨otherEpoch, otherSerial⟩, rfl⟩ := toLex.surjective other
  obtain ⟨positive, writer⟩ := mem_allWriters.mp member
  by_contra below
  rcases lex_lt.mp (not_le.mp below) with earlier | ⟨same, smaller⟩
  · rw [quiet otherEpoch positive earlier] at writer
    exact absurd writer (Set.notMem_empty _)
  · subst same
    exact absurd (noneSmaller otherSerial writer) (by omega)

theorem greatestBelow_of_finalBefore {epoch serial : Nat} {found : Option (Nat ×ₗ Nat)}
    (before : GreatestBelow (load.allWriters key) (toLex (epoch, 0)) found)
    (noneSmaller : GreatestBelow (load.writers key epoch) serial none) :
    GreatestBelow (load.allWriters key) (toLex (epoch, serial)) found := by
  have same (other : Nat ×ₗ Nat) (member : other ∈ load.allWriters key) :
      other < toLex (epoch, serial) ↔ other < toLex (epoch, 0) := by
    obtain ⟨⟨otherEpoch, otherSerial⟩, rfl⟩ := toLex.surjective other
    obtain ⟨-, writer⟩ := mem_allWriters.mp member
    rw [lex_lt, lex_lt]
    constructor
    · rintro (less | ⟨rfl, smaller⟩)
      · exact .inl less
      · exact absurd (noneSmaller otherSerial writer) (by omega)
    · rintro (less | ⟨rfl, impossible⟩)
      · exact .inl less
      · omega
  cases found with
  | none =>
    intro other member
    by_contra below
    exact absurd (before other member) (not_le.mpr ((same other member).mp (not_le.mp below)))
  | some last =>
    obtain ⟨⟨member, below⟩, upper⟩ := before
    exact ⟨⟨member, (same last member).mpr below⟩,
      fun other bounded => upper ⟨bounded.1, (same other bounded.1).mp bounded.2⟩⟩

theorem greatestBelow_of_writer {epoch serial writer : Nat} (positive : 1 ≤ epoch)
    (greatest : GreatestBelow (load.writers key epoch) serial (some writer)) :
    GreatestBelow (load.allWriters key) (toLex (epoch, serial)) (some (toLex (epoch, writer))) := by
  obtain ⟨⟨isWriter, below⟩, upper⟩ := greatest
  refine ⟨⟨mem_allWriters.mpr ⟨positive, isWriter⟩, lex_lt.mpr (.inr ⟨rfl, below⟩)⟩, ?_⟩
  rintro other ⟨member, otherBelow⟩
  obtain ⟨⟨otherEpoch, otherSerial⟩, rfl⟩ := toLex.surjective other
  obtain ⟨-, otherWriter⟩ := mem_allWriters.mp member
  rw [lex_le]
  rcases lex_lt.mp otherBelow with less | ⟨rfl, smaller⟩
  · exact .inl less
  · exact .inr ⟨rfl, upper ⟨otherWriter, smaller⟩⟩

theorem FinalBefore.ne_written {key epoch serial : Nat} {record : Record}
    (final : FinalBefore load key epoch record) : record ≠ .written epoch serial := by
  obtain ⟨found, greatest, rfl⟩ := final
  cases found with
  | none => simp [recordOf]
  | some last =>
    obtain ⟨⟨lastEpoch, lastSerial⟩, rfl⟩ := toLex.surjective last
    have below := lex_lt.mp greatest.1.2
    simp only [recordOf, ofLex_toLex, ne_eq, Record.written.injEq, not_and]
    omega

theorem FinalBefore.loaded_of_zero {key : Nat} {record : Record}
    (final : FinalBefore load key 0 record) : record = .loaded := by
  obtain ⟨found, greatest, rfl⟩ := final
  cases found with
  | none => rfl
  | some last =>
    obtain ⟨⟨lastEpoch, lastSerial⟩, rfl⟩ := toLex.surjective last
    have below := lex_lt.mp greatest.1.2
    omega

end Order

end TpccRunner.Utils
