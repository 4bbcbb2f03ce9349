import TpccRunner.Caracal.ArrayInvariant

/-!
# The invariant of one row of Caracal

A version that has been made is in the array or in the buffer of the core that
made it, its content is what its writer stores, and no two versions share a
pointer.  The lemmas cover every access that changes a row and the two barriers.
-/

set_option autoImplicit false

namespace TpccRunner.Caracal

open TpccRunner.Utils TpccRunner.Lib
open SortedVector (Ascending insertUpper)

section Invariant
variable (load : Workload) (key epoch : Nat) (phase : Phase)
  (pending : Nat → Nat → Option Nat) (left : Nat → Prop)

def pointerOf (at' : Nat ×ₗ Nat) : Nat :=
  if (ofLex at').1 = 0 then 0 else (pending (ofLex at').1 (ofLex at').2).getD 0

/-- The versions that exist: all of the epochs so far, less those of transactions
that have yet to append. -/
def Made : Set (Nat ×ₗ Nat) :=
  {at' ∈ allVersions load key | at' < toLex (epoch + 1, 0) ∧
    ∀ serial, at' = toLex (epoch, serial) → phase = .init → ¬ left serial}

structure VersionOk (heap : Heap) (at' : Nat ×ₗ Nat) : Prop where
  known : 1 ≤ (ofLex at').1 →
    pending (ofLex at').1 (ofLex at').2 = some (pointerOf pending at')
  bounded : pointerOf pending at' < heap.next
  written : (heap.versions (pointerOf pending at')).status = .stable →
    (heap.versions (pointerOf pending at')).record = some (contentOf at')
  finished : (∀ serial, at' = toLex (epoch, serial) → phase = .exec ∧ ¬ left serial) →
    (heap.versions (pointerOf pending at')).status = .stable

structure VersionsOk (heap : Heap) : Prop where
  version : ∀ at' ∈ Made load key epoch phase left, VersionOk epoch phase pending left heap at'
  distinct : ∀ one ∈ Made load key epoch phase left, ∀ two ∈ Made load key epoch phase left,
    pointerOf pending one = pointerOf pending two → one = two
  unmade : ∀ later serial, epoch < later ∨ later = epoch ∧ phase = .init ∧ left serial →
    pending later serial = none

def slotOf (serial : Nat) : Nat × Nat :=
  (convertToGlobalId epoch serial, pointerOf pending (toLex (epoch, serial)))

structure BufferOk (core : Worker) (buffer : Slots) : Prop where
  ascending : Ascending buffer
  slots : ∀ slot ∈ buffer, ∃ serial ∈ load.writers key epoch, phase = .init ∧ ¬ left serial ∧
    remainderOwner serial = core ∧ slot = slotOf epoch pending serial

def InArray (buffers : Worker → Slots) : Set Nat :=
  {serial ∈ load.writers key epoch | (phase = .init → ¬ left serial) ∧
    ∀ core, slotOf epoch pending serial ∉ buffers core}

structure RowInv (val : Value) (buffers : Worker → Slots) : Prop where
  array : ArrayOk load key epoch val.globalArray val.heap.freed (pointerOf pending)
    (InArray load key epoch phase pending left buffers)
  buffer : ∀ core, BufferOk load key epoch phase pending left core (buffers core)
  versions : VersionsOk load key epoch phase pending left val.heap

end Invariant

section Steps
variable {load : Workload} {key epoch : Nat} {phase : Phase} {val : Value}
  {pending : Nat → Nat → Option Nat} {left : Nat → Prop} {buffers : Worker → Slots} {heap : Heap}

/-- The lock and the pointer to the row buffer are not part of the invariant. -/
theorem RowInv.congr {val' : Value} (inv : RowInv load key epoch phase pending left val buffers)
    (sameArray : val'.globalArray = val.globalArray) (sameHeap : val'.heap = val.heap) :
    RowInv load key epoch phase pending left val' buffers :=
  ⟨by rw [sameArray, sameHeap]; exact inv.array, inv.buffer, by rw [sameHeap]; exact inv.versions⟩

theorem pointerOf_writer {serial : Nat} (positive : 1 ≤ epoch) :
    pointerOf pending (toLex (epoch, serial)) = (pending epoch serial).getD 0 :=
  if_neg (show ¬ epoch = 0 by omega)

theorem VersionsOk.free (ok : VersionsOk load key epoch phase pending left heap)
    (freed : List Nat) : VersionsOk load key epoch phase pending left (heap.free freed) :=
  ⟨fun at' made => ⟨(ok.version at' made).known, (ok.version at' made).bounded,
    (ok.version at' made).written, (ok.version at' made).finished⟩, ok.distinct, ok.unmade⟩

/-! ## Making a version -/

section Create
variable {serial : Nat} {pending' : Nat → Nat → Option Nat} {left' : Nat → Prop}

def Records (epoch serial pointer : Nat) (pending pending' : Nat → Nat → Option Nat) : Prop :=
  ∀ at' other, pending' at' other =
    if at' = epoch ∧ other = serial then some pointer else pending at' other

theorem Records.new {pointer : Nat} (recorded : Records epoch serial pointer pending pending')
    (positive : 1 ≤ epoch) : pointerOf pending' (toLex (epoch, serial)) = pointer := by
  rw [pointerOf_writer positive, recorded, if_pos ⟨rfl, rfl⟩]
  rfl

theorem Records.old {pointer : Nat} (recorded : Records epoch serial pointer pending pending')
    {at' : Nat ×ₗ Nat} (differs : at' ≠ toLex (epoch, serial)) :
    pending' (ofLex at').1 (ofLex at').2 = pending (ofLex at').1 (ofLex at').2 ∧
      pointerOf pending' at' = pointerOf pending at' := by
  have same : pending' (ofLex at').1 (ofLex at').2 = pending (ofLex at').1 (ofLex at').2 := by
    rw [recorded, if_neg]
    rintro ⟨rfl, rfl⟩
    exact differs rfl
  exact ⟨same, by rw [pointerOf, pointerOf, same]⟩

theorem VersionsOk.create (ok : VersionsOk load key epoch .init pending left heap)
    (positive : 1 ≤ epoch) (writer : serial ∈ load.writers key epoch)
    (recorded : Records epoch serial heap.next pending pending')
    (popped : ∀ other, left' other ↔ left other ∧ other ≠ serial) (isLeft : left serial)
    {heap' : Heap} (next : heap'.next = heap.next + 1)
    (versions : heap'.versions = Function.update heap.versions heap.next {}) :
    VersionsOk load key epoch .init pending' left' heap' := by
  have was {at' : Nat ×ₗ Nat} (made : at' ∈ Made load key epoch .init left')
      (differs : at' ≠ toLex (epoch, serial)) : at' ∈ Made load key epoch .init left := by
    refine ⟨made.1, made.2.1, fun other same init isLeft => ?_⟩
    refine made.2.2 other same init ((popped other).mpr ⟨isLeft, ?_⟩)
    rintro rfl
    exact differs same
  have oldVersion {pointer : Nat} (old : pointer < heap.next) :
      heap'.versions pointer = heap.versions pointer := by
    rw [versions, Function.update_of_ne old.ne]
  refine ⟨fun at' made => ?_, fun one oneMade two twoMade same => ?_, fun later other cases => ?_⟩
  · by_cases same : at' = toLex (epoch, serial)
    · subst same
      have empty : heap'.versions (pointerOf pending' (toLex (epoch, serial))) = {} := by
        rw [recorded.new positive, versions, Function.update_self]
      refine ⟨fun _ => ?_, by rw [recorded.new positive, next]; exact Nat.lt_succ_self _, ?_, ?_⟩
      · rw [recorded.new positive, recorded, if_pos ⟨rfl, rfl⟩]
      · rw [empty]
        intro impossible
        cases impossible
      · intro exec
        cases (exec serial rfl).1
    · have before := ok.version at' (was made same)
      obtain ⟨samePending, samePointer⟩ := recorded.old same
      refine ⟨?_, ?_, ?_, ?_⟩
      · rw [samePending, samePointer]
        exact before.known
      · rw [samePointer, next]
        exact before.bounded.trans (Nat.lt_succ_self _)
      · rw [samePointer, oldVersion before.bounded]
        exact before.written
      · rw [samePointer, oldVersion before.bounded]
        intro exec
        exact before.finished fun other at'Eq => absurd (exec other at'Eq).1 (by simp)
  · have below (at' : Nat ×ₗ Nat) (made : at' ∈ Made load key epoch .init left')
        (differs : at' ≠ toLex (epoch, serial)) : pointerOf pending' at' < heap.next := by
      rw [(recorded.old differs).2]
      exact (ok.version at' (was made differs)).bounded
    by_cases oneNew : one = toLex (epoch, serial) <;> by_cases twoNew : two = toLex (epoch, serial)
    · rw [oneNew, twoNew]
    · have less := below two twoMade twoNew
      rw [← same, oneNew, recorded.new positive] at less
      exact absurd less (lt_irrefl _)
    · have less := below one oneMade oneNew
      rw [same, twoNew, recorded.new positive] at less
      exact absurd less (lt_irrefl _)
    · rw [(recorded.old oneNew).2, (recorded.old twoNew).2] at same
      exact ok.distinct one (was oneMade oneNew) two (was twoMade twoNew) same
  · rw [recorded, if_neg]
    · refine ok.unmade later other (cases.imp_right ?_)
      exact fun ⟨now, init, isLeft⟩ => ⟨now, init, ((popped other).mp isLeft).1⟩
    · rintro ⟨rfl, rfl⟩
      rcases cases with less | ⟨-, -, isLeft⟩
      · exact lt_irrefl _ less
      · exact ((popped other).mp isLeft).2 rfl

theorem slotOf_old {pointer other : Nat} (recorded : Records epoch serial pointer pending pending')
    (differs : other ≠ serial) : slotOf epoch pending' other = slotOf epoch pending other := by
  rw [slotOf, slotOf, (recorded.old fun same => differs ?_).2]
  exact congrArg (fun at' => (ofLex at').2) same

theorem BufferOk.create {pointer : Nat} {core : Worker} {buffer : Slots}
    (ok : BufferOk load key epoch .init pending left core buffer)
    (recorded : Records epoch serial pointer pending pending') (isLeft : left serial)
    (popped : ∀ other, left' other ↔ left other ∧ other ≠ serial) :
    BufferOk load key epoch .init pending' left' core buffer := by
  refine ⟨ok.ascending, fun slot member => ?_⟩
  obtain ⟨other, writer, init, done, owner, rfl⟩ := ok.slots slot member
  have differs : other ≠ serial := by
    rintro rfl
    exact done isLeft
  exact ⟨other, writer, init, fun isLeft => done ((popped other).mp isLeft).1, owner,
    (slotOf_old recorded differs).symm⟩

theorem convertToGlobalId_inj {one two : Nat} (bound : epoch < 2 ^ 32)
    (oneWriter : one ∈ load.writers key epoch) (twoWriter : two ∈ load.writers key epoch)
    (same : convertToGlobalId epoch one = convertToGlobalId epoch two) : one = two := by
  have equal : toLex (epoch, one) = (toLex (epoch, two) : Nat ×ₗ Nat) :=
    globalId_inj (fits_writer bound oneWriter) (fits_writer bound twoWriter) same
  exact congrArg (fun at' => (ofLex at').2) equal

theorem BufferOk.notMem {core : Worker} {buffer : Slots} {pointer : Nat}
    (ok : BufferOk load key epoch .init pending left core buffer) (bound : epoch < 2 ^ 32)
    (writer : serial ∈ load.writers key epoch) (isLeft : left serial) :
    (convertToGlobalId epoch serial, pointer) ∉ buffer := by
  intro member
  obtain ⟨other, otherWriter, -, done, -, same⟩ := ok.slots _ member
  rw [slotOf, Prod.mk.injEq] at same
  rw [convertToGlobalId_inj bound writer otherWriter same.1] at isLeft
  exact done isLeft

theorem ArrayOk.create (inv : RowInv load key epoch .init pending left val buffers)
    (positive : 1 ≤ epoch) (isLeft : left serial) {pointer : Nat}
    (recorded : Records epoch serial pointer pending pending') :
    ArrayOk load key epoch val.globalArray val.heap.freed (pointerOf pending')
      (InArray load key epoch .init pending left buffers) := by
  refine inv.array.congr positive fun at' _ cases => ((recorded.old ?_).2).symm
  rintro rfl
  rcases cases with less | ⟨other, inArray, same⟩
  · have := lex_lt.mp less
    omega
  · obtain rfl : serial = other := congrArg (fun at' => (ofLex at').2) same
    exact inArray.2.1 rfl isLeft

theorem RowInv.appendUncontended (inv : RowInv load key epoch .init pending left val buffers)
    (positive : 1 ≤ epoch) (bound : epoch < 2 ^ 32) (writer : serial ∈ load.writers key epoch)
    (isLeft : left serial) (popped : ∀ other, left' other ↔ left other ∧ other ≠ serial)
    (recorded : Records epoch serial val.heap.next pending pending') :
    RowInv load key epoch .init pending' left' (val.appendToUncontendedRow epoch serial) buffers
    where
  array := by
    have appended := (ArrayOk.create inv positive isLeft recorded).append positive bound writer
      fun inArray => inArray.2.1 rfl isLeft
    rw [recorded.new positive] at appended
    have inserted : insert serial (InArray load key epoch .init pending left buffers) =
        InArray load key epoch .init pending' left' buffers := by
      ext other
      by_cases same : other = serial
      · subst same
        simp only [Set.mem_insert_iff, true_or, true_iff]
        refine ⟨writer, fun _ isLeft' => ((popped other).mp isLeft').2 rfl, fun core => ?_⟩
        exact (inv.buffer core).notMem bound writer isLeft
      · simp [InArray, popped, same, slotOf_old recorded same]
    rw [inserted] at appended
    exact appended
  buffer := fun core => (inv.buffer core).create recorded isLeft popped
  versions := inv.versions.create positive writer recorded popped isLeft rfl rfl

theorem RowInv.appendBuffer (inv : RowInv load key epoch .init pending left val buffers)
    (positive : 1 ≤ epoch) (bound : epoch < 2 ^ 32) (writer : serial ∈ load.writers key epoch)
    (isLeft : left serial) (popped : ∀ other, left' other ↔ left other ∧ other ≠ serial)
    (recorded : Records epoch serial val.heap.next pending pending') {core : Worker}
    (owner : remainderOwner serial = core) :
    RowInv load key epoch .init pending' left' val.createPendingVersion
      (Function.update buffers core
        (insertUpper (convertToGlobalId epoch serial, val.heap.next) (buffers core))) := by
  have newSlot :
      slotOf epoch pending' serial = (convertToGlobalId epoch serial, val.heap.next) := by
    rw [slotOf, recorded.new positive]
  have memNew (other : Worker) (slot : Nat × Nat) :
      slot ∈ Function.update buffers core
        (insertUpper (convertToGlobalId epoch serial, val.heap.next) (buffers core)) other ↔
      slot ∈ buffers other ∨ other = core ∧ slot = slotOf epoch pending' serial := by
    by_cases same : other = core
    · subst same
      rw [Function.update_self, SortedVector.mem_insertUpper, newSlot]
      tauto
    · rw [Function.update_of_ne same]
      tauto
  refine ⟨?_, fun other => ⟨?_, fun slot member => ?_⟩,
    inv.versions.create positive writer recorded popped isLeft rfl rfl⟩
  · have unchanged : InArray load key epoch .init pending left buffers =
        InArray load key epoch .init pending' left' (Function.update buffers core
          (insertUpper (convertToGlobalId epoch serial, val.heap.next) (buffers core))) := by
      ext other
      simp only [InArray, Set.mem_sep_iff, memNew, popped, forall_const]
      by_cases same : other = serial
      · subst same
        simp only [isLeft, not_true_eq_false, false_and, and_false, false_iff]
        exact fun mem => mem.2.2 core (by simp)
      · rw [slotOf_old recorded same]
        refine and_congr_right fun otherWriter => ?_
        refine and_congr (by tauto) (forall_congr' fun otherCore => not_congr ?_)
        refine (or_iff_left ?_).symm
        rintro ⟨-, equal⟩
        rw [slotOf, slotOf, Prod.mk.injEq] at equal
        exact same (convertToGlobalId_inj bound otherWriter writer equal.1)
    rw [← unchanged]
    have array := ArrayOk.create inv positive isLeft recorded
    exact array
  · by_cases same : other = core
    · subst same
      rw [Function.update_self]
      refine SortedVector.insertUpper_ascending (inv.buffer other).ascending
        fun slot member same => ?_
      obtain ⟨id, pointer⟩ := slot
      cases same
      exact (inv.buffer other).notMem bound writer isLeft member
    · rw [Function.update_of_ne same]
      exact (inv.buffer other).ascending
  · rcases (memNew other slot).mp member with old | ⟨rfl, rfl⟩
    · exact ((inv.buffer other).create recorded isLeft popped).slots slot old
    · exact ⟨serial, writer, rfl, fun isLeft' => ((popped serial).mp isLeft').2 rfl, owner, rfl⟩

end Create

theorem RowInv.flush (inv : RowInv load key epoch phase pending left val buffers)
    (positive : 1 ≤ epoch) (bound : epoch < 2 ^ 32) (core : Worker) :
    RowInv load key epoch phase pending left (val.batchAppend (buffers core) epoch)
      (Function.update buffers core []) where
  array := by
    have moved := @ArrayOk.batch load key epoch val.globalArray (pointerOf pending)
      (InArray load key epoch phase pending left buffers) val.heap.freed (buffers core) positive
      bound (inv.buffer core).ascending (fun slot member => by
        obtain ⟨serial, writer, -, -, -, rfl⟩ := (inv.buffer core).slots slot member
        exact ⟨serial, writer, fun inArray => inArray.2.2 core member, rfl⟩) [] inv.array
    have union : InArray load key epoch phase pending left buffers ∪
        {serial ∈ load.writers key epoch | slotOf epoch pending serial ∈ buffers core} =
        InArray load key epoch phase pending left (Function.update buffers core []) := by
      ext serial
      simp only [InArray, Set.mem_union, Set.mem_sep_iff]
      constructor
      · rintro (⟨writer, done, nowhere⟩ | ⟨writer, here⟩)
        · refine ⟨writer, done, fun other => ?_⟩
          by_cases same : other = core
          · simp [same]
          · rw [Function.update_of_ne same]
            exact nowhere other
        · obtain ⟨other, otherWriter, -, done, owner, same⟩ := (inv.buffer core).slots _ here
          obtain rfl := convertToGlobalId_inj bound writer otherWriter (congrArg Prod.fst same)
          refine ⟨writer, fun _ => done, fun other => ?_⟩
          by_cases sameCore : other = core
          · simp [sameCore]
          · rw [Function.update_of_ne sameCore]
            intro there
            obtain ⟨third, thirdWriter, -, -, otherOwner, thirdSame⟩ :=
              (inv.buffer other).slots _ there
            obtain rfl := convertToGlobalId_inj bound writer thirdWriter
              (congrArg Prod.fst thirdSame)
            exact sameCore (otherOwner.symm.trans owner)
      · rintro ⟨writer, done, nowhere⟩
        by_cases here : slotOf epoch pending serial ∈ buffers core
        · exact .inr ⟨writer, here⟩
        · refine .inl ⟨writer, done, fun other there => ?_⟩
          by_cases same : other = core
          · subst same
            exact here there
          · have := nowhere other
            rw [Function.update_of_ne same] at this
            exact this there
    rw [← union]
    exact moved
  buffer := fun other => by
    by_cases same : other = core
    · subst same
      rw [Function.update_self]
      exact ⟨List.Pairwise.nil, fun _ impossible => by cases impossible⟩
    · rw [Function.update_of_ne same]
      exact inv.buffer other
  versions := inv.versions.free _

/-! ## The execution phase -/

theorem BufferOk.exec_empty {core : Worker} {buffer : Slots}
    (ok : BufferOk load key epoch .exec pending left core buffer) : buffer = [] := by
  refine List.eq_nil_iff_forall_not_mem.mpr fun slot member => ?_
  obtain ⟨-, -, impossible, -⟩ := ok.slots slot member
  cases impossible

theorem bufferOk_nil {core : Worker} : BufferOk load key epoch phase pending left core [] :=
  ⟨List.Pairwise.nil, fun _ impossible => by cases impossible⟩

theorem inArray_exec (empty : ∀ core, buffers core = []) :
    InArray load key epoch .exec pending left buffers = load.writers key epoch := by
  ext serial
  simp [InArray, empty]

theorem RowInv.exec_empty (inv : RowInv load key epoch .exec pending left val buffers)
    (core : Worker) : buffers core = [] := (inv.buffer core).exec_empty

theorem made_exec {left' : Nat → Prop} :
    Made load key epoch .exec left' = Made load key epoch .exec left := by
  ext at'
  simp [Made]

theorem made_writer {serial : Nat} (positive : 1 ≤ epoch)
    (writer : serial ∈ load.writers key epoch) :
    toLex (epoch, serial) ∈ Made load key epoch .exec left :=
  ⟨version_of_writer positive writer, lex_lt.mpr (.inl (Nat.lt_succ_self _)),
    fun _ _ impossible => by cases impossible⟩

theorem RowInv.setVersion (inv : RowInv load key epoch .exec pending left val buffers)
    (positive : 1 ≤ epoch) {serial : Nat} (writer : serial ∈ load.writers key epoch)
    (version : Version) {left' : Nat → Prop}
    (others : ∀ other, other ≠ serial → (left' other ↔ left other))
    (written : version.status = .stable → version.record = some (.written epoch serial))
    (finished : ¬ left' serial → version.status = .stable) :
    RowInv load key epoch .exec pending left'
      { val with heap := val.heap.setVersion (pointerOf pending (toLex (epoch, serial))) version }
      buffers := by
  have array := inv.array
  rw [inArray_exec inv.exec_empty, ← @inArray_exec load key epoch pending left' buffers
    inv.exec_empty] at array
  refine ⟨array, fun core => ?_, fun at' made => ?_, ?_, fun later other cases => ?_⟩
  · rw [inv.exec_empty core]
    exact bufferOk_nil
  · rw [@made_exec load key epoch left left'] at made
    have before := inv.versions.version at' made
    by_cases same : at' = toLex (epoch, serial)
    · subst same
      have content : (val.heap.setVersion (pointerOf pending (toLex (epoch, serial)))
          version).versions (pointerOf pending (toLex (epoch, serial))) = version :=
        Heap.setVersion_self ..
      have record : contentOf (toLex (epoch, serial)) = .written epoch serial :=
        if_neg (show ¬ epoch = 0 by omega)
      refine ⟨before.known, before.bounded, fun stable => ?_, fun done => ?_⟩
      · rw [record]
        exact (congrArg Version.record content).trans
          (written ((congrArg Version.status content).symm.trans stable))
      · exact (congrArg Version.status content).trans (finished (done serial rfl).2)
    · have differs : pointerOf pending at' ≠ pointerOf pending (toLex (epoch, serial)) :=
        fun equal => same (inv.versions.distinct at' made _ (made_writer positive writer) equal)
      have content : (val.heap.setVersion (pointerOf pending (toLex (epoch, serial)))
          version).versions (pointerOf pending at') = val.heap.versions (pointerOf pending at') :=
        Heap.setVersion_of_ne _ _ differs
      refine ⟨before.known, before.bounded, fun stable => ?_, fun done => ?_⟩
      · exact (congrArg Version.record content).trans
          (before.written ((congrArg Version.status content).symm.trans stable))
      · refine (congrArg Version.status content).trans (before.finished fun other at'Eq => ?_)
        refine ⟨rfl, fun isLeft => (done other at'Eq).2 ((others other ?_).mpr isLeft)⟩
        rintro rfl
        exact same at'Eq
  · rw [@made_exec load key epoch left left']
    exact inv.versions.distinct
  · refine inv.versions.unmade later other (cases.imp_right ?_)
    exact fun ⟨_, impossible, _⟩ => by cases impossible

theorem RowInv.search (inv : RowInv load key epoch .exec pending left val buffers)
    (positive : 1 ≤ epoch) (bound : epoch < 2 ^ 32) {reader : Nat} (readerBound : reader < 2 ^ 32) :
    ∃ last, IsGreatest {at' ∈ allVersions load key | at' < toLex (epoch, reader)} last ∧
      GlobalVersionArray.searchVisibleVersion val.globalArray epoch reader =
        some (globalId last, pointerOf pending last) := by
  have array := inv.array
  rw [inArray_exec inv.exec_empty] at array
  exact array.search positive bound readerBound

/-! ## Barriers -/

theorem RowInv.barrier (inv : RowInv load key epoch .init pending left val buffers)
    (positive : 1 ≤ epoch) (quiet : ∀ serial, ¬ left serial) (empty : ∀ core, buffers core = [])
    {left' : Nat → Prop} (all : ∀ serial ∈ load.writers key epoch, left' serial) :
    RowInv load key epoch .exec pending left' val buffers := by
  have array := inv.array
  have same : InArray load key epoch .init pending left buffers =
      InArray load key epoch .exec pending left' buffers := by
    ext serial
    simp [InArray, quiet]
  have made : Made load key epoch .exec left' = Made load key epoch .init left := by
    ext at'
    simp [Made, quiet]
  rw [same] at array
  refine ⟨array, fun core => ?_, fun at' atMade => ?_, ?_, fun later serial cases => ?_⟩
  · rw [empty core]
    exact bufferOk_nil
  · have before := inv.versions.version at' (made ▸ atMade)
    refine ⟨before.known, before.bounded, before.written, fun done => ?_⟩
    refine before.finished fun serial at'Eq => ?_
    subst at'Eq
    exact absurd (all serial (writer_of_version positive atMade.1)) (done serial rfl).2
  · rw [made]
    exact inv.versions.distinct
  · refine inv.versions.unmade later serial (cases.imp_right ?_)
    exact fun ⟨_, impossible, _⟩ => by cases impossible

theorem RowInv.newEpoch (inv : RowInv load key epoch .exec pending left val buffers)
    (quiet : ∀ serial, ¬ left serial) {left' : Nat → Prop}
    (all : ∀ serial ∈ load.writers key (epoch + 1), left' serial) :
    RowInv load key (epoch + 1) .init pending left' val buffers := by
  have array := inv.array.newEpoch fun _ => inArray_exec inv.exec_empty
  have none : InArray load key (epoch + 1) .init pending left' buffers = ∅ :=
    Set.eq_empty_iff_forall_notMem.mpr fun serial member =>
      member.2.1 rfl (all serial member.1)
  have made : Made load key (epoch + 1) .init left' = Made load key epoch .exec left := by
    ext at'
    refine and_congr_right fun version => ?_
    obtain ⟨atEpoch, serial, rfl⟩ := exists_toLex at'
    simp only [lex_lt, reduceCtorEq, false_implies, implies_true, and_true]
    constructor
    · rintro ⟨below, notLeft⟩
      have : atEpoch ≠ epoch + 1 := by
        rintro rfl
        exact notLeft serial rfl trivial (all serial (writer_of_version (Nat.succ_pos _) version))
      omega
    · intro below
      refine ⟨by omega, fun other same => ?_⟩
      have : atEpoch = epoch + 1 := congrArg (fun at' => (ofLex at').1) same
      omega
  rw [← none] at array
  refine ⟨array, fun core => ?_, fun at' atMade => ?_, ?_, fun later serial cases => ?_⟩
  · rw [inv.exec_empty core]
    exact bufferOk_nil
  · have before := inv.versions.version at' (made ▸ atMade)
    exact ⟨before.known, before.bounded, before.written, fun _ =>
      before.finished fun serial _ => ⟨rfl, quiet serial⟩⟩
  · rw [made]
    exact inv.versions.distinct
  · refine inv.versions.unmade later serial (.inl ?_)
    rcases cases with more | ⟨rfl, -⟩
    · omega
    · exact Nat.lt_succ_self _

theorem loadedRow_inv (load : Workload) (key : Nat) :
    RowInv load key 0 .exec (fun _ _ => none) (fun _ => False) State.loadedRow fun _ => [] := by
  have only {at' : Nat ×ₗ Nat} (version : at' ∈ allVersions load key) (below : at' < toLex (1, 0)) :
      at' = toLex (0, 0) := by
    rcases Set.mem_insert_iff.mp version with loaded | writer
    · exact loaded
    · obtain ⟨atEpoch, serial, rfl⟩ := exists_toLex at'
      have positive := (mem_allWriters.mp writer).1
      have := lex_lt.mp below
      omega
  refine ⟨⟨{toLex (0, 0)}, ⟨?_, ?_, ?_⟩, ⟨?_, ?_, ?_, ?_⟩, ?_⟩, fun _ => bufferOk_nil, ?_, ?_,
    fun _ _ _ => rfl⟩
  · exact List.pairwise_singleton _ _
  · rintro at' rfl
    exact ⟨by norm_num, by norm_num⟩
  · intro slot
    simp only [Set.mem_singleton_iff, exists_eq_left]
    exact List.mem_singleton
  · rintro at' rfl
    exact ⟨.inl rfl, lex_lt.mpr (.inl Nat.one_pos)⟩
  · intro at' impossible
    obtain ⟨atEpoch, serial, rfl⟩ := exists_toLex at'
    have := lex_lt.mp impossible
    omega
  · intro positive
    omega
  · refine ⟨_, rfl, ⟨.inl rfl, .inl rfl⟩, ?_⟩
    rintro other ⟨-, rfl | below⟩
    · exact le_rfl
    · obtain ⟨otherEpoch, serial, rfl⟩ := exists_toLex other
      have := lex_lt.mp below
      omega
  · intro old impossible
    cases impossible
  · intro at' made
    obtain rfl := only made.1 made.2.1
    exact ⟨fun positive => absurd positive (by simp), Nat.one_pos, fun _ => rfl, fun _ => rfl⟩
  · intro one oneMade two twoMade _
    rw [only oneMade.1 oneMade.2.1, only twoMade.1 twoMade.2.1]

theorem RowInv.readable (inv : RowInv load key epoch phase pending left val buffers)
    {serial : Nat} {last : Nat ×ₗ Nat} (made : last ∈ Made load key epoch phase left)
    (greatest : ∀ other ∈ load.allWriters key, other < toLex (epoch, serial) → other ≤ last) :
    pointerOf pending last ∉ val.heap.freed := by
  intro deleted
  obtain ⟨present, -, -, freedOk⟩ := inv.array
  obtain ⟨at', version, same, later, laterVersion, above, older⟩ := freedOk _ deleted
  have atMade : at' ∈ Made load key epoch phase left := by
    refine ⟨version, (above.trans older).trans (lex_lt.mpr (.inl (Nat.lt_succ_self _))), ?_⟩
    rintro other rfl
    have := lex_lt.mp (above.trans older)
    omega
  obtain rfl := inv.versions.distinct _ made _ atMade same
  rcases Set.mem_insert_iff.mp laterVersion with rfl | writer
  · obtain ⟨atEpoch, atSerial, rfl⟩ := exists_toLex last
    have := lex_lt.mp above
    omega
  · have below := older.trans_le
      (lex_le.mpr (.inr ⟨rfl, Nat.zero_le serial⟩) : toLex (epoch, 0) ≤ toLex (epoch, serial))
    exact absurd (greatest later writer below) (not_le.mpr above)

end Steps

end TpccRunner.Caracal
