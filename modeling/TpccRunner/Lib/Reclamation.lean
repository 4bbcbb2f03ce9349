import Mathlib
import TpccRunner.Lib.OrderedMap

/-!
# Deferred reclamation

Readers of a shared structure carry a stamp while they are active.  An object
taken out of the structure is retired under a tag and freed later, once the tag
is below every active stamp.  This is safe as long as no active reader of a
retired object has a stamp above the object's tag: `Covered`.

`Pointers` is the structure itself: slots that lead to objects, the pointers the
readers have obtained, and what was freed.  Its invariant `Pointers.Ok` is
relative to the retired objects, and has one rule for each operation.
-/

set_option autoImplicit false

namespace TpccRunner.Lib

section Covered
variable {Reader Object Stamp : Type} [LinearOrder Stamp]
variable {stamp stamp' : Reader → Option Stamp} {holds holds' : Reader → Object → Prop}
variable {object : Object} {tag : Stamp}

def CoveredAt (stamp : Reader → Option Stamp) (holds : Reader → Object → Prop)
    (object : Object) (tag : Stamp) : Prop :=
  ∀ reader s, stamp reader = some s → holds reader object → s ≤ tag

def Covered (stamp : Reader → Option Stamp) (holds : Reader → Object → Prop)
    (retired : Object → Stamp → Prop) : Prop :=
  ∀ object tag, retired object tag → CoveredAt stamp holds object tag

def Clear (stamp : Reader → Option Stamp) (tag : Stamp) : Prop :=
  ∀ reader s, stamp reader = some s → tag < s

theorem CoveredAt.mono {tag' : Stamp} (covered : CoveredAt stamp holds object tag)
    (below : tag ≤ tag')
    (fewer : ∀ reader s, stamp' reader = some s → holds' reader object →
      stamp reader = some s ∧ holds reader object) :
    CoveredAt stamp' holds' object tag' := by
  intro reader s active held
  obtain ⟨active', held'⟩ := fewer reader s active held
  exact le_trans (covered reader s active' held') below

/-- An object with a clear tag has no active reader. -/
theorem CoveredAt.not_held (covered : CoveredAt stamp holds object tag) (clear : Clear stamp tag)
    {reader : Reader} {s : Stamp} (active : stamp reader = some s) : ¬ holds reader object := by
  intro held
  exact absurd (clear reader s active) (not_lt_of_ge (covered reader s active held))

end Covered

variable {Reader Slot Stamp : Type}

structure Pointers (Reader Slot Stamp : Type) where
  slots : Slot → Option Nat
  /-- Objects are numbered in the order of their allocation. -/
  next : Nat
  stamp : Reader → Option Stamp
  /-- The pointers an active reader has obtained, with the slot of each. -/
  held : Reader → List (Slot × Nat)
  freed : Nat → Bool

/-- The structure before anybody reads it: every slot has an object of its own. -/
structure Loaded (Slot : Type) where
  slots : Slot → Option Nat
  next : Nat
  allocated : ∀ slot object, slots slot = some object → object < next
  distinct : ∀ slot slot' object, slots slot = some object → slots slot' = some object →
    slot = slot'

/-- One slot, with one object. -/
def Loaded.single : Loaded Unit where
  slots _ := some 0
  next := 1
  allocated _ _ found := Option.some.inj found ▸ Nat.one_pos
  distinct _ _ _ _ _ := rfl

namespace Pointers

def start (loaded : Loaded Slot) : Pointers Reader Slot Stamp where
  slots := loaded.slots
  next := loaded.next
  stamp _ := none
  held _ := []
  freed _ := false

/-- The reader has found the object in the slot, or put it there. -/
def Obtained (pointers : Pointers Reader Slot Stamp) (reader : Reader) (slot : Slot)
    (object : Nat) : Prop :=
  (slot, object) ∈ pointers.held reader

instance [DecidableEq Slot] (pointers : Pointers Reader Slot Stamp) (reader : Reader)
    (slot : Slot) (object : Nat) : Decidable (pointers.Obtained reader slot object) :=
  inferInstanceAs (Decidable (_ ∈ _))

def Holds (pointers : Pointers Reader Slot Stamp) (reader : Reader) (object : Nat) : Prop :=
  ∃ slot, pointers.Obtained reader slot object

/-- No active reader has a pointer to an object that was freed. -/
def NoDangling (pointers : Pointers Reader Slot Stamp) : Prop :=
  ∀ reader object, pointers.Holds reader object → pointers.freed object = false

def free (pointers : Pointers Reader Slot Stamp) (gone : Nat → Bool) :
    Pointers Reader Slot Stamp :=
  { pointers with freed := fun object => pointers.freed object || gone object }

section Operations
variable [DecidableEq Reader] (pointers : Pointers Reader Slot Stamp)

def enter (reader : Reader) (stamp : Stamp) : Pointers Reader Slot Stamp :=
  { pointers with stamp := Function.update pointers.stamp reader (some stamp) }

def leave (reader : Reader) : Pointers Reader Slot Stamp :=
  { pointers with
    stamp := Function.update pointers.stamp reader none
    held := Function.update pointers.held reader [] }

def hold (reader : Reader) (slot : Slot) (object : Nat) : Pointers Reader Slot Stamp :=
  { pointers with
    held := Function.update pointers.held reader ((slot, object) :: pointers.held reader) }

variable [DecidableEq Slot]

def put (reader : Reader) (slot : Slot) : Pointers Reader Slot Stamp :=
  { pointers with
    slots := Function.update pointers.slots slot (some pointers.next)
    next := pointers.next + 1
    held := Function.update pointers.held reader ((slot, pointers.next) :: pointers.held reader) }

omit [DecidableEq Reader] in
def clear (slot : Slot) : Pointers Reader Slot Stamp :=
  { pointers with slots := Function.update pointers.slots slot none }

end Operations

structure Ok [LinearOrder Stamp] (pointers : Pointers Reader Slot Stamp)
    (retired : Nat → Stamp → Prop) : Prop where
  idle : ∀ reader, pointers.stamp reader = none → pointers.held reader = []
  linked : ∀ slot object, pointers.slots slot = some object →
    object < pointers.next ∧ pointers.freed object = false ∧ ∀ tag, ¬ retired object tag
  distinct : ∀ slot slot' object, pointers.slots slot = some object →
    pointers.slots slot' = some object → slot = slot'
  held : ∀ reader slot object, (slot, object) ∈ pointers.held reader →
    object < pointers.next ∧ pointers.freed object = false ∧
      ∀ slot', pointers.slots slot' = some object → slot' = slot
  retired_lt : ∀ object tag, retired object tag → object < pointers.next
  freed_lt : ∀ object, pointers.freed object → object < pointers.next
  covered : Covered pointers.stamp pointers.Holds retired

variable [LinearOrder Stamp] {pointers : Pointers Reader Slot Stamp}
variable {retired retired' : Nat → Stamp → Prop}

theorem Ok.start (loaded : Loaded Slot) (nothing : ∀ object tag, ¬ retired object tag) :
    Ok (Pointers.start loaded : Pointers Reader Slot Stamp) retired where
  idle _ _ := rfl
  linked slot object present := ⟨loaded.allocated slot object present, rfl, nothing object⟩
  distinct := loaded.distinct
  held := by simp [Pointers.start]
  retired_lt object tag there := absurd there (nothing object tag)
  freed_lt := by simp [Pointers.start]
  covered object tag there := absurd there (nothing object tag)

theorem Ok.noDangling (ok : Ok pointers retired) : pointers.NoDangling := by
  intro reader object holds
  obtain ⟨slot, member⟩ := holds
  exact (ok.held reader slot object member).2.1

theorem Ok.active_of_mem (ok : Ok pointers retired) {reader : Reader} {entry : Slot × Nat}
    (member : entry ∈ pointers.held reader) : ∃ s, pointers.stamp reader = some s := by
  apply Option.ne_none_iff_exists'.mp
  intro inactive
  simp [ok.idle reader inactive] at member

theorem Ok.retag (ok : Ok pointers retired)
    (grows : ∀ object tag', retired' object tag' → ∃ tag, tag ≤ tag' ∧ retired object tag) :
    Ok pointers retired' where
  idle := ok.idle
  linked := by
    intro slot object present
    obtain ⟨bound, live, notRetired⟩ := ok.linked slot object present
    refine ⟨bound, live, fun tag' there => ?_⟩
    obtain ⟨tag, -, there⟩ := grows object tag' there
    exact notRetired tag there
  distinct := ok.distinct
  held := ok.held
  retired_lt := by
    intro object tag' there
    obtain ⟨tag, -, there⟩ := grows object tag' there
    exact ok.retired_lt object tag there
  freed_lt := ok.freed_lt
  covered := by
    intro object tag' there
    obtain ⟨tag, below, there⟩ := grows object tag' there
    exact (ok.covered object tag there).mono below fun _ _ active held => ⟨active, held⟩

theorem Ok.retire (ok : Ok pointers retired) {object : Nat} {tag : Stamp}
    (allocated : object < pointers.next) (unlinked : ∀ slot, pointers.slots slot ≠ some object)
    (covered : CoveredAt pointers.stamp pointers.Holds object tag)
    (added : ∀ object' tag', retired' object' tag' →
      retired object' tag' ∨ (tag' = tag ∧ object' = object)) :
    Ok pointers retired' where
  idle := ok.idle
  linked := by
    intro slot object' present
    obtain ⟨bound, live, notRetired⟩ := ok.linked slot object' present
    refine ⟨bound, live, fun tag' there => ?_⟩
    obtain there | ⟨-, rfl⟩ := added object' tag' there
    · exact notRetired tag' there
    · exact unlinked slot present
  distinct := ok.distinct
  held := ok.held
  retired_lt := by
    intro object' tag' there
    obtain there | ⟨-, rfl⟩ := added object' tag' there
    · exact ok.retired_lt object' tag' there
    · exact allocated
  freed_lt := ok.freed_lt
  covered := by
    intro object' tag' there
    obtain there | ⟨rfl, rfl⟩ := added object' tag' there
    · exact ok.covered object' tag' there
    · exact covered

theorem Ok.free (ok : Ok pointers retired) {gone : Nat → Bool}
    (clear : ∀ object, gone object → ∃ tag, retired object tag ∧ Clear pointers.stamp tag) :
    Ok (pointers.free gone) retired := by
  have stays : ∀ object, pointers.freed object = false →
      (∀ tag, retired object tag → ¬ Clear pointers.stamp tag) →
        (pointers.free gone).freed object = false := by
    intro object live kept
    simp only [Pointers.free, live, Bool.false_or]
    by_contra freed
    obtain ⟨tag, there, isClear⟩ := clear object (by simpa using freed)
    exact kept tag there isClear
  refine ⟨ok.idle, ?_, ok.distinct, ?_, ok.retired_lt, ?_, ok.covered⟩
  · intro slot object present
    obtain ⟨bound, live, notRetired⟩ := ok.linked slot object present
    exact ⟨bound, stays object live fun tag there => absurd there (notRetired tag), notRetired⟩
  · intro reader slot object member
    obtain ⟨bound, live, home⟩ := ok.held reader slot object member
    obtain ⟨s, active⟩ := ok.active_of_mem member
    refine ⟨bound, stays object live fun tag there isClear => ?_, home⟩
    exact (ok.covered object tag there).not_held isClear active ⟨slot, member⟩
  · intro object freed
    simp only [Pointers.free, Bool.or_eq_true] at freed
    obtain freed | freed := freed
    · exact ok.freed_lt object freed
    · obtain ⟨tag, there, -⟩ := clear object freed
      exact ok.retired_lt object tag there

variable [DecidableEq Reader] {reader : Reader} {slot : Slot}

theorem Ok.enter (ok : Ok pointers retired) {s : Stamp}
    (inactive : pointers.stamp reader = none) : Ok (pointers.enter reader s) retired := by
  have empty := ok.idle reader inactive
  refine ⟨?_, ok.linked, ok.distinct, ok.held, ok.retired_lt, ok.freed_lt, ?_⟩
  · intro other idle
    by_cases same : other = reader
    · exact same ▸ empty
    · exact ok.idle other (by simpa [Pointers.enter, same] using idle)
  · intro object tag there
    apply (ok.covered object tag there).mono le_rfl
    intro other s' active holds
    have notSame : other ≠ reader := by
      intro same
      subst same
      obtain ⟨slot, member⟩ : pointers.Holds other object := holds
      simp [Pointers.Obtained, empty] at member
    exact ⟨by simpa [Pointers.enter, notSame] using active, holds⟩

theorem Ok.leave (ok : Ok pointers retired) : Ok (pointers.leave reader) retired := by
  have fewer : ∀ other entry, entry ∈ (pointers.leave reader).held other →
      other ≠ reader ∧ entry ∈ pointers.held other := by
    intro other entry member
    by_cases same : other = reader
    · simp [Pointers.leave, same] at member
    · exact ⟨same, by simpa [Pointers.leave, same] using member⟩
  refine ⟨?_, ok.linked, ok.distinct, ?_, ok.retired_lt, ok.freed_lt, ?_⟩
  · intro other idle
    by_cases same : other = reader
    · simp [Pointers.leave, same]
    · simpa [Pointers.leave, same] using ok.idle other (by simpa [Pointers.leave, same] using idle)
  · intro other slot object member
    exact ok.held other slot object (fewer other _ member).2
  · intro object tag there
    apply (ok.covered object tag there).mono le_rfl
    intro other s active holds
    obtain ⟨slot, member⟩ := holds
    obtain ⟨notSame, member⟩ := fewer other _ member
    exact ⟨by simpa [Pointers.leave, notSame] using active, slot, member⟩

omit [LinearOrder Stamp] in
theorem mem_hold {other : Reader} {object : Nat} {entry : Slot × Nat} :
    entry ∈ (pointers.hold reader slot object).held other ↔
      entry ∈ pointers.held other ∨ (other = reader ∧ entry = (slot, object)) := by
  by_cases same : other = reader
  · subst same
    simp [Pointers.hold, or_comm]
  · simp [Pointers.hold, same]

theorem Ok.hold (ok : Ok pointers retired) {object : Nat} {s : Stamp}
    (active : pointers.stamp reader = some s) (present : pointers.slots slot = some object) :
    Ok (pointers.hold reader slot object) retired := by
  obtain ⟨allocated, live, notRetired⟩ := ok.linked slot object present
  refine ⟨?_, ok.linked, ok.distinct, ?_, ok.retired_lt, ok.freed_lt, ?_⟩
  · intro other inactive
    apply List.eq_nil_iff_forall_not_mem.mpr
    intro entry member
    obtain member | ⟨rfl, -⟩ := mem_hold.mp member
    · simp [ok.idle other inactive] at member
    · simp [Pointers.hold, active] at inactive
  · intro other slot' object' member
    obtain member | ⟨-, isNew⟩ := mem_hold.mp member
    · exact ok.held other slot' object' member
    · obtain ⟨rfl, rfl⟩ := Prod.mk.inj isNew
      exact ⟨allocated, live, fun slot' present' => ok.distinct _ _ _ present' present⟩
  · intro object' tag there
    apply (ok.covered object' tag there).mono le_rfl
    intro other s' active' holds
    obtain ⟨slot', member⟩ := holds
    obtain member | ⟨-, isNew⟩ := mem_hold.mp member
    · exact ⟨active', slot', member⟩
    · obtain ⟨-, rfl⟩ := Prod.mk.inj isNew
      exact absurd there (notRetired tag)

variable [DecidableEq Slot]

omit [LinearOrder Stamp] [DecidableEq Reader] in
theorem clear_slots {slot' : Slot} {object : Nat}
    (present : (pointers.clear slot).slots slot' = some object) :
    slot' ≠ slot ∧ pointers.slots slot' = some object := by
  by_cases same : slot' = slot
  · simp [Pointers.clear, same] at present
  · exact ⟨same, by simpa [Pointers.clear, same] using present⟩

omit [DecidableEq Reader] in
theorem Ok.clear (ok : Ok pointers retired) : Ok (pointers.clear slot) retired where
  idle := ok.idle
  linked slot' object present := ok.linked slot' object (clear_slots present).2
  distinct slot₁ slot₂ object present₁ present₂ :=
    ok.distinct slot₁ slot₂ object (clear_slots present₁).2 (clear_slots present₂).2
  held := by
    intro reader slot₁ object member
    obtain ⟨bound, live, home⟩ := ok.held reader slot₁ object member
    exact ⟨bound, live, fun slot₂ present => home slot₂ (clear_slots present).2⟩
  retired_lt := ok.retired_lt
  freed_lt := ok.freed_lt
  covered := ok.covered

omit [LinearOrder Stamp] in
theorem put_slots {slot' : Slot} {object : Nat}
    (present : (pointers.put reader slot).slots slot' = some object) :
    (slot' ≠ slot ∧ pointers.slots slot' = some object) ∨
      (slot' = slot ∧ object = pointers.next) := by
  by_cases same : slot' = slot
  · subst same
    simp only [Pointers.put, Function.update_self, Option.some.injEq] at present
    exact .inr ⟨rfl, present.symm⟩
  · exact .inl ⟨same, by simpa [Pointers.put, same] using present⟩

omit [LinearOrder Stamp] in
theorem mem_put {other : Reader} {entry : Slot × Nat}
    (member : entry ∈ (pointers.put reader slot).held other) :
    entry ∈ pointers.held other ∨ (other = reader ∧ entry = (slot, pointers.next)) :=
  mem_hold.mp member

theorem Ok.put (ok : Ok pointers retired) {s : Stamp} (active : pointers.stamp reader = some s) :
    Ok (pointers.put reader slot) retired := by
  have live : pointers.freed pointers.next = false := by
    by_contra freed
    exact lt_irrefl _ (ok.freed_lt pointers.next (by simpa using freed))
  have unused : ∀ tag, ¬ retired pointers.next tag := fun tag there =>
    lt_irrefl _ (ok.retired_lt pointers.next tag there)
  refine ⟨?_, ?_, ?_, ?_, ?_, ?_, ?_⟩
  · intro other inactive
    apply List.eq_nil_iff_forall_not_mem.mpr
    intro entry member
    obtain member | ⟨rfl, -⟩ := mem_put member
    · simp [ok.idle other inactive] at member
    · simp [Pointers.put, active] at inactive
  · intro slot' object present
    obtain ⟨-, old⟩ | ⟨-, rfl⟩ := put_slots present
    · obtain ⟨bound, isLive, notRetired⟩ := ok.linked slot' object old
      exact ⟨Nat.lt_succ_of_lt bound, isLive, notRetired⟩
    · exact ⟨Nat.lt_succ_self _, live, unused⟩
  · intro slot₁ slot₂ object present₁ present₂
    obtain ⟨-, old₁⟩ | ⟨same₁, new₁⟩ := put_slots present₁ <;>
      obtain ⟨-, old₂⟩ | ⟨same₂, new₂⟩ := put_slots present₂
    · exact ok.distinct slot₁ slot₂ object old₁ old₂
    · exact absurd (ok.linked slot₁ object old₁).1 (by simp [new₂])
    · exact absurd (ok.linked slot₂ object old₂).1 (by simp [new₁])
    · exact same₁.trans same₂.symm
  · intro other slot₁ object member
    obtain member | ⟨-, isNew⟩ := mem_put member
    · obtain ⟨bound, isLive, home⟩ := ok.held other slot₁ object member
      refine ⟨Nat.lt_succ_of_lt bound, isLive, fun slot₂ present => ?_⟩
      obtain ⟨-, old⟩ | ⟨-, isNew⟩ := put_slots present
      · exact home slot₂ old
      · exact absurd bound (by simp [isNew])
    · obtain ⟨rfl, rfl⟩ := Prod.mk.inj isNew
      refine ⟨Nat.lt_succ_self _, live, fun slot₂ present => ?_⟩
      obtain ⟨-, old⟩ | ⟨same, -⟩ := put_slots present
      · exact absurd (ok.linked slot₂ _ old).1 (lt_irrefl _)
      · exact same
  · intro object tag there
    exact Nat.lt_succ_of_lt (ok.retired_lt object tag there)
  · intro object freed
    exact Nat.lt_succ_of_lt (ok.freed_lt object freed)
  · intro object tag there
    apply (ok.covered object tag there).mono le_rfl
    intro other s' active' holds
    obtain ⟨slot', member⟩ := holds
    obtain member | ⟨-, isNew⟩ := mem_put member
    · exact ⟨active', slot', member⟩
    · obtain ⟨-, rfl⟩ := Prod.mk.inj isNew
      exact absurd there (unused tag)

omit [LinearOrder Stamp] in
theorem clear_put (pointers : Pointers Reader Slot Stamp) (reader : Reader) (slot : Slot) :
    (pointers.clear slot).put reader slot = pointers.put reader slot := by
  simp [Pointers.clear, Pointers.put]

omit [DecidableEq Reader] in
theorem Ok.clear_retire (ok : Ok pointers retired) {object : Nat} {tag : Stamp}
    (allocated : object < pointers.next)
    (home : ∀ slot', pointers.slots slot' = some object → slot' = slot)
    (covered : CoveredAt pointers.stamp pointers.Holds object tag)
    (added : ∀ object' tag', retired' object' tag' →
      retired object' tag' ∨ (tag' = tag ∧ object' = object)) :
    Ok (pointers.clear slot) retired' := by
  apply ok.clear.retire allocated _ covered added
  intro slot' present
  obtain ⟨elsewhere, old⟩ := clear_slots present
  exact elsewhere (home slot' old)

end Pointers

end TpccRunner.Lib
