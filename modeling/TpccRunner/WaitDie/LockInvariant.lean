import TpccRunner.WaitDie.Lock

/-!
# What every call does to a `WaitDieLock`

`Status` is a client's standing at a lock: outside, owner in one of the two
modes, or spinning for one of the three requests.  `WellFormed` is the
inductive invariant of the two lists.  Each entry point gets one lemma: called
by a client in the standing it is meant for, it throws nothing, keeps
`WellFormed`, moves the caller to the standing the reply announces, and leaves
every other client alone or promotes it.
-/

set_option autoImplicit false

namespace TpccRunner.WaitDie

/-! ## Sorted lists of timestamps -/

namespace TimestampSortedList

variable {Item : Type} (key : Item → Nat)

theorem mem_insert (item other : Item) :
    ∀ items : List Item, other ∈ insert key item items ↔ other = item ∨ other ∈ items := by
  intro items
  induction items with
  | nil => simp [insert]
  | cons head rest ih =>
    simp only [insert]
    split
    · simp
    · simp only [List.mem_cons, ih]
      tauto

def Descending (items : List Item) : Prop := items.Pairwise fun a b => key b < key a

theorem insert_descending (item : Item) :
    ∀ items : List Item, Descending key items → (∀ other ∈ items, key other ≠ key item) →
      Descending key (insert key item items) := by
  intro items
  induction items with
  | nil => intro _ _; simp [insert, Descending]
  | cons head rest ih =>
    intro sorted distinct
    obtain ⟨headAbove, restSorted⟩ := List.pairwise_cons.mp sorted
    simp only [insert]
    split
    · rename_i below
      refine List.pairwise_cons.mpr ⟨?_, sorted⟩
      intro other member
      rcases List.mem_cons.mp member with rfl | member
      · exact below
      · exact (headAbove other member).trans below
    · rename_i notBelow
      have headDistinct := distinct head (by simp)
      refine List.pairwise_cons.mpr ⟨?_, ih restSorted fun other member =>
        distinct other (by simp [member])⟩
      intro other member
      rcases (mem_insert key item other rest).mp member with rfl | member
      · omega
      · exact headAbove other member

theorem insert_below (item : Item) :
    ∀ items : List Item, (∀ other ∈ items, key item < key other) →
      insert key item items = items ++ [item] := by
  intro items
  induction items with
  | nil => intro _; rfl
  | cons head rest ih =>
    intro below
    have headAbove := below head (by simp)
    simp only [insert, if_neg (Nat.not_lt.mpr headAbove.le), List.cons_append]
    rw [ih fun other member => below other (by simp [member])]

theorem remove_spec (ts : Nat) :
    ∀ items : List Item, (∃ item ∈ items, key item = ts) → Descending key items →
      ∃ rest, remove key ts items = .ok rest ∧ Descending key rest ∧ rest.Sublist items ∧
        rest.length + 1 = items.length ∧
        ∀ other, other ∈ rest ↔ other ∈ items ∧ key other ≠ ts := by
  intro items
  induction items with
  | nil => intro found _; simp at found
  | cons head rest ih =>
    intro found sorted
    obtain ⟨headAbove, restSorted⟩ := List.pairwise_cons.mp sorted
    by_cases here : key head = ts
    · refine ⟨rest, by simp [remove, here], restSorted, List.sublist_cons_self .., by simp, ?_⟩
      intro other
      constructor
      · intro member
        have above : key other < key head := headAbove other member
        exact ⟨by simp [member], by omega⟩
      · rintro ⟨member, differs⟩
        rcases List.mem_cons.mp member with rfl | member
        · exact absurd here differs
        · exact member
    · obtain ⟨item, member, itemTs⟩ := found
      have inRest : ∃ item ∈ rest, key item = ts := by
        rcases List.mem_cons.mp member with rfl | member
        · exact absurd itemTs here
        · exact ⟨item, member, itemTs⟩
      obtain ⟨tail, removed, tailSorted, tailSub, tailLength, tailMem⟩ := ih inRest restSorted
      refine ⟨head :: tail, by simp [remove, here, removed], ?_, tailSub.cons_cons head,
        by simp [tailLength], ?_⟩
      · refine List.pairwise_cons.mpr ⟨?_, tailSorted⟩
        intro other otherMem
        exact headAbove other ((tailMem other).mp otherMem).1
      · intro other
        simp only [List.mem_cons, tailMem]
        constructor
        · rintro (rfl | ⟨otherMem, differs⟩)
          · exact ⟨.inl rfl, here⟩
          · exact ⟨.inr otherMem, differs⟩
        · rintro ⟨rfl | otherMem, differs⟩
          · exact .inl rfl
          · exact .inr ⟨otherMem, differs⟩

theorem getLast_smallest {items : List Item} {last : Item} (sorted : Descending key items)
    (isLast : items.getLast? = some last) :
    last ∈ items ∧ ∀ other ∈ items, other = last ∨ key last < key other := by
  obtain ⟨front, rfl⟩ := List.getLast?_eq_some_iff.mp isLast
  refine ⟨by simp, ?_⟩
  intro other member
  rcases List.mem_append.mp member with inFront | inLast
  · exact .inr ((List.pairwise_append.mp sorted).2.2 other inFront last (by simp))
  · exact .inl (List.mem_singleton.mp inLast)

theorem Descending.eq_of_key {items : List Item} (sorted : Descending key items) {a b : Item}
    (aMem : a ∈ items) (bMem : b ∈ items) (same : key a = key b) : a = b := by
  have nodup : (items.map key).Nodup := List.pairwise_map.mpr (sorted.imp fun below => below.ne')
  exact List.inj_on_of_nodup_map nodup aMem bMem same

end TimestampSortedList

open TimestampSortedList (Descending)

/-! ## Standing of a client -/

inductive Status where
  | free
  | shared
  | exclusive
  | waitShared
  | waitExclusive
  | waitUpgrade
  deriving DecidableEq, Repr

def Status.promoted : Status → Status
  | .waitShared => .shared
  | .waitExclusive => .exclusive
  | .waitUpgrade => .exclusive
  | other => other

def Operation.waitStatus : Operation → Status
  | .S => .waitShared
  | .E => .waitExclusive
  | .U => .waitUpgrade
  | .I => .free

def WaitDieLock.status (lock : WaitDieLock) (ts : Nat) : Status :=
  match lock.waiterList.find? (fun waiter => waiter.ts = ts) with
  | some waiter => waiter.op.waitStatus
  | none => if ts ∈ lock.ownerList.owners then
      (if lock.ownerList.op = .E then .exclusive else .shared) else .free

/-- What the promotion loop may assume: the owner just removed may have been
the only one, and an upgrading client may be the only one left. -/
structure Promotable (list : OwnerList) (waiters : List WaiterNode) : Prop where
  idle_iff : list.op = .I ↔ list.owners = []
  exclusive_single : list.op = .E → list.owners.length = 1
  op_ne_upgrade : list.op ≠ .U
  owners_descending : Descending id list.owners
  waiters_descending : Descending WaiterNode.ts waiters
  waiter_op : ∀ waiter ∈ waiters, waiter.op ≠ .I
  waiter_below : ∀ waiter ∈ waiters, waiter.op ≠ .U → ∀ owner ∈ list.owners, waiter.ts < owner
  upgrade_smallest : ∀ waiter ∈ waiters, waiter.op = .U →
    list.op = .S ∧ list.owners.getLast? = some waiter.ts

structure WellFormed (lock : WaitDieLock) : Prop
    extends Promotable lock.ownerList lock.waiterList where
  waiter_needs_owner : lock.ownerList.owners = [] → lock.waiterList = []
  upgrade_waits : ∀ waiter ∈ lock.waiterList, waiter.op = .U → 1 < lock.ownerList.owners.length

def Status.spinning : Status → Bool
  | .waitShared | .waitExclusive | .waitUpgrade => true
  | _ => false

theorem status_of_waiter {lock : WaitDieLock} {waiter : WaiterNode}
    (sorted : Descending WaiterNode.ts lock.waiterList) (member : waiter ∈ lock.waiterList) :
    lock.status waiter.ts = waiter.op.waitStatus := by
  obtain ⟨found, foundEq⟩ : ∃ found,
      lock.waiterList.find? (fun node => node.ts = waiter.ts) = some found := by
    apply Option.isSome_iff_exists.mp
    rw [List.find?_isSome]
    exact ⟨waiter, member, by simp⟩
  have foundMem := List.mem_of_find?_eq_some foundEq
  have foundTs : found.ts = waiter.ts := by simpa using List.find?_some foundEq
  have same : found = waiter := sorted.eq_of_key _ foundMem member foundTs
  rw [WaitDieLock.status, foundEq, same]

theorem status_of_not_waiter {lock : WaitDieLock} {ts : Nat}
    (absent : ∀ waiter ∈ lock.waiterList, waiter.ts ≠ ts) :
    lock.status ts = if ts ∈ lock.ownerList.owners then
      (if lock.ownerList.op = .E then .exclusive else .shared) else .free := by
  have none : lock.waiterList.find? (fun node => node.ts = ts) = none := by
    rw [List.find?_eq_none]
    intro waiter member
    simpa using absent waiter member
  rw [WaitDieLock.status, none]

theorem status_congr {before after : WaitDieLock} {ts : Nat}
    (beforeSorted : Descending WaiterNode.ts before.waiterList)
    (afterSorted : Descending WaiterNode.ts after.waiterList)
    (waiters : ∀ waiter : WaiterNode, waiter.ts = ts →
      (waiter ∈ after.waiterList ↔ waiter ∈ before.waiterList))
    (owners : ts ∈ after.ownerList.owners ↔ ts ∈ before.ownerList.owners)
    (mode : ts ∈ before.ownerList.owners →
      (after.ownerList.op = .E ↔ before.ownerList.op = .E)) :
    after.status ts = before.status ts := by
  by_cases spinning : ∃ waiter ∈ before.waiterList, waiter.ts = ts
  · obtain ⟨waiter, member, rfl⟩ := spinning
    rw [status_of_waiter beforeSorted member,
      status_of_waiter afterSorted ((waiters waiter rfl).mpr member)]
  · push Not at spinning
    have absent : ∀ waiter ∈ after.waiterList, waiter.ts ≠ ts := by
      intro waiter member same
      exact spinning waiter ((waiters waiter same).mp member) same
    rw [status_of_not_waiter spinning, status_of_not_waiter absent]
    by_cases owner : ts ∈ before.ownerList.owners
    · simp [owner, owners.mpr owner, mode owner]
    · simp [owner, mt owners.mp owner]

namespace Promotable

variable {list : OwnerList} {waiter : WaiterNode} {rest : List WaiterNode}

theorem head_below (promotable : Promotable list (waiter :: rest)) (notUpgrade : waiter.op ≠ .U) :
    (list.insert waiter.ts).owners = list.owners ++ [waiter.ts] :=
  TimestampSortedList.insert_below id waiter.ts list.owners fun owner member =>
    promotable.waiter_below waiter (by simp) notUpgrade owner member

theorem rest_below (promotable : Promotable list (waiter :: rest)) :
    ∀ other ∈ rest, other.ts < waiter.ts :=
  (List.pairwise_cons.mp promotable.waiters_descending).1

theorem rest_not_upgrade (promotable : Promotable list (waiter :: rest)) :
    ∀ other ∈ rest, other.op ≠ .U := by
  intro other member upgrade
  have below := promotable.rest_below other member
  obtain ⟨-, last⟩ := promotable.upgrade_smallest other (by simp [member]) upgrade
  have otherOwner := List.mem_of_getLast? last
  by_cases headUpgrade : waiter.op = .U
  · obtain ⟨-, headLast⟩ := promotable.upgrade_smallest waiter (by simp) headUpgrade
    rw [last] at headLast
    have := Option.some.inj headLast
    omega
  · have := promotable.waiter_below waiter (by simp) headUpgrade other.ts otherOwner
    omega

theorem promote_head (promotable : Promotable list (waiter :: rest))
    (notUpgrade : waiter.op ≠ .U) (op : Operation) (opCases : op = .S ∨ op = .E)
    (single : op = .E → list.owners = []) :
    Promotable { list.insert waiter.ts with op := op } rest where
  idle_iff := by
    rw [promotable.head_below notUpgrade]
    rcases opCases with rfl | rfl <;> simp
  exclusive_single := by
    intro exclusive
    rw [promotable.head_below notUpgrade]
    simp [single exclusive]
  op_ne_upgrade := by rcases opCases with rfl | rfl <;> simp
  owners_descending := by
    rw [promotable.head_below notUpgrade]
    refine List.pairwise_append.mpr ⟨promotable.owners_descending, by simp, ?_⟩
    intro owner member other otherMem
    rw [List.mem_singleton.mp otherMem]
    exact promotable.waiter_below waiter (by simp) notUpgrade owner member
  waiters_descending := (List.pairwise_cons.mp promotable.waiters_descending).2
  waiter_op := fun other member => promotable.waiter_op other (by simp [member])
  waiter_below := by
    intro other member otherUpgrade owner ownerMem
    rw [promotable.head_below notUpgrade] at ownerMem
    rcases List.mem_append.mp ownerMem with old | new
    · exact promotable.waiter_below other (by simp [member]) otherUpgrade owner old
    · rw [List.mem_singleton.mp new]
      exact promotable.rest_below other member
  upgrade_smallest := fun other member upgrade =>
    absurd upgrade (promotable.rest_not_upgrade other member)

theorem promote_upgrade (promotable : Promotable list (waiter :: rest))
    (single : list.owners.length = 1) : Promotable { list with op := .E } rest where
  idle_iff := by
    have : list.owners ≠ [] := by
      intro empty
      simp [empty] at single
    simp [this]
  exclusive_single := fun _ => single
  op_ne_upgrade := by simp
  owners_descending := promotable.owners_descending
  waiters_descending := (List.pairwise_cons.mp promotable.waiters_descending).2
  waiter_op := fun other member => promotable.waiter_op other (by simp [member])
  waiter_below := fun other member => promotable.waiter_below other (by simp [member])
  upgrade_smallest := fun other member upgrade =>
    absurd upgrade (promotable.rest_not_upgrade other member)

theorem status_rest {list' : OwnerList} (promotable : Promotable list (waiter :: rest))
    {ts : Nat} (other : ts ≠ waiter.ts)
    (owners : ts ∈ list'.owners ↔ ts ∈ list.owners)
    (mode : ts ∈ list.owners → (list'.op = .E ↔ list.op = .E)) :
    WaitDieLock.status ⟨rest, list'⟩ ts = WaitDieLock.status ⟨waiter :: rest, list⟩ ts := by
  refine @status_congr ⟨waiter :: rest, list⟩ ⟨rest, list'⟩ _
    promotable.waiters_descending (List.pairwise_cons.mp promotable.waiters_descending).2
    ?_ owners mode
  intro node nodeTs
  have : node ≠ waiter := by
    rintro rfl
    exact other nodeTs.symm
  simp [this]

theorem status_head (promotable : Promotable list (waiter :: rest)) {list' : OwnerList}
    (owner : waiter.ts ∈ list'.owners) :
    WaitDieLock.status ⟨rest, list'⟩ waiter.ts = if list'.op = .E then .exclusive else .shared := by
  rw [status_of_not_waiter]
  · simp [owner]
  · intro node member
    exact (promotable.rest_below node member).ne

end Promotable

def Promotes (before after : WaitDieLock) (released : List Nat) : Prop :=
  ∀ ts, (ts ∈ released → (before.status ts).spinning = true ∧
      after.status ts = (before.status ts).promoted) ∧
    (ts ∉ released → after.status ts = before.status ts)

theorem Promotes.refl (lock : WaitDieLock) : Promotes lock lock [] := by
  intro ts
  simp

theorem Promotes.cons {before middle after : WaitDieLock} {first : Nat} {released : List Nat}
    (firstSpun : (before.status first).spinning = true)
    (firstGranted : middle.status first = (before.status first).promoted)
    (others : ∀ ts, ts ≠ first → middle.status ts = before.status ts)
    (later : Promotes middle after released) : Promotes before after (first :: released) := by
  have firstDone : (middle.status first).spinning = false := by
    rw [firstGranted]
    cases standing : before.status first <;> simp_all [Status.spinning, Status.promoted]
  intro ts
  by_cases isFirst : ts = first
  · subst ts
    have notAgain : first ∉ released := by
      intro again
      rw [((later first).1 again).1] at firstDone
      cases firstDone
    refine ⟨fun _ => ⟨firstSpun, ?_⟩, fun absent => absurd (by simp) absent⟩
    rw [(later first).2 notAgain, firstGranted]
  · rw [← others ts isFirst]
    simpa [isFirst] using later ts

/-- One lemma for the whole loop: it throws nothing, ends in a well-formed
lock, and promotes exactly the clients it reports. -/
theorem promoteWaiters_spec : ∀ (waiters : List WaiterNode) (list : OwnerList),
    Promotable list waiters →
      ∃ list' waiters' released, promoteWaiters list waiters = .ok (list', waiters', released) ∧
        WellFormed ⟨waiters', list'⟩ ∧ Promotes ⟨waiters, list⟩ ⟨waiters', list'⟩ released := by
  intro waiters
  induction waiters with
  | nil =>
    intro list promotable
    exact ⟨list, [], [], rfl, { promotable with
      waiter_needs_owner := fun _ => rfl
      upgrade_waits := by simp }, .refl _⟩
  | cons waiter rest ih =>
    intro list promotable
    have finished (blocked : list.owners ≠ [])
        (upgrading : waiter.op = .U → 1 < list.owners.length) :
        WellFormed ⟨waiter :: rest, list⟩ := { promotable with
      waiter_needs_owner := fun empty => absurd empty blocked
      upgrade_waits := by
        intro node member upgrade
        rcases List.mem_cons.mp member with rfl | inRest
        · exact upgrading upgrade
        · exact absurd upgrade (promotable.rest_not_upgrade node inRest) }
    have headStatus : WaitDieLock.status ⟨waiter :: rest, list⟩ waiter.ts = waiter.op.waitStatus :=
      status_of_waiter promotable.waiters_descending (by simp)
    have joins (op : Operation) (notUpgrade : waiter.op ≠ .U) (opCases : op = .S ∨ op = .E)
        (keeps : list.owners ≠ [] → (op = .E ↔ list.op = .E)) (single : op = .E → list.owners = [])
        (mode : waiter.op.waitStatus.promoted = if op = .E then .exclusive else .shared) :
        ∃ list' waiters' released,
          promoteWaiters { list.insert waiter.ts with op := op } rest =
            .ok (list', waiters', released) ∧
          WellFormed ⟨waiters', list'⟩ ∧
          Promotes ⟨waiter :: rest, list⟩ ⟨waiters', list'⟩ (waiter.ts :: released) := by
      obtain ⟨list', waiters', released, success, wellFormed, later⟩ :=
        ih _ (promotable.promote_head notUpgrade op opCases single)
      have appended := promotable.head_below notUpgrade
      refine ⟨list', waiters', released, success, wellFormed, .cons ?_ ?_ ?_ later⟩
      · rw [headStatus]
        have := promotable.waiter_op waiter (by simp)
        cases waiterOp : waiter.op <;> simp_all [Operation.waitStatus, Status.spinning]
      · rw [headStatus, mode, promotable.status_head (by simp [appended])]
      · intro ts other
        apply promotable.status_rest other
        · simp [appended, other]
        · intro member
          exact keeps (List.ne_nil_of_mem member)
    have idleEmpty := promotable.idle_iff
    cases waiterOp : waiter.op with
    | I => exact absurd waiterOp (promotable.waiter_op waiter (by simp))
    | S =>
      cases listOp : list.op with
      | U => exact absurd listOp promotable.op_ne_upgrade
      | E =>
        refine ⟨list, waiter :: rest, [], by simp [promoteWaiters, waiterOp, listOp],
          finished ?_ (by simp [waiterOp]), .refl _⟩
        intro empty
        simp [idleEmpty.mpr empty] at listOp
      | I =>
        obtain ⟨list', waiters', released, success, wellFormed, later⟩ :=
          joins .S (by simp [waiterOp]) (.inl rfl)
            (fun nonempty => absurd (idleEmpty.mp listOp) nonempty) (by simp)
            (by simp [waiterOp, Operation.waitStatus, Status.promoted])
        exact ⟨list', waiters', waiter.ts :: released,
          by simp [promoteWaiters, waiterOp, listOp, success], wellFormed, later⟩
      | S =>
        obtain ⟨list', waiters', released, success, wellFormed, later⟩ :=
          joins .S (by simp [waiterOp]) (.inl rfl) (by simp [listOp]) (by simp)
            (by simp [waiterOp, Operation.waitStatus, Status.promoted])
        exact ⟨list', waiters', waiter.ts :: released,
          by simp [promoteWaiters, waiterOp, listOp, success], wellFormed, later⟩
    | E =>
      by_cases idle : list.op = .I
      · obtain ⟨list', waiters', released, success, wellFormed, later⟩ :=
          joins .E (by simp [waiterOp]) (.inr rfl)
            (fun nonempty => absurd (idleEmpty.mp idle) nonempty)
            (fun _ => idleEmpty.mp idle)
            (by simp [waiterOp, Operation.waitStatus, Status.promoted])
        exact ⟨list', waiters', waiter.ts :: released,
          by simp [promoteWaiters, waiterOp, idle, success], wellFormed, later⟩
      · have busy : list.op = .S ∨ list.op = .E := by
          have := promotable.op_ne_upgrade
          cases listOp : list.op <;> simp_all
        exact ⟨list, waiter :: rest, [], by simp [promoteWaiters, waiterOp, busy],
          finished (fun empty => idle (idleEmpty.mpr empty)) (by simp [waiterOp]), .refl _⟩
    | U =>
      obtain ⟨listOp, last⟩ := promotable.upgrade_smallest waiter (by simp) waiterOp
      have nonempty : list.owners ≠ [] := by
        intro empty
        simp [empty] at last
      by_cases single : list.owners.length = 1
      · obtain ⟨list', waiters', released, success, wellFormed, later⟩ :=
          ih _ (promotable.promote_upgrade single)
        have onlyOwner : list.owners = [waiter.ts] := by
          obtain ⟨owner, ownerEq⟩ := List.length_eq_one_iff.mp single
          rw [ownerEq] at last ⊢
          simpa using last
        refine ⟨list', waiters', waiter.ts :: released,
          by simp [promoteWaiters, waiterOp, listOp, OwnerList.getSize, single, success],
          wellFormed, .cons ?_ ?_ ?_ later⟩
        · simp [headStatus, waiterOp, Operation.waitStatus, Status.spinning]
        · rw [headStatus, promotable.status_head (by simp [onlyOwner])]
          simp [waiterOp, Operation.waitStatus, Status.promoted]
        · intro ts other
          apply promotable.status_rest other
          · exact Iff.rfl
          · simp [onlyOwner, other]
      · have several : 1 < list.owners.length := by
          have := List.length_pos_of_ne_nil nonempty
          omega
        exact ⟨list, waiter :: rest, [],
          by simp [promoteWaiters, waiterOp, listOp, OwnerList.getSize, several],
          finished nonempty (fun _ => several), .refl _⟩

/-! ## The entry points -/

structure Moves (before after : WaitDieLock) (ts : Nat) (standing : Status) : Prop where
  wellFormed : WellFormed after
  caller : after.status ts = standing
  others : ∀ other, other ≠ ts → after.status other = before.status other

theorem status_free {lock : WaitDieLock} {ts : Nat} (wellFormed : WellFormed lock)
    (free : lock.status ts = .free) :
    (∀ waiter ∈ lock.waiterList, waiter.ts ≠ ts) ∧ ts ∉ lock.ownerList.owners := by
  have absent : ∀ waiter ∈ lock.waiterList, waiter.ts ≠ ts := by
    rintro waiter member rfl
    rw [status_of_waiter wellFormed.waiters_descending member] at free
    have := wellFormed.waiter_op waiter member
    cases op : waiter.op <;> simp_all [Operation.waitStatus]
  refine ⟨absent, fun owner => ?_⟩
  rw [status_of_not_waiter absent, if_pos owner] at free
  split at free <;> cases free

theorem status_owner {lock : WaitDieLock} {ts : Nat} (wellFormed : WellFormed lock)
    (held : lock.status ts = .shared ∨ lock.status ts = .exclusive) :
    (∀ waiter ∈ lock.waiterList, waiter.ts ≠ ts) ∧ ts ∈ lock.ownerList.owners ∧
      (lock.status ts = .shared → lock.ownerList.op = .S) ∧
      (lock.status ts = .exclusive → lock.ownerList.op = .E) := by
  have absent : ∀ waiter ∈ lock.waiterList, waiter.ts ≠ ts := by
    rintro waiter member rfl
    rw [status_of_waiter wellFormed.waiters_descending member] at held
    cases op : waiter.op <;> simp_all [Operation.waitStatus]
  have standing := status_of_not_waiter absent
  have owner : ts ∈ lock.ownerList.owners := by
    by_contra missing
    rw [standing, if_neg missing] at held
    simp at held
  rw [if_pos owner] at standing
  have notIdle : lock.ownerList.op ≠ .I := by
    intro idle
    rw [wellFormed.idle_iff.mp idle] at owner
    cases owner
  have notUpgrade := wellFormed.op_ne_upgrade
  refine ⟨absent, owner, ?_, ?_⟩ <;> intro mode <;> rw [standing] at mode <;>
    cases op : lock.ownerList.op <;> simp_all

theorem getMinTimestamp_spec {list : OwnerList} (sorted : Descending id list.owners)
    (nonempty : list.owners ≠ []) :
    ∃ minTs, list.getMinTimestamp = .ok minTs ∧ list.owners.getLast? = some minTs ∧
      minTs ∈ list.owners ∧ ∀ owner ∈ list.owners, minTs ≤ owner := by
  obtain ⟨minTs, last⟩ := Option.isSome_iff_exists.mp (List.getLast?_isSome.mpr nonempty)
  obtain ⟨member, smallest⟩ := TimestampSortedList.getLast_smallest id sorted last
  refine ⟨minTs, by simp [OwnerList.getMinTimestamp, TimestampSortedList.getBackTimestamp, last],
    last, member, ?_⟩
  intro owner ownerMem
  rcases smallest owner ownerMem with rfl | below
  · exact le_rfl
  · exact below.le

theorem spin_wellFormed {lock : WaitDieLock} {ts : Nat} {op : Operation}
    (wellFormed : WellFormed lock) (absent : ∀ waiter ∈ lock.waiterList, waiter.ts ≠ ts)
    (busy : lock.ownerList.owners ≠ []) (opIdle : op ≠ .I)
    (below : op ≠ .U → ∀ owner ∈ lock.ownerList.owners, ts < owner)
    (upgrade : op = .U → lock.ownerList.op = .S ∧ lock.ownerList.owners.getLast? = some ts ∧
      1 < lock.ownerList.owners.length) :
    Moves lock { lock with
      waiterList := TimestampSortedList.insert WaiterNode.ts ⟨ts, op⟩ lock.waiterList }
      ts op.waitStatus := by
  have mem := TimestampSortedList.mem_insert WaiterNode.ts ⟨ts, op⟩
  have sorted := TimestampSortedList.insert_descending WaiterNode.ts ⟨ts, op⟩ lock.waiterList
    wellFormed.waiters_descending absent
  refine ⟨{ wellFormed with
      waiters_descending := sorted
      waiter_op := ?_
      waiter_below := ?_
      upgrade_smallest := ?_
      waiter_needs_owner := fun empty => absurd empty busy
      upgrade_waits := ?_ }, ?_, ?_⟩
  · intro waiter member
    rcases (mem waiter lock.waiterList).mp member with rfl | old
    · exact opIdle
    · exact wellFormed.waiter_op waiter old
  · intro waiter member notUpgrade
    rcases (mem waiter lock.waiterList).mp member with rfl | old
    · exact below notUpgrade
    · exact wellFormed.waiter_below waiter old notUpgrade
  · intro waiter member isUpgrade
    rcases (mem waiter lock.waiterList).mp member with rfl | old
    · exact ⟨(upgrade isUpgrade).1, (upgrade isUpgrade).2.1⟩
    · exact wellFormed.upgrade_smallest waiter old isUpgrade
  · intro waiter member isUpgrade
    rcases (mem waiter lock.waiterList).mp member with rfl | old
    · exact (upgrade isUpgrade).2.2
    · exact wellFormed.upgrade_waits waiter old isUpgrade
  · exact @status_of_waiter _ ⟨ts, op⟩ sorted ((mem _ _).mpr (.inl rfl))
  · intro other differs
    refine status_congr wellFormed.waiters_descending sorted ?_ Iff.rfl fun _ => Iff.rfl
    rintro waiter rfl
    have : waiter ≠ ⟨ts, op⟩ := by
      rintro rfl
      exact differs rfl
    simp [mem, this]

end TpccRunner.WaitDie
