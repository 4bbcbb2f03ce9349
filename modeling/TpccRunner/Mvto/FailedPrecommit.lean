import Mathlib
import TpccRunner.Mvto.SessionInvariant

/-!
# A failed `precommit` of MVTO

When an element does not pass the lock-and-check loop, `remove_already_inserted` and
`unlock_writeset` walk over the write set again up to that element.  The walks undo exactly
what the loop has done, and `abort` gives back exactly the blocks that are left.
-/

set_option autoImplicit false

namespace TpccRunner.Mvto

open Lib

variable {T K R : Type} [LinearOrder K]

namespace Session

def IsNew (s : Session T K R) (address : T × K) : Prop :=
  ∃ e, s.rws address = some e ∧ e.isNew = true

def valOf (s : Session T K R) (address : T × K) : Nat := (s.rws address).elim 0 Element.val

/-! ## Blocks -/

/-- The blocks that a transaction may have for a key. -/
def Owns (s : Session T K R) (address : T × K) (block : Block T K) : Prop :=
  block = .record address ∨
    ∃ e version, s.rws address = some e ∧ e.isNew = true ∧ s.db.value e.val = [version] ∧
      (block = .version version.id ∨ block = .value e.val)

theorem Owns.unique {s : Session T K R} {address other : T × K} {block : Block T K}
    (inv : s.Local) (first : s.Owns address block) (second : s.Owns other block) :
    address = other := by
  obtain rfl | ⟨e, version, present, isNew, chain, kind⟩ := first
  · obtain same | ⟨e', version', -, -, -, kind'⟩ := second
    · exact Block.record.inj same
    · obtain same | same := kind' <;> cases same
  · obtain rfl | ⟨e', version', present', isNew', chain', kind'⟩ := second
    · obtain same | same := kind <;> cases same
    · obtain rfl | rfl := kind
      · obtain same | same := kind'
        · by_contra different
          refine inv.apart _ _ _ _ present present' isNew isNew' different version ?_ version' ?_
            (Block.version.inj same).symm
          · rw [chain]
            exact List.mem_singleton_self _
          · rw [chain']
            exact List.mem_singleton_self _
        · cases same
      · obtain same | same := kind'
        · cases same
        · have home := (inv.element _ _ present).home
          rw [Block.value.inj same, (inv.element _ _ present').home] at home
          exact home.symm

theorem Local.val_ne {s : Session T K R} {address other : T × K} {e e' : Element R} (inv : s.Local)
    (present : s.rws address = some e) (present' : s.rws other = some e')
    (different : address ≠ other) : e.val ≠ e'.val := by
  intro same
  have home := (inv.element address e present).home
  rw [same, (inv.element other e' present').home] at home
  exact different home.symm

/-- Every block has been deallocated once, either before or for a key that is spent. -/
structure Accounted (s : Session T K R) (spent : T × K → Prop) (freed : List (Block T K)) :
    Prop where
  once : freed.Nodup
  owner : ∀ block ∈ freed, block ∈ s.freed ∨ ∃ address, spent address ∧ s.Owns address block

theorem Accounted.mono {s : Session T K R} {spent spent' : T × K → Prop} {freed : List (Block T K)}
    (accounted : s.Accounted spent freed) (more : ∀ address, spent address → spent' address) :
    s.Accounted spent' freed := by
  refine ⟨accounted.once, fun block member => ?_⟩
  obtain before | ⟨address, isSpent, owned⟩ := accounted.owner block member
  · exact .inl before
  · exact .inr ⟨address, more address isSpent, owned⟩

theorem Accounted.spend {s : Session T K R} {spent spent' : T × K → Prop}
    {freed blocks : List (Block T K)} (accounted : s.Accounted spent freed) (inv : s.Local)
    (address : T × K) (live : ¬ spent address) (once : blocks.Nodup)
    (owned : ∀ block ∈ blocks, s.Owns address block)
    (unfreed : ∀ block ∈ blocks, block ∉ s.freed) (more : ∀ other, spent other → spent' other)
    (now : spent' address) : s.Accounted spent' (freed ++ blocks) := by
  refine ⟨List.nodup_append.mpr ⟨accounted.once, once, ?_⟩, ?_⟩
  · rintro block before _ member rfl
    obtain old | ⟨other, isSpent, owned'⟩ := accounted.owner block before
    · exact unfreed block member old
    · exact live (Owns.unique inv (owned block member) owned' ▸ isSpent)
  · intro block member
    rcases List.mem_append.mp member with before | after
    · exact (accounted.mono more).owner block before
    · exact .inr ⟨address, now, owned block after⟩

/-- Only the local record of a key can have been deallocated by an operation, and then the
element does not point to it any more. -/
theorem Local.unfreed {s : Session T K R} {address : T × K} {e : Element R} (inv : s.Local)
    (present : s.rws address = some e) (buffer : e.writeRec.isSome) :
    Block.record address ∉ s.freed := by
  intro member
  obtain ⟨other, e', same, present', -, none'⟩ := inv.freed _ member
  cases same
  cases present.symm.trans present'
  rw [none'] at buffer
  cases buffer

theorem Local.version_unfreed {s : Session T K R} (inv : s.Local) (id : Nat) :
    Block.version id ∉ s.freed := by
  intro member
  obtain ⟨other, e', same, -⟩ := inv.freed _ member
  cases same

theorem Local.value_unfreed {s : Session T K R} (inv : s.Local) (val : Nat) :
    Block.value val ∉ s.freed := by
  intro member
  obtain ⟨other, e', same, -⟩ := inv.freed _ member
  cases same

/-! ## Progress of the loop and of the walks -/

/-- A session in `precommit`: the new keys of `inserted` are in the index, those of `gone`
have been taken out again. -/
structure Progress (s₀ : Session T K R) (inserted gone : List (T × K)) (s : Session T K R) :
    Prop where
  startTs : s.startTs = s₀.startTs
  rws : s.rws = s₀.rws
  tables : s.tables = s₀.tables
  ws : ∀ table, (s.ws table).Perm (s₀.ws table)
  lookup : ∀ address, ¬ (address ∈ inserted ∧ s₀.IsNew address) →
    s.db.lookup address = s₀.db.lookup address
  absent : ∀ address ∈ inserted, s₀.IsNew address → s₀.db.lookup address = none
  found : ∀ address ∈ inserted, ∀ e, s₀.rws address = some e → e.isNew = true →
    s.db.lookup address = some e.val ∧ ∃ version, s₀.db.value e.val = [version] ∧
      s.db.value e.val = [{ version with record := e.writeRec }]
  removed : ∀ address ∈ gone, ∀ e, s₀.rws address = some e → e.isNew = true →
    s.db.value e.val = []
  live : ∀ address, address ∉ gone → ∀ e version, s₀.rws address = some e → e.isNew = true →
    s₀.db.value e.val = [version] → ∃ record, s.db.value e.val = [{ version with record := record }]
  other : ∀ val, (∀ address e, s₀.rws address = some e → e.isNew = true → e.val ≠ val) →
    s.db.value val = s₀.db.value val
  accounted : s₀.Accounted (fun address => address ∈ gone ∧ s₀.IsNew address) s.freed
  noValue : ∀ val, Block.value val ∉ s.freed
  collected : ∀ val ∈ s.collected, val ∈ s₀.collected ∨
    ∃ address ∈ gone, s₀.IsNew address ∧ val = s₀.valOf address

theorem Progress.start {s : Session T K R} (inv : s.Local) : Progress s [] [] s where
  startTs := rfl
  rws := rfl
  tables := rfl
  ws _ := List.Perm.refl _
  lookup _ _ := rfl
  absent _ member := absurd member List.not_mem_nil
  found _ member := absurd member List.not_mem_nil
  removed _ member := absurd member List.not_mem_nil
  live _ _ _ version _ _ chain := ⟨version.record, chain⟩
  other _ _ := rfl
  accounted := ⟨inv.freedOnce, fun _ member => .inl member⟩
  noValue := inv.value_unfreed
  collected _ member := .inl member

theorem Progress.locks {s₀ s : Session T K R} {inserted gone : List (T × K)}
    {locks : List LockEvent} (progress : Progress s₀ inserted gone s) :
    Progress s₀ inserted gone { s with locks := locks } :=
  ⟨progress.startTs, progress.rws, progress.tables, progress.ws, progress.lookup,
    progress.absent, progress.found, progress.removed, progress.live, progress.other,
    progress.accounted, progress.noValue, progress.collected⟩

theorem Progress.congr {s₀ s : Session T K R} {inserted inserted' gone gone' : List (T × K)}
    (progress : Progress s₀ inserted gone s)
    (sameInserted : ∀ address, s₀.IsNew address → (address ∈ inserted' ↔ address ∈ inserted))
    (sameGone : ∀ address, s₀.IsNew address → (address ∈ gone' ↔ address ∈ gone)) :
    Progress s₀ inserted' gone' s := by
  refine ⟨progress.startTs, progress.rws, progress.tables, progress.ws, ?_, ?_, ?_, ?_, ?_,
    progress.other, ?_, progress.noValue, ?_⟩
  · exact fun a outside => progress.lookup a fun inside =>
      outside ⟨(sameInserted a inside.2).mpr inside.1, inside.2⟩
  · exact fun a member isNew => progress.absent a ((sameInserted a isNew).mp member) isNew
  · exact fun a member e present isNew =>
      progress.found a ((sameInserted a ⟨e, present, isNew⟩).mp member) e present isNew
  · exact fun a member e present isNew =>
      progress.removed a ((sameGone a ⟨e, present, isNew⟩).mp member) e present isNew
  · exact fun a outside e version present isNew => progress.live a
      (fun member => outside ((sameGone a ⟨e, present, isNew⟩).mpr member)) e version present isNew
  · exact progress.accounted.mono fun a spent => ⟨(sameGone a spent.2).mpr spent.1, spent.2⟩
  · intro val member
    obtain old | ⟨a, inside, isNew, same⟩ := progress.collected val member
    · exact .inl old
    · exact .inr ⟨a, (sameGone a isNew).mpr inside, isNew, same⟩

theorem mem_append_of_old {s : Session T K R} {address other : T × K} (list : List (T × K))
    (old : ¬ s.IsNew address) (isNew : s.IsNew other) :
    other ∈ list ++ [address] ↔ other ∈ list := by
  have different : other ≠ address := by
    rintro rfl
    exact old isNew
  simp [different]

variable [LinearOrder T]

section Steps
variable {s₀ s : Session T K R} {inserted gone : List (T × K)} {address : T × K} {e : Element R}

theorem Progress.insertNew (progress : Progress s₀ inserted gone s) (inv : s₀.Local)
    (present : s₀.rws address = some e) (kept : address ∉ gone)
    (absent : e.isNew = true → s.db.lookup address = none) :
    Progress s₀ (inserted ++ [address]) gone (s.insertNew address e) := by
  unfold Session.insertNew
  split
  · rename_i new
    obtain ⟨-, isNew⟩ := new
    have absent₀ : s₀.db.lookup address = none := by
      by_cases before : address ∈ inserted ∧ s₀.IsNew address
      · exact progress.absent address before.1 before.2
      · rw [← progress.lookup address before]
        exact absent isNew
    refine ⟨progress.startTs, progress.rws, progress.tables, progress.ws, ?_, ?_, ?_, ?_, ?_, ?_,
      progress.accounted, progress.noValue, progress.collected⟩
    · intro a outside
      have different : a ≠ address := by
        rintro rfl
        exact outside ⟨List.mem_append_right _ (List.mem_singleton_self _), e, present, isNew⟩
      refine (lookup_insertKey s address a e.val).trans ?_
      rw [if_neg different]
      exact progress.lookup a fun inside =>
        outside ⟨List.mem_append_left _ inside.1, inside.2⟩
    · intro a member isNew'
      rcases List.mem_append.mp member with old | last
      · exact progress.absent a old isNew'
      · cases List.mem_singleton.mp last
        exact absent₀
    · intro a member e' present' isNew'
      by_cases same : a = address
      · subst same
        cases present.symm.trans present'
        obtain ⟨-, -, -, version, chain, -⟩ := (inv.element a e present).new isNew
        obtain ⟨record, chain'⟩ := progress.live a kept e version present isNew chain
        refine ⟨(lookup_insertKey s a a e.val).trans (if_pos rfl), version, chain, ?_⟩
        simp [setChain, chain']
      · have old : a ∈ inserted := (List.mem_append.mp member).resolve_right (by simpa using same)
        obtain ⟨found, version, chain, now⟩ := progress.found a old e' present' isNew'
        refine ⟨(lookup_insertKey s address a e.val).trans ?_, version, chain, ?_⟩
        · rw [if_neg same]
          exact found
        · exact (Function.update_of_ne (inv.val_ne present' present same) ..).trans now
    · intro a member e' present' isNew'
      have different : e'.val ≠ e.val :=
        inv.val_ne present' present fun same => kept (same ▸ member)
      exact (Function.update_of_ne different ..).trans
        (progress.removed a member e' present' isNew')
    · intro a outside e' version present' isNew' chain
      obtain ⟨record, chain'⟩ := progress.live a outside e' version present' isNew' chain
      by_cases same : e'.val = e.val
      · refine ⟨e.writeRec, ?_⟩
        simp [setChain, ← same, chain']
      · exact ⟨record, (Function.update_of_ne same ..).trans chain'⟩
    · intro val outside
      exact (Function.update_of_ne (outside address e present isNew).symm ..).trans
        (progress.other val outside)
  · rename_i old
    have notNew : ¬ s₀.IsNew address := by
      rintro ⟨e', present', isNew⟩
      cases present.symm.trans present'
      exact old ⟨((inv.element _ _ present).new isNew).1, isNew⟩
    exact progress.congr (fun _ => mem_append_of_old _ notNew) fun _ _ => Iff.rfl

theorem Progress.retract (progress : Progress s₀ (address :: inserted) gone s) (inv : s₀.Local)
    (present : s₀.rws address = some e) (once : address ∉ inserted) (kept : address ∉ gone) :
    Progress s₀ inserted (gone ++ [address]) (s.retract address e) := by
  by_cases isNew : e.isNew = true
  · have ok := inv.element address e present
    obtain ⟨isInsert, buffer, -, version, chain, -⟩ := ok.new isNew
    obtain ⟨record, chain'⟩ := progress.live address kept e version present isNew chain
    have valOf : s₀.valOf address = e.val := by simp [Session.valOf, present]
    unfold Session.retract
    rw [if_pos ⟨isInsert, isNew⟩, chain']
    dsimp only
    refine ⟨progress.startTs, progress.rws, progress.tables, progress.ws, ?_, ?_, ?_, ?_, ?_, ?_,
      ?_, ?_, ?_⟩
    · intro a outside
      refine (lookup_removeKey s address a).trans ?_
      by_cases same : a = address
      · subst same
        rw [if_pos rfl]
        exact (progress.absent a List.mem_cons_self ⟨e, present, isNew⟩).symm
      · rw [if_neg same]
        refine progress.lookup a fun inside => outside ⟨?_, inside.2⟩
        exact (List.mem_cons.mp inside.1).resolve_left same
    · exact fun a member => progress.absent a (List.mem_cons_of_mem _ member)
    · intro a member e' present' isNew'
      have different : a ≠ address := fun same => once (same ▸ member)
      obtain ⟨found, version₁, chain₁, now⟩ :=
        progress.found a (List.mem_cons_of_mem _ member) e' present' isNew'
      refine ⟨(lookup_removeKey s address a).trans ?_, version₁, chain₁, ?_⟩
      · rw [if_neg different]
        exact found
      · exact (Function.update_of_ne (inv.val_ne present' present different) ..).trans now
    · intro a member e' present' isNew'
      by_cases same : e'.val = e.val
      · simp [setChain, same]
      · have different : a ≠ address := by
          rintro rfl
          cases present.symm.trans present'
          exact same rfl
        refine (Function.update_of_ne same ..).trans (progress.removed a ?_ e' present' isNew')
        exact (List.mem_append.mp member).resolve_right
          (by simpa using different)
    · intro a outside e' version₁ present' isNew' chain₁
      have different : a ≠ address := by
        rintro rfl
        exact outside (List.mem_append_right _ (List.mem_singleton_self _))
      obtain ⟨record', chain₂⟩ := progress.live a
        (fun member => outside (List.mem_append_left _ member)) e' version₁ present' isNew' chain₁
      exact ⟨record',
        (Function.update_of_ne (inv.val_ne present' present different) ..).trans chain₂⟩
    · intro val outside
      exact (Function.update_of_ne (outside address e present isNew).symm ..).trans
        (progress.other val outside)
    · refine progress.accounted.spend inv address (fun spent => kept spent.1) (by simp) ?_ ?_ ?_ ?_
      · intro block member
        rcases List.mem_cons.mp member with rfl | member
        · exact .inl rfl
        · cases List.mem_singleton.mp member
          exact .inr ⟨e, version, present, isNew, chain, .inl rfl⟩
      · intro block member
        rcases List.mem_cons.mp member with rfl | member
        · exact inv.unfreed present buffer
        · cases List.mem_singleton.mp member
          exact inv.version_unfreed _
      · exact fun other spent => ⟨List.mem_append_left _ spent.1, spent.2⟩
      · exact ⟨List.mem_append_right _ (List.mem_singleton_self _), e, present, isNew⟩
    · intro val member
      rcases List.mem_append.mp member with before | after
      · exact progress.noValue val before
      · simp at after
    · intro val member
      rcases List.mem_append.mp member with before | last
      · obtain old | ⟨a, inside, isNew', same⟩ := progress.collected val before
        · exact .inl old
        · exact .inr ⟨a, List.mem_append_left _ inside, isNew', same⟩
      · cases List.mem_singleton.mp last
        exact .inr ⟨address, List.mem_append_right _ (List.mem_singleton_self _),
          ⟨e, present, isNew⟩, valOf.symm⟩
  · have notNew : ¬ s₀.IsNew address := by
      rintro ⟨e', present', isNew'⟩
      cases present.symm.trans present'
      exact isNew isNew'
    unfold Session.retract
    rw [if_neg fun new => isNew new.2]
    refine progress.congr (fun a isNewKey => ?_) fun _ => mem_append_of_old _ notNew
    have different : a ≠ address := by
      rintro rfl
      exact notNew isNewKey
    simp [different]

end Steps

/-! ## The walks -/

def visitAll (visit : Session T K R → T × K → Element R → Session T K R) (s : Session T K R)
    (addresses : List (T × K)) : Session T K R :=
  addresses.foldl (fun s address => (s.rws address).elim s (visit s address)) s

/-- A walk visits what is in front of its last entry, and that one if it is inclusive. -/
theorem walk_eq {visit : Session T K R → T × K → Element R → Session T K R} {last : T × K}
    {endExclusive : Bool} {todo rest : List (T × K)} {s : Session T K R}
    (frame : ∀ s address e, (visit s address e).rws = s.rws) (once : last ∉ todo)
    (present : ∀ address ∈ todo ++ [last], (s.rws address).isSome) :
    walk visit last endExclusive (todo ++ last :: rest) s =
      .ok (visitAll visit s (if endExclusive then todo else todo ++ [last])) := by
  induction todo generalizing s with
  | nil =>
    obtain ⟨e, here⟩ := Option.isSome_iff_exists.mp (present last (by simp))
    cases endExclusive with
    | true => simp [walk, visitAll]
    | false => simp [walk, visitAll, here]
  | cons address todo ih =>
    have different : last ≠ address := fun same => once (same ▸ List.mem_cons_self)
    have once : last ∉ todo := fun member => once (List.mem_cons_of_mem _ member)
    obtain ⟨e, here⟩ := Option.isSome_iff_exists.mp (present address (by simp))
    have later : ∀ other ∈ todo ++ [last], ((visit s address e).rws other).isSome := by
      intro other member
      rw [frame]
      exact present other (by simpa using .inr (by simpa using member))
    have rest := ih once later
    cases endExclusive <;>
      simpa [walk, visitAll, here, different.symm] using rest

theorem retract_frame (s : Session T K R) (address : T × K) (e : Element R) :
    (s.retract address e).rws = s.rws ∧ (s.retract address e).locks = s.locks ∧
      (s.retract address e).ws = s.ws := by
  unfold retract
  split
  · split <;> exact ⟨rfl, rfl, rfl⟩
  · exact ⟨rfl, rfl, rfl⟩

section Walks
variable {s₀ s : Session T K R}

theorem Progress.retractAll {todo gone : List (T × K)} (progress : Progress s₀ todo gone s)
    (inv : s₀.Local) (once : todo.Nodup) (kept : ∀ address ∈ todo, address ∉ gone)
    (present : ∀ address ∈ todo, (s₀.rws address).isSome) :
    Progress s₀ [] (gone ++ todo) (visitAll Session.retract s todo) ∧
      (visitAll Session.retract s todo).locks = s.locks ∧
      (visitAll Session.retract s todo).ws = s.ws := by
  induction todo generalizing s gone with
  | nil => exact ⟨by simpa [visitAll] using progress, rfl, rfl⟩
  | cons address todo ih =>
    obtain ⟨outside, once⟩ := List.nodup_cons.mp once
    obtain ⟨e, here⟩ := Option.isSome_iff_exists.mp (present address List.mem_cons_self)
    have here' : s.rws address = some e := progress.rws ▸ here
    have head : visitAll Session.retract s (address :: todo) =
        visitAll Session.retract (s.retract address e) todo := by simp [visitAll, here']
    obtain ⟨rest, locks, ws⟩ := ih
      (progress.retract inv here outside (kept address List.mem_cons_self)) once
      (fun other member inside => by
        rcases List.mem_append.mp inside with old | last
        · exact kept other (List.mem_cons_of_mem _ member) old
        · cases List.mem_singleton.mp last
          exact outside member)
      fun other member => present other (List.mem_cons_of_mem _ member)
    rw [head]
    obtain ⟨-, locks', ws'⟩ := s.retract_frame address e
    exact ⟨by simpa using rest, locks.trans locks', ws.trans ws'⟩

omit [LinearOrder T] in
theorem unlockAll {inserted gone : List (T × K)} (progress : Progress s₀ inserted gone s)
    (addresses : List (T × K)) (present : ∀ address ∈ addresses, (s₀.rws address).isSome) :
    Progress s₀ inserted gone (visitAll (fun s _ e => s.unlock e.val) s addresses) ∧
      (visitAll (fun s _ e => s.unlock e.val) s addresses).locks =
        s.locks ++ addresses.map fun address => .unlock (s₀.valOf address) := by
  induction addresses generalizing s with
  | nil => exact ⟨progress, by simp [visitAll]⟩
  | cons address rest ih =>
    obtain ⟨e, here⟩ := Option.isSome_iff_exists.mp (present address List.mem_cons_self)
    have here' : s.rws address = some e := progress.rws ▸ here
    have head : visitAll (fun s _ e => s.unlock e.val) s (address :: rest) =
        visitAll (fun s _ e => s.unlock e.val) (s.unlock e.val) rest := by simp [visitAll, here']
    obtain ⟨later, locks⟩ := ih (s := s.unlock e.val) progress.locks
      fun other member => present other (List.mem_cons_of_mem _ member)
    rw [head]
    refine ⟨later, locks.trans ?_⟩
    simp [unlock, valOf, here]

def lockedFor (s₀ : Session T K R) (addresses : List (T × K)) : List LockEvent :=
  addresses.map fun address => .lock (s₀.valOf address)

def unlockedFor (s₀ : Session T K R) (addresses : List (T × K)) : List LockEvent :=
  addresses.map fun address => .unlock (s₀.valOf address)

structure Undone (s₀ : Session T K R) (taken gone : List (T × K)) (s : Session T K R) : Prop where
  progress : Progress s₀ [] gone s
  locks : s.locks = s₀.locks ++ s₀.lockedFor taken ++ s₀.unlockedFor taken
  once : taken.Nodup
  present : ∀ address ∈ taken, (s₀.rws address).isSome

theorem giveUp_spec {done rest : List (T × K)} {last : T × K} (endExclusive : Bool)
    (inv : s₀.Local)
    (progress : Progress s₀ (if endExclusive then done else done ++ [last]) [] s)
    (split : s.entries = done ++ last :: rest) (once : (done ++ [last]).Nodup)
    (present : ∀ address ∈ done ++ [last], (s₀.rws address).isSome)
    (locks : s.locks = s₀.locks ++ s₀.lockedFor (done ++ [last])) :
    ∃ after gone, s.giveUp last endExclusive = .ok (false, after) ∧
      Undone s₀ (done ++ [last]) gone after := by
  have outside : last ∉ done := fun member =>
    (List.nodup_append.mp once).2.2 last member last (List.mem_singleton_self _) rfl
  have present' : ∀ address ∈ done ++ [last], (s.rws address).isSome := by
    rw [progress.rws]
    exact present
  have subset : ∀ address ∈ (if endExclusive then done else done ++ [last]),
      address ∈ done ++ [last] := by
    cases endExclusive with
    | true => exact fun address member => List.mem_append_left _ member
    | false => exact fun address member => member
  have onceUndone : (if endExclusive then done else done ++ [last]).Nodup := by
    cases endExclusive with
    | true => exact (List.nodup_append.mp once).1
    | false => exact once
  obtain ⟨removed, sameLocks, sameWs⟩ := progress.retractAll inv onceUndone
    (fun _ _ => List.not_mem_nil) fun address member => present address (subset address member)
  have walked : s.removeAlreadyInserted last endExclusive =
      .ok (visitAll retract s (if endExclusive then done else done ++ [last])) := by
    unfold removeAlreadyInserted
    rw [split]
    exact walk_eq (fun s address e => (s.retract_frame address e).1) outside present'
  generalize visitAll retract s (if endExclusive then done else done ++ [last]) = middle at *
  have sameEntries : middle.entries = done ++ last :: rest := by
    rw [← split]
    unfold entries
    rw [sameWs, removed.tables, progress.tables]
  have unlocked : middle.unlockWriteset last false =
      .ok (visitAll (fun s _ e => s.unlock e.val) middle (done ++ [last])) := by
    unfold unlockWriteset
    rw [sameEntries]
    refine walk_eq (fun _ _ _ => rfl) outside ?_
    rw [removed.rws]
    exact present
  obtain ⟨final, finalLocks⟩ := unlockAll removed (done ++ [last]) present
  refine ⟨_, _, ?_, final, ?_, once, present⟩
  · unfold giveUp
    rw [walked, Except.bind, unlocked]
    rfl
  · rw [finalLocks, sameLocks, locks]
    rfl

end Walks

/-! ## The loop -/

section Loop
variable {s₀ s : Session T K R} (leafOf : T × K → Nat)

omit [LinearOrder T] in
/-- A new key passes or is retracted only where the index did not hold it. -/
theorem absent_of_check {leaf : Nat} {address : T × K} {e : Element R}
    (passed : s.check leaf address e ≠ .reject) (isInsert : e.rwt = .insert)
    (isNew : e.isNew = true) : s.db.lookup address = none := by
  unfold check at passed
  split at passed
  · exact absurd rfl passed
  · simp only [isInsert, isNew] at passed
    split at passed
    · exact absurd rfl passed
    · rename_i absent
      simpa using absent

theorem insertNew_frame (s : Session T K R) (address : T × K) (e : Element R) :
    (s.insertNew address e).ws = s.ws ∧ (s.insertNew address e).tables = s.tables ∧
      (s.insertNew address e).locks = s.locks := by
  unfold insertNew
  split <;> exact ⟨rfl, rfl, rfl⟩

theorem lockEntries_spec {done list more : List (T × K)} (inv : s₀.Local)
    (progress : Progress s₀ done [] s) (split : s.entries = done ++ (list ++ more))
    (once : (done ++ list).Nodup) (present : ∀ address ∈ done ++ list, (s₀.rws address).isSome)
    (locks : s.locks = s₀.locks ++ s₀.lockedFor done) :
    (∃ after, lockEntries leafOf list s = .ok (true, after) ∧
        Progress s₀ (done ++ list) [] after ∧ after.ws = s.ws ∧
        after.locks = s₀.locks ++ s₀.lockedFor (done ++ list)) ∨
      ∃ after taken gone, lockEntries leafOf list s = .ok (false, after) ∧
        Undone s₀ taken gone after := by
  induction list generalizing s done with
  | nil =>
    refine .inl ⟨s, rfl, ?_, rfl, ?_⟩
    · simpa using progress
    · simpa using locks
  | cons address rest ih =>
    have here : (s₀.rws address).isSome := present address (by simp)
    obtain ⟨e, here⟩ := Option.isSome_iff_exists.mp here
    have here' : s.rws address = some e := progress.rws ▸ here
    have split' : s.entries = done ++ address :: (rest ++ more) := by simpa using split
    have once' : (done ++ [address]).Nodup := by
      refine once.sublist ?_
      exact List.Sublist.append_left (List.Sublist.cons_cons _ (List.nil_sublist _)) done
    have present' : ∀ other ∈ done ++ [address], (s₀.rws other).isSome := by
      intro other member
      exact present other (by simp at member ⊢; tauto)
    have taken : Progress s₀ done [] (s.lock e.val) := progress.locks
    have takenLocks : (s.lock e.val).locks = s₀.locks ++ s₀.lockedFor (done ++ [address]) := by
      simp [lock, locks, lockedFor, valOf, here]
    have isInsert : e.isNew = true → e.rwt = .insert :=
      fun isNew => ((inv.element address e here).new isNew).1
    have absent : (s.lock e.val).check (leafOf address) address e ≠ .reject → e.isNew = true →
        (s.lock e.val).db.lookup address = none :=
      fun passed isNew => absent_of_check passed (isInsert isNew) isNew
    obtain ⟨sameWs, sameTables, sameLocks⟩ := insertNew_frame (s.lock e.val) address e
    have sameEntries : ((s.lock e.val).insertNew address e).entries = s.entries := by
      unfold entries
      rw [sameWs, sameTables]
      rfl
    unfold lockEntries
    simp only [here']
    cases verdict : (s.lock e.val).check (leafOf address) address e with
    | reject =>
      obtain ⟨after, gone, failed, undone⟩ := giveUp_spec true inv taken split'
        once' present' takenLocks
      exact .inr ⟨after, _, gone, failed, undone⟩
    | accept =>
      have inserted := taken.insertNew inv here List.not_mem_nil (absent (by simp [verdict]))
      have later := ih inserted (sameEntries.trans (by simpa using split))
        (by simpa using once) (by simpa using present) (sameLocks.trans takenLocks)
      simp only [List.append_assoc, List.singleton_append] at later
      obtain ⟨after, passed, progress', ws, locks'⟩ | failed := later
      · exact .inl ⟨after, passed, progress', ws.trans sameWs, locks'⟩
      · exact .inr failed
    | retract =>
      have inserted := taken.insertNew inv here List.not_mem_nil (absent (by simp [verdict]))
      obtain ⟨after, gone, failed, undone⟩ := giveUp_spec false inv inserted
        (sameEntries.trans split') once' present' (sameLocks.trans takenLocks)
      exact .inr ⟨after, _, gone, failed, undone⟩

def entriesOf (s : Session T K R) (tables : List T) : List (T × K) :=
  tables.flatMap fun table => (s.ws table).map fun key => (table, key)

omit [LinearOrder T] in
theorem mem_entriesOf {tables : List T} {address : T × K} :
    address ∈ s.entriesOf tables ↔ address.1 ∈ tables ∧ address.2 ∈ s.ws address.1 := by
  obtain ⟨table, key⟩ := address
  simp [entriesOf]

omit [LinearOrder T] in
theorem nodup_entriesOf {tables : List T} (tablesOnce : tables.Nodup)
    (once : ∀ table, (s.ws table).Nodup) : (s.entriesOf tables).Nodup := by
  refine List.nodup_flatMap.mpr ⟨?_, tablesOnce.imp fun different => ?_⟩
  · exact fun table _ => (once table).map fun _ _ same => congrArg Prod.snd same
  · intro address first second
    simp only [List.mem_map] at first second
    obtain ⟨_, -, rfl⟩ := first
    obtain ⟨_, -, same⟩ := second
    exact different (congrArg Prod.fst same).symm

theorem Progress.sortTable {inserted gone : List (T × K)} (progress : Progress s₀ inserted gone s)
    (table : T) : Progress s₀ inserted gone (s.sortTable table) := by
  refine ⟨progress.startTs, progress.rws, progress.tables, fun other => ?_, progress.lookup,
    progress.absent, progress.found, progress.removed, progress.live, progress.other,
    progress.accounted, progress.noValue, progress.collected⟩
  unfold Session.sortTable
  by_cases same : other = table
  · subst same
    simpa using (List.perm_insertionSort _ _).trans (progress.ws other)
  · simpa [same] using progress.ws other

theorem lockTables_spec {before rest : List T} (inv : s₀.Local) (split : s.tables = before ++ rest)
    (progress : Progress s₀ (s.entriesOf before) [] s)
    (locks : s.locks = s₀.locks ++ s₀.lockedFor (s.entriesOf before)) :
    (∃ after, lockTables leafOf rest s = .ok (true, after) ∧
        Progress s₀ after.entries [] after) ∨
      ∃ after taken gone, lockTables leafOf rest s = .ok (false, after) ∧
        Undone s₀ taken gone after := by
  induction rest generalizing s before with
  | nil =>
    have all : s.entries = s.entriesOf before := by simp [entries, entriesOf, split]
    exact .inl ⟨s, rfl, all ▸ progress⟩
  | cons table rest ih =>
    have tablesOnce : (before ++ table :: rest).Nodup := by
      rw [← split, progress.tables]
      exact inv.tables
    have fresh : table ∉ before := fun member =>
      (List.nodup_append.mp tablesOnce).2.2 table member table List.mem_cons_self rfl
    have sorted := progress.sortTable table
    have unchanged : (s.sortTable table).entriesOf before = s.entriesOf before := by
      unfold entriesOf
      refine List.flatMap_congr fun other member => ?_
      have different : other ≠ table := fun same => fresh (same ▸ member)
      simp [Session.sortTable, different]
    have all : (s.sortTable table).entries = s.entriesOf before ++
        (((s.sortTable table).ws table).map (fun key => (table, key)) ++
          (s.sortTable table).entriesOf rest) := by
      rw [← unchanged]
      simp [entries, entriesOf, Session.sortTable, split]
    have wsOnce : ∀ other, ((s.sortTable table).ws other).Nodup :=
      fun other => (sorted.ws other).nodup_iff.mpr (inv.keys other)
    have joined : s.entriesOf before ++
        ((s.sortTable table).ws table).map (fun key => (table, key)) =
          (s.sortTable table).entriesOf (before ++ [table]) := by
      rw [← unchanged]
      simp [entriesOf]
    have once : (s.entriesOf before ++
        ((s.sortTable table).ws table).map fun key => (table, key)).Nodup := by
      rw [joined]
      refine nodup_entriesOf (tablesOnce.sublist ?_) wsOnce
      exact List.Sublist.append_left (List.Sublist.cons_cons _ (List.nil_sublist _)) before
    have present : ∀ address ∈ s.entriesOf before ++
        ((s.sortTable table).ws table).map (fun key => (table, key)),
          (s₀.rws address).isSome := by
      intro address member
      rw [joined] at member
      obtain ⟨-, inSet⟩ := mem_entriesOf.mp member
      obtain ⟨e, here, -⟩ := (inv.written _ _).mp ((sorted.ws _).mem_iff.mp inSet)
      exact Option.isSome_iff_exists.mpr ⟨e, here⟩
    unfold lockTables
    dsimp only
    obtain ⟨after, passed, progress', ws, locks'⟩ | ⟨after, taken, gone, failed, undone⟩ :=
      lockEntries_spec leafOf inv sorted all once present locks
    · rw [passed]
      have entries' : after.entriesOf (before ++ [table]) = s.entriesOf before ++
          ((s.sortTable table).ws table).map fun key => (table, key) := by
        rw [joined]
        unfold entriesOf
        rw [ws]
      have split' : after.tables = before ++ [table] ++ rest := by
        rw [progress'.tables, ← progress.tables, split]
        simp
      refine ih split' ?_ ?_
      · rw [entries']
        exact progress'
      · rw [entries']
        exact locks'
    · rw [failed]
      exact .inr ⟨after, taken, gone, rfl, undone⟩

theorem precommit_cases (inv : s.Local) :
    (∃ after, s.precommit leafOf = .ok (true, after)) ∨
      ∃ after taken gone, s.precommit leafOf = .ok (false, after) ∧ Undone s taken gone after := by
  have applied : ∀ entries (s : Session T K R), (∀ address ∈ entries, (s.rws address).isSome) →
      ∃ after, applyEntries entries s = .ok after := by
    intro entries
    induction entries with
    | nil => exact fun s _ => ⟨s, rfl⟩
    | cons address rest ih =>
      intro s present
      obtain ⟨e, here⟩ := Option.isSome_iff_exists.mp (present address List.mem_cons_self)
      unfold applyEntries
      simp only [here]
      refine ih _ fun other member => ?_
      have kept : (s.applyEntry e).rws = s.rws := by
        unfold applyEntry
        dsimp only
        split <;> rfl
      rw [kept]
      exact present other (List.mem_cons_of_mem _ member)
  unfold precommit
  obtain ⟨locked, passed, progress⟩ | ⟨after, taken, gone, failed, undone⟩ :=
    lockTables_spec leafOf inv (List.nil_append s.tables).symm (Progress.start inv)
      (by simp [lockedFor, entriesOf])
  · rw [passed]
    dsimp only
    obtain ⟨after, done⟩ := applied locked.entries locked (by
      intro address member
      obtain ⟨-, inSet⟩ := mem_entriesOf.mp member
      obtain ⟨e, here, -⟩ := (inv.written _ _).mp ((progress.ws _).mem_iff.mp inSet)
      rw [progress.rws]
      exact Option.isSome_iff_exists.mpr ⟨e, here⟩)
    rw [done]
    exact .inl ⟨after, rfl⟩
  · rw [failed]
    exact .inr ⟨after, taken, gone, rfl, undone⟩

end Loop

/-! ## The clean-up by `abort` -/

section Abort
variable {s₀ s : Session T K R} {gone : List (T × K)}

/-- A session in `abort`: the blocks of the keys of `spent` are given back, except for those
that were given back with `gone`. -/
structure Discarding (s₀ : Session T K R) (gone spent : List (T × K)) (s₁ s : Session T K R) :
    Prop where
  rws : s.rws = s₀.rws
  db : s.db = s₁.db
  collected : s.collected = s₁.collected
  accounted : s₀.Accounted (fun address => address ∈ gone ∧ s₀.IsNew address ∨
    address ∈ spent ∧ ¬ (address ∈ gone ∧ s₀.IsNew address)) s.freed
  values : ∀ val, Block.value val ∈ s.freed →
    ∃ address e, s₀.rws address = some e ∧ e.isNew = true ∧ e.val = val ∧ address ∉ gone

theorem Discarding.discard {s₁ : Session T K R} {spent : List (T × K)} {address : T × K}
    {e : Element R} (inv : s₀.Local) (progress : Progress s₀ [] gone s₁)
    (discarding : Discarding s₀ gone spent s₁ s) (present : s₀.rws address = some e)
    (unspent : address ∉ spent) :
    Discarding s₀ gone (spent ++ [address]) s₁ (s.discard address e) := by
  have more : ∀ other, (other ∈ gone ∧ s₀.IsNew other ∨
      other ∈ spent ∧ ¬ (other ∈ gone ∧ s₀.IsNew other)) →
      other ∈ gone ∧ s₀.IsNew other ∨
        other ∈ spent ++ [address] ∧ ¬ (other ∈ gone ∧ s₀.IsNew other) := by
    rintro other (removed | ⟨before, notRemoved⟩)
    · exact .inl removed
    · exact .inr ⟨List.mem_append_left _ before, notRemoved⟩
  have kept : Discarding s₀ gone (spent ++ [address]) s₁ s :=
    ⟨discarding.rws, discarding.db, discarding.collected, discarding.accounted.mono more,
      discarding.values⟩
  have last : address ∈ spent ++ [address] :=
    List.mem_append_right _ (List.mem_singleton_self _)
  by_cases isNew : e.isNew = true
  · have isNewKey : s₀.IsNew address := ⟨e, present, isNew⟩
    obtain ⟨isInsert, buffer, -, version, chain, -⟩ := (inv.element address e present).new isNew
    unfold Session.discard
    rw [if_pos ⟨isInsert, isNew⟩]
    by_cases removed : address ∈ gone
    · have empty : s.db.value e.val = [] := by
        rw [discarding.db]
        exact progress.removed address removed e present isNew
      rw [empty]
      exact kept
    · obtain ⟨record, chain'⟩ := progress.live address removed e version present isNew chain
      rw [← discarding.db] at chain'
      rw [chain']
      dsimp only
      refine ⟨discarding.rws, discarding.db, discarding.collected, ?_, ?_⟩
      · refine discarding.accounted.spend inv address ?_ (by simp) ?_ ?_ more ?_
        · rintro (⟨inGone, -⟩ | ⟨before, -⟩)
          · exact removed inGone
          · exact unspent before
        · intro block member
          simp only [List.mem_cons, List.not_mem_nil, or_false] at member
          obtain rfl | rfl | rfl := member
          · exact .inl rfl
          · exact .inr ⟨e, version, present, isNew, chain, .inl rfl⟩
          · exact .inr ⟨e, version, present, isNew, chain, .inr rfl⟩
        · intro block member
          simp only [List.mem_cons, List.not_mem_nil, or_false] at member
          obtain rfl | rfl | rfl := member
          · exact inv.unfreed present buffer
          · exact inv.version_unfreed _
          · exact inv.value_unfreed _
        · exact .inr ⟨last, fun both => removed both.1⟩
      · intro val member
        rcases List.mem_append.mp member with before | after
        · exact discarding.values val before
        · simp only [List.mem_cons, List.not_mem_nil, or_false, reduceCtorEq, false_or,
            Block.value.injEq] at after
          exact ⟨address, e, present, isNew, after.symm, removed⟩
  · have notNew : ¬ (address ∈ gone ∧ s₀.IsNew address) := by
      rintro ⟨-, e', present', isNew'⟩
      cases present.symm.trans present'
      exact isNew isNew'
    unfold Session.discard
    rw [if_neg fun new => isNew new.2]
    split
    · rename_i buffer
      refine ⟨discarding.rws, discarding.db, discarding.collected, ?_, ?_⟩
      · refine discarding.accounted.spend inv address ?_ (by simp) ?_ ?_ more ?_
        · rintro (both | ⟨before, -⟩)
          · exact notNew both
          · exact unspent before
        · intro block member
          cases List.mem_singleton.mp member
          exact .inl rfl
        · intro block member
          cases List.mem_singleton.mp member
          exact inv.unfreed present buffer
        · exact .inr ⟨last, notNew⟩
      · intro val member
        rcases List.mem_append.mp member with before | after
        · exact discarding.values val before
        · simp at after
    · exact kept

theorem discardEntries_spec {s₁ : Session T K R} {spent entries : List (T × K)} (inv : s₀.Local)
    (progress : Progress s₀ [] gone s₁) (discarding : Discarding s₀ gone spent s₁ s)
    (present : ∀ address ∈ entries, (s₀.rws address).isSome) (once : entries.Nodup)
    (unspent : ∀ address ∈ entries, address ∉ spent) :
    ∃ after, discardEntries entries s = .ok after ∧
      Discarding s₀ gone (spent ++ entries) s₁ after := by
  induction entries generalizing s spent with
  | nil => exact ⟨s, rfl, by simpa using discarding⟩
  | cons address rest ih =>
    obtain ⟨e, here⟩ := Option.isSome_iff_exists.mp (present address List.mem_cons_self)
    obtain ⟨outside, once⟩ := List.nodup_cons.mp once
    have here' : s.rws address = some e := discarding.rws ▸ here
    unfold discardEntries
    simp only [here']
    obtain ⟨after, done, discarding'⟩ := ih
      (discarding.discard inv progress here (unspent address List.mem_cons_self))
      (fun other member => present other (List.mem_cons_of_mem _ member)) once
      (fun other member inside => by
        rcases List.mem_append.mp inside with before | last
        · exact unspent other (List.mem_cons_of_mem _ member) before
        · cases List.mem_singleton.mp last
          exact outside member)
    exact ⟨after, done, by simpa using discarding'⟩

theorem Undone.abort {taken : List (T × K)} (inv : s₀.Local) (undone : Undone s₀ taken gone s) :
    ∃ after, s.abort = .ok after ∧ after.freed.Nodup ∧
      ∀ val, Block.value val ∈ after.freed → val ∉ after.collected := by
  have progress := undone.progress
  have wsOnce : ∀ table, (s.ws table).Nodup :=
    fun table => (progress.ws table).nodup_iff.mpr (inv.keys table)
  have present : ∀ address ∈ s.entries, (s₀.rws address).isSome := by
    intro address member
    obtain ⟨-, inSet⟩ := mem_entriesOf.mp member
    obtain ⟨e, here, -⟩ := (inv.written _ _).mp ((progress.ws _).mem_iff.mp inSet)
    exact Option.isSome_iff_exists.mpr ⟨e, here⟩
  have discarding : Discarding s₀ gone [] s s :=
    ⟨progress.rws, rfl, rfl, progress.accounted.mono fun _ removed => .inl removed,
      fun val member => absurd member (progress.noValue val)⟩
  obtain ⟨after, done, final⟩ := discardEntries_spec inv progress discarding present
    (nodup_entriesOf (progress.tables ▸ inv.tables) wsOnce) fun _ _ => List.not_mem_nil
  have ended : s.abort =
      .ok { after with tables := [], rws := fun _ => none, ws := fun _ => [] } := by
    unfold Session.abort
    rw [done]
    rfl
  refine ⟨_, ended, final.accounted.once, ?_⟩
  intro val member handed
  obtain ⟨address, e, here, isNew, rfl, outside⟩ := final.values val member
  change e.val ∈ after.collected at handed
  rw [final.collected] at handed
  obtain before | ⟨other, removed, ⟨e', here', isNew'⟩, same⟩ := progress.collected _ handed
  · exact (inv.collected _ before).2 address e here isNew rfl
  · have home := (inv.element address e here).home
    rw [same, valOf, here', Option.elim_some, (inv.element other e' here').home] at home
    exact outside (home ▸ removed)

end Abort

end Session

/-! ## Runs -/

/-- A transaction makes a call, or other transactions change the shared part. -/
inductive Move (T K R : Type) [LinearOrder K] where
  | call (call : Call T K R)
  | others (db : Db T K R)

variable [LinearOrder T] [Inhabited R]

def stepMove (s : Session T K R) : Move T K R → Option (Session T K R)
  | .call call =>
    match s.call call with
    | .ok (_, after) => some after
    | .error _ => none
  | .others db => some { s with db := db }

/-- No key is removed after the transaction has inserted it, and the others leave the values
of the transaction alone. -/
def Undisturbed (s : Session T K R) : Move T K R → Prop
  | .call call => s.KeepsInserted call
  | .others db => s.Spares db

theorem run_local {startTs smallestTs : Nat} {db : Db T K R} {trace : List (Move T K R)}
    {s : Session T K R}
    (indexed : ∀ address val, db.lookup address = some val →
      db.home val = address ∧ val < db.nextValue)
    (run : Run stepMove Undisturbed (Session.new startTs smallestTs db) trace s) : s.Local := by
  refine run.invariant Session.Local (Session.Local.start indexed) ?_
  intro before move after inv ok taken
  cases move with
  | call call =>
    unfold stepMove at taken
    cases result : before.call call with
    | error fault =>
      simp only [result] at taken
      cases taken
    | ok outcome =>
      simp only [result] at taken
      cases taken
      exact inv.call ok result
  | others db =>
    cases taken
    exact inv.spares ok

/-- A failed `precommit` releases every lock it took exactly once, leaves the index and the
version chains of all values but the transaction's own as they were, and lets `abort`
deallocate every block at most once and no value that the garbage collector has. -/
theorem failedPrecommit_atomic (startTs smallestTs : Nat) (db : Db T K R)
    (indexed : ∀ address val, db.lookup address = some val →
      db.home val = address ∧ val < db.nextValue)
    (trace : List (Move T K R)) (s : Session T K R)
    (run : Run stepMove Undisturbed (Session.new startTs smallestTs db) trace s)
    (leafOf : T × K → Nat) :
    ∃ result after, s.precommit leafOf = .ok (result, after) ∧ (result = false →
      (∃ vals : List Nat, vals.Nodup ∧
        after.locks = s.locks ++ vals.map LockEvent.lock ++ vals.map LockEvent.unlock) ∧
      (∀ address, after.db.lookup address = s.db.lookup address) ∧
      (∀ val, (∀ address e, s.rws address = some e → e.isNew = true → e.val ≠ val) →
        after.db.value val = s.db.value val) ∧
      ∃ final, after.abort = .ok final ∧ final.freed.Nodup ∧
        ∀ val, Block.value val ∈ final.freed → val ∉ final.collected) := by
  have inv := run_local indexed run
  obtain ⟨after, passed⟩ | ⟨after, taken, gone, failed, undone⟩ :=
    Session.precommit_cases leafOf inv
  · exact ⟨true, after, passed, fun impossible => by cases impossible⟩
  · refine ⟨false, after, failed, fun _ => ⟨⟨taken.map s.valOf, ?_, ?_⟩, ?_, undone.progress.other,
      undone.abort inv⟩⟩
    · refine (List.nodup_map_iff_inj_on undone.once).mpr ?_
      intro first member second member' same
      obtain ⟨e, here⟩ := Option.isSome_iff_exists.mp (undone.present first member)
      obtain ⟨e', here'⟩ := Option.isSome_iff_exists.mp (undone.present second member')
      simp only [Session.valOf, here, here', Option.elim_some] at same
      rw [← (inv.element first e here).home, same, (inv.element second e' here').home]
    · rw [undone.locks]
      simp [Session.lockedFor, Session.unlockedFor, Function.comp_def]
    · exact fun address => undone.progress.lookup address fun inside =>
        absurd inside.1 List.not_mem_nil

/-! A transaction inserts a key and updates another one, which a later transaction then reads. -/

def oneLoaded : Db Nat Nat Nat where
  index table := if table = 0 then OrderedMap.ofList [(5, 0)] else OrderedMap.empty
  leafTs _ := 0
  value _ := [⟨0, 0, 0, some 7, false⟩]
  home _ := (0, 5)
  nextValue := 1
  nextVersion := 1

theorem oneLoaded_indexed (address : Nat × Nat) (val : Nat)
    (found : oneLoaded.lookup address = some val) :
    oneLoaded.home val = address ∧ val < oneLoaded.nextValue := by
  obtain ⟨table, key⟩ := address
  unfold Db.lookup oneLoaded at found
  dsimp only at found
  split at found
  · rename_i same
    obtain ⟨rfl, rfl⟩ := Prod.mk.inj (List.mem_singleton.mp (OrderedMap.mem_of_get?_ofList found))
    subst same
    exact ⟨rfl, Nat.zero_lt_one⟩
  · cases found

def laterRead (db : Db Nat Nat Nat) : Db Nat Nat Nat :=
  { db with value := Function.update db.value 0 (touch 0 20 (db.value 0)) }

theorem laterRead_spares {s : Session Nat Nat Nat} (inv : s.Local)
    (loaded : s.db.lookup (0, 5) = some 0) : s.Spares (laterRead s.db) := by
  refine ⟨fun _ _ => rfl, le_rfl, le_rfl, ?_, inv.indexed⟩
  intro address e present isNew
  refine ⟨Function.update_of_ne (inv.ne_of_indexed loaded present isNew) .., ?_⟩
  exact ((inv.element address e present).new isNew).2.2.1

def insertedAndUpdated : Option (Session Nat Nat Nat) :=
  exec stepMove (Session.new 10 0 oneLoaded)
    [.call (.point .insert (0, 1) 3), .call (.point .update (0, 5) 0)]

theorem laterRead_fails_precommit : ∃ trace s,
    Run stepMove Undisturbed (Session.new 10 0 oneLoaded) trace s ∧
      ∃ after : Session Nat Nat Nat, s.precommit (fun _ => 0) = .ok (false, after) ∧
        (∀ address, after.db.lookup address = s.db.lookup address) ∧
        ∃ final, after.abort = .ok final ∧ final.freed.Nodup := by
  have loaded : insertedAndUpdated.map (fun s => s.db.lookup (0, 5)) = some (some 0) := by
    decide +kernel
  have fails : (insertedAndUpdated.map fun s => (({ s with db := laterRead s.db } :
      Session Nat Nat Nat).precommit fun _ => 0).toOption.map Prod.fst) = some (some false) := by
    decide +kernel
  obtain ⟨s, executed, loaded⟩ := Option.map_eq_some_iff.mp loaded
  rw [executed, Option.map_some, Option.some.injEq] at fails
  simp only [insertedAndUpdated, exec, Option.bind_eq_some_iff, Option.some.injEq] at executed
  obtain ⟨s₁, first, s₂, second, rfl⟩ := executed
  have run : Run stepMove Undisturbed (Session.new 10 0 oneLoaded)
      [.call (.point .insert (0, 1) 3), .call (.point .update (0, 5) 0)] s₂ :=
    .cons trivial first (.cons trivial second .nil)
  have spared : Undisturbed s₂ (.others (laterRead s₂.db)) :=
    laterRead_spares (run_local oneLoaded_indexed run) loaded
  have run' := run.snoc spared rfl
  obtain ⟨result, after, ended, atomic⟩ :=
    failedPrecommit_atomic 10 0 oneLoaded oneLoaded_indexed _ _ run' fun _ => 0
  rw [ended] at fails
  cases Option.some.inj fails
  obtain ⟨-, index, -, final, aborted, once, -⟩ := atomic rfl
  exact ⟨_, _, run', after, ended, index, final, aborted, once⟩

end TpccRunner.Mvto
