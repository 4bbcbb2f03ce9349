import Mathlib
import TpccRunner.Mvto.Session

/-!
# The local sets of an MVTO transaction

What the calls of a transaction keep of its read/write set, its write set and the values it
has made, whatever other transactions do to the shared part in between.  The one call that
breaks it is `remove` of a key that the transaction has inserted: it erases the element and
leaves the entry of the write set behind.
-/

set_option autoImplicit false

namespace TpccRunner.Mvto

open Lib

variable {R : Type}

theorem Except.map_eq_ok {ε α β : Type} {f : α → β} {result : Except ε α} {value : β}
    (mapped : result.map f = .ok value) : ∃ inner, result = .ok inner ∧ f inner = value := by
  cases result with
  | error fault => cases mapped
  | ok inner => exact ⟨inner, rfl, Except.ok.inj mapped⟩

/-! ## What an operation does to its element -/

/-- An operation on an element, except for `remove` of an inserted key. -/
theorem Element.perform_keeps {e : Element R} {op : Operation} {outcome : Outcome R}
    (performed : e.perform op = some outcome) (regular : op = .remove → e.rwt ≠ .insert) :
    ∃ e', outcome.element = some e' ∧ e'.val = e.val ∧ e'.isNew = e.isNew ∧
      (e.rwt = .insert → e' = e) ∧ (e.rwt ≠ .read → e'.rwt ≠ .read) ∧
      (outcome.pushed = true ↔ e'.rwt ≠ .read ∧ e.rwt = .read) ∧
      (e.rwt = .update → e.writeRec = none → e'.rwt = .update ∧ e'.writeRec = none) ∧
      (op = .remove → e.rwt = .update → e'.rwt = .update ∧ e'.writeRec = none) := by
  unfold Element.perform at performed
  cases kind : e.rwt <;> cases op <;> simp only [kind] at performed regular <;>
    first
    | exact absurd rfl (regular trivial)
    | (obtain rfl := Option.some.inj performed
       exact ⟨_, rfl, by simp [kind]⟩)
    | cases performed

theorem Access.perform_element {K : Type} (access : Access K R) (version : Version R) (fresh : R) :
    ((access.perform version fresh).element = none ∧
        (access.perform version fresh).pushed = false) ∨
      ∃ e, (access.perform version fresh).element = some e ∧ e.val = access.val ∧
        e.isNew = false ∧ ((access.perform version fresh).pushed = true ↔ e.rwt ≠ .read) := by
  unfold Access.perform
  cases access.op <;> dsimp only <;> split <;>
    first
    | exact .inl ⟨rfl, rfl⟩
    | exact .inr ⟨_, rfl, rfl, rfl, by simp [Access.updateWith, Access.insertWith]⟩
    | (split
       · exact .inl ⟨rfl, rfl⟩
       · exact .inr ⟨_, rfl, rfl, rfl, by simp [Access.updateWith]⟩)

/-! ## The invariant -/

variable {T K : Type} [LinearOrder K]

def Written (element : Option (Element R)) : Prop := ∃ e, element = some e ∧ e.rwt ≠ .read

theorem not_written_none : ¬ Written (none : Option (Element R)) := by
  rintro ⟨e, absent, -⟩
  cases absent

theorem written_some {e : Element R} : Written (some e) ↔ e.rwt ≠ .read := by
  constructor
  · rintro ⟨e', same, written⟩
    cases same
    exact written
  · exact fun written => ⟨e, rfl, written⟩

structure ElementOk (db : Db T K R) (startTs : Nat) (address : T × K) (e : Element R) : Prop where
  home : db.home e.val = address
  bound : e.val < db.nextValue
  new : e.isNew = true → e.rwt = .insert ∧ e.writeRec.isSome ∧
    (∀ other, db.lookup other ≠ some e.val) ∧
      ∃ version, db.value e.val = [version] ∧ version.id < db.nextVersion ∧
        version.writeTs = startTs ∧ version.deleted = false

def Apart (db : Db T K R) (e e' : Element R) : Prop :=
  ∀ version ∈ db.value e.val, ∀ version' ∈ db.value e'.val, version'.id ≠ version.id

theorem Apart.symm {db : Db T K R} {e e' : Element R} (apart : Apart db e e') : Apart db e' e :=
  fun version member version' member' same => apart version' member' version member same.symm

structure Session.Local (s : Session T K R) : Prop where
  tables : s.tables.Nodup
  keys : ∀ table, (s.ws table).Nodup
  listed : ∀ table, s.ws table ≠ [] → table ∈ s.tables
  written : ∀ table key, key ∈ s.ws table ↔ Written (s.rws (table, key))
  element : ∀ address e, s.rws address = some e → ElementOk s.db s.startTs address e
  apart : ∀ address other e e', s.rws address = some e → s.rws other = some e' →
    e.isNew = true → e'.isNew = true → address ≠ other → Apart s.db e e'
  indexed : ∀ address val, s.db.lookup address = some val →
    s.db.home val = address ∧ val < s.db.nextValue
  /-- Only the local record of an updated key that was removed has been deallocated. -/
  freed : ∀ block ∈ s.freed, ∃ address e, block = .record address ∧ s.rws address = some e ∧
    e.rwt = .update ∧ e.writeRec = none
  freedOnce : s.freed.Nodup
  /-- No new value has been handed to the garbage collector. -/
  collected : ∀ val ∈ s.collected, val < s.db.nextValue ∧
    ∀ address e, s.rws address = some e → e.isNew = true → e.val ≠ val

/-- What other transactions keep of the shared part: the values that this one has made. -/
structure Session.Spares (s : Session T K R) (db : Db T K R) : Prop where
  home : ∀ val < s.db.nextValue, db.home val = s.db.home val
  nextValue : s.db.nextValue ≤ db.nextValue
  nextVersion : s.db.nextVersion ≤ db.nextVersion
  own : ∀ address e, s.rws address = some e → e.isNew = true →
    db.value e.val = s.db.value e.val ∧ ∀ other, db.lookup other ≠ some e.val
  indexed : ∀ address val, db.lookup address = some val →
    db.home val = address ∧ val < db.nextValue

namespace Session.Local

variable {s : Session T K R} {address : T × K} {val : Nat}

theorem spares (inv : s.Local) {db : Db T K R} (spares : s.Spares db) :
    ({ s with db := db } : Session T K R).Local := by
  refine ⟨inv.tables, inv.keys, inv.listed, inv.written, ?_, ?_, spares.indexed, inv.freed,
    inv.freedOnce, ?_⟩
  · intro a e present
    have ok := inv.element a e present
    refine ⟨(spares.home _ ok.bound).trans ok.home, ok.bound.trans_le spares.nextValue, ?_⟩
    intro isNew
    obtain ⟨isInsert, buffer, -, version, chain, id, rest⟩ := ok.new isNew
    obtain ⟨kept, free⟩ := spares.own a e present isNew
    exact ⟨isInsert, buffer, free, version, kept.trans chain, id.trans_le spares.nextVersion, rest⟩
  · intro a a' e e' present present' isNew isNew' different
    unfold Apart
    rw [(spares.own a e present isNew).1, (spares.own a' e' present' isNew').1]
    exact inv.apart a a' e e' present present' isNew isNew' different
  · intro val member
    obtain ⟨bound, other⟩ := inv.collected val member
    exact ⟨bound.trans_le spares.nextValue, other⟩

theorem congr (inv : s.Local) {locks : List LockEvent} :
    ({ s with locks := locks } : Session T K R).Local :=
  ⟨inv.tables, inv.keys, inv.listed, inv.written, inv.element, inv.apart, inv.indexed, inv.freed,
    inv.freedOnce, inv.collected⟩

/-- A value in the index is not one of the transaction's new values. -/
theorem ne_of_indexed (inv : s.Local) {other : T × K} {e : Element R}
    (indexed : s.db.lookup address = some val) (present : s.rws other = some e)
    (isNew : e.isNew = true) : e.val ≠ val := by
  rintro rfl
  exact ((inv.element other e present).new isNew).2.2.1 address indexed

theorem setChain (inv : s.Local) (indexed : s.db.lookup address = some val)
    (chain : List (Version R)) : (s.setChain val chain).Local := by
  refine inv.spares ⟨fun _ _ => rfl, le_rfl, le_rfl, ?_, inv.indexed⟩
  intro a e present isNew
  refine ⟨Function.update_of_ne (inv.ne_of_indexed indexed present isNew) .., ?_⟩
  exact ((inv.element a e present).new isNew).2.2.1

end Session.Local

variable [LinearOrder T]

theorem Session.lookup_removeKey (s : Session T K R) (address other : T × K) :
    (s.removeKey address).db.lookup other =
      if other = address then none else s.db.lookup other := by
  obtain ⟨table, key⟩ := address
  obtain ⟨table', key'⟩ := other
  unfold Db.lookup Session.removeKey
  by_cases sameTable : table' = table
  · subst sameTable
    simp [OrderedMap.get?_erase]
  · simp [sameTable]

theorem Session.lookup_insertKey (s : Session T K R) (address other : T × K) (val : Nat) :
    (s.insertKey address val).db.lookup other =
      if other = address then some val else s.db.lookup other := by
  obtain ⟨table, key⟩ := address
  obtain ⟨table', key'⟩ := other
  unfold Db.lookup Session.insertKey
  by_cases sameTable : table' = table
  · subst sameTable
    simp [OrderedMap.get?_insert]
  · simp [sameTable]

theorem Session.access_frame (s : Session T K R) (op : Operation) (address : T × K) (val : Nat)
    (fresh : R) :
    (s.access op address val fresh).2.startTs = s.startTs ∧
      (s.access op address val fresh).2.tables = s.tables ∧
      ∀ other, other ≠ address →
        (s.access op address val fresh).2.rws other = s.rws other ∧
        (s.access op address val fresh).2.db.lookup other = s.db.lookup other := by
  unfold Session.access
  dsimp only
  split
  · exact ⟨rfl, rfl, fun _ _ => ⟨rfl, rfl⟩⟩
  split
  · refine ⟨rfl, rfl, fun other different => ⟨rfl, ?_⟩⟩
    exact (s.lookup_removeKey address other).trans (if_neg different)
  split
  · exact ⟨rfl, rfl, fun _ _ => ⟨rfl, rfl⟩⟩
  · exact ⟨rfl, rfl, fun _ different => ⟨Function.update_of_ne different .., rfl⟩⟩

section Visits
variable [Inhabited R] {s after : Session T K R} {address : T × K} {val : Nat}
  {record : Option (Option R)}

theorem Session.visit_eq (visited : s.visit address val = .ok (record, after)) :
    after = s ∨ s.rws address = none ∧ after = (s.access .read address val default).2 := by
  unfold Session.visit at visited
  cases present : s.rws address with
  | some e =>
    simp only [present] at visited
    cases kind : e.rwt <;> simp only [kind] at visited <;> cases visited <;> exact .inl rfl
  | none =>
    simp only [present] at visited
    cases visited
    exact .inr ⟨rfl, rfl⟩

theorem Session.visit_frame (visited : s.visit address val = .ok (record, after)) :
    after.startTs = s.startTs ∧ after.tables = s.tables ∧
      ∀ other, other ≠ address → after.rws other = s.rws other ∧
        after.db.lookup other = s.db.lookup other := by
  obtain rfl | ⟨-, rfl⟩ := Session.visit_eq visited
  · exact ⟨rfl, rfl, fun _ _ => ⟨rfl, rfl⟩⟩
  · exact s.access_frame ..

end Visits

namespace Session.Local

variable {s : Session T K R} {address : T × K} {val : Nat}

theorem deleteFromTree (inv : s.Local) (indexed : s.db.lookup address = some val) :
    (s.deleteFromTree address val).Local := by
  have removed : ∀ a v, (s.removeKey address).db.lookup a = some v → s.db.lookup a = some v := by
    intro a v found
    rw [Session.lookup_removeKey] at found
    split at found
    · cases found
    · exact found
  have spared : ((s.removeKey address).setChain val []).Local := by
    refine inv.spares ⟨fun _ _ => rfl, le_rfl, le_rfl, ?_, ?_⟩
    · intro a e present isNew
      refine ⟨Function.update_of_ne (inv.ne_of_indexed indexed present isNew) .., ?_⟩
      exact fun other found => ((inv.element a e present).new isNew).2.2.1 other (removed _ _ found)
    · exact fun a v found => inv.indexed a v (removed _ _ found)
  refine ⟨spared.tables, spared.keys, spared.listed, spared.written, spared.element, spared.apart,
    spared.indexed, spared.freed, spared.freedOnce, ?_⟩
  intro v member
  rcases List.mem_append.mp member with old | last
  · exact spared.collected v old
  · cases List.mem_singleton.mp last
    exact ⟨(inv.indexed address val indexed).2,
      fun a e present isNew => inv.ne_of_indexed indexed present isNew⟩

theorem addTable (inv : s.Local) (table : T) : (s.addTable table).Local := by
  refine ⟨?_, inv.keys, ?_, inv.written, inv.element, inv.apart, inv.indexed, inv.freed,
    inv.freedOnce, inv.collected⟩
  · unfold Session.addTable
    split
    · exact inv.tables
    · rename_i absent
      exact (List.perm_orderedInsert (· ≤ ·) table s.tables).nodup_iff.mpr
        (List.nodup_cons.mpr ⟨fun listed => absent (List.contains_iff_mem.mpr listed), inv.tables⟩)
  · intro other nonempty
    have member := inv.listed other nonempty
    unfold Session.addTable
    split
    · exact member
    · exact (List.perm_orderedInsert (· ≤ ·) table s.tables).mem_iff.mpr
        (List.mem_cons_of_mem _ member)

theorem settle (inv : s.Local) {outcome : Outcome R}
    (table : outcome.pushed = true → address.1 ∈ s.tables)
    (pushed : outcome.pushed = true ↔ Written outcome.element ∧ ¬ Written (s.rws address))
    (kept : Written (s.rws address) → Written outcome.element)
    (ok : ∀ e, outcome.element = some e → ElementOk s.db s.startTs address e)
    (apart : ∀ e, outcome.element = some e → e.isNew = true → ∀ other e', other ≠ address →
      s.rws other = some e' → e'.isNew = true → Apart s.db e e')
    (freed : ∀ e, s.rws address = some e → e.rwt = .update → e.writeRec = none →
      ∃ e', outcome.element = some e' ∧ e'.rwt = .update ∧ e'.writeRec = none)
    (collected : ∀ e, outcome.element = some e → e.isNew = true → e.val ∉ s.collected) :
    (s.settle address outcome).Local := by
  have members : ∀ table key, key ∈ (s.settle address outcome).ws table ↔
      key ∈ s.ws table ∨ outcome.pushed = true ∧ (table, key) = address := by
    intro table key
    unfold Session.settle
    split
    · rename_i isPushed
      by_cases same : table = address.1
      · subst same
        simp [isPushed, Prod.ext_iff]
      · simp [same, isPushed, Prod.ext_iff]
    · rename_i notPushed
      simp [notPushed]
  refine ⟨inv.tables, ?_, ?_, ?_, ?_, ?_, inv.indexed, ?_, inv.freedOnce, ?_⟩
  · intro table
    unfold Session.settle
    split
    · rename_i isPushed
      by_cases same : table = address.1
      · subst same
        have absent : address.2 ∉ s.ws address.1 := by
          rw [inv.written]
          exact (pushed.mp isPushed).2
        simpa using List.nodup_append.mpr ⟨inv.keys address.1, List.nodup_singleton _,
          fun key member other isLast => by
            cases List.mem_singleton.mp isLast
            rintro rfl
            exact absent member⟩
      · simpa [same] using inv.keys table
    · exact inv.keys table
  · intro other nonempty
    obtain ⟨key, member⟩ := List.exists_mem_of_ne_nil _ nonempty
    rcases (members other key).mp member with old | ⟨isPushed, same⟩
    · exact inv.listed other (List.ne_nil_of_mem old)
    · cases same
      exact table isPushed
  · intro other key
    rw [members, inv.written]
    by_cases same : (other, key) = address
    · simp only [Session.settle, same, Function.update_self, and_true]
      constructor
      · rintro (old | isPushed)
        · exact kept old
        · exact (pushed.mp isPushed).1
      · intro now
        by_cases old : Written (s.rws address)
        · exact .inl old
        · exact .inr (pushed.mpr ⟨now, old⟩)
    · simp [Session.settle, same]
  · intro other e present
    by_cases same : other = address
    · subst same
      simp only [Session.settle, Function.update_self] at present
      exact ok e present
    · simp only [Session.settle, Function.update_of_ne same] at present
      exact inv.element other e present
  · intro a a' e e' present present' isNew isNew' different
    by_cases first : a = address
    · subst first
      simp only [Session.settle, Function.update_self] at present
      simp only [Session.settle, Function.update_of_ne different.symm] at present'
      exact apart e present isNew a' e' different.symm present' isNew'
    · simp only [Session.settle, Function.update_of_ne first] at present
      by_cases second : a' = address
      · subst second
        simp only [Session.settle, Function.update_self] at present'
        exact (apart e' present' isNew' a e first present isNew).symm
      · simp only [Session.settle, Function.update_of_ne second] at present'
        exact inv.apart a a' e e' present present' isNew isNew' different
  · intro block member
    obtain ⟨other, e, rfl, present, isUpdate, none'⟩ := inv.freed block member
    by_cases same : other = address
    · subst same
      obtain ⟨e', element, facts⟩ := freed e present isUpdate none'
      exact ⟨other, e', rfl, by simp [Session.settle, element], facts⟩
    · exact ⟨other, e, rfl, by simp [Session.settle, same, present], isUpdate, none'⟩
  · intro val member
    obtain ⟨bound, apart⟩ := inv.collected val member
    refine ⟨bound, fun other e present isNew => ?_⟩
    by_cases same : other = address
    · subst same
      simp only [Session.settle, Function.update_self] at present
      rintro rfl
      exact collected e present isNew member
    · simp only [Session.settle, Function.update_of_ne same] at present
      exact apart other e present isNew

omit [LinearOrder T] in
theorem allocate (inv : s.Local) (fresh : R) : (s.allocate address fresh).Local := by
  refine inv.spares ⟨?_, Nat.le_succ _, Nat.le_succ _, ?_, ?_⟩
  · exact fun val bound => Function.update_of_ne bound.ne ..
  · intro a e present isNew
    have ok := inv.element a e present
    exact ⟨Function.update_of_ne ok.bound.ne .., (ok.new isNew).2.2.1⟩
  · intro a v found
    obtain ⟨home, bound⟩ := inv.indexed a v found
    exact ⟨(Function.update_of_ne bound.ne ..).trans home, bound.trans (Nat.lt_succ_self _)⟩

/-! ## Calls -/

theorem miss (inv : s.Local) (table : address.1 ∈ s.tables) (absent : s.rws address = none)
    (op : Operation) (fresh : R) : (s.miss op address fresh).2.Local := by
  have inserted : ((s.allocate address fresh).settle address
      ⟨some ⟨none, some fresh, .insert, true, s.db.nextValue⟩, true, some fresh, true⟩).Local := by
    have absent' : (s.allocate address fresh).rws address = none := absent
    refine (inv.allocate fresh).settle (fun _ => table) ?_ ?_ ?_ ?_ ?_ ?_
    · simp [absent', not_written_none, written_some]
    · simp [absent', not_written_none]
    · intro e isNew
      cases isNew
      refine ⟨Function.update_self .., Nat.lt_succ_self _, fun _ => ⟨rfl, rfl, ?_, ?_⟩⟩
      · exact fun other found => absurd (inv.indexed other _ found).2 (lt_irrefl _)
      · exact ⟨_, Function.update_self .., Nat.lt_succ_self _, rfl, rfl⟩
    · intro e isNew _ other e' _ present isNew'
      cases isNew
      have ok := inv.element other e' present
      obtain ⟨-, -, -, old, chain, bound, -⟩ := ok.new isNew'
      intro version member version' member'
      simp only [Session.allocate, Function.update_self, Function.update_of_ne ok.bound.ne, chain,
        List.mem_singleton] at member member'
      subst member member'
      exact bound.ne
    · intro e present
      cases absent'.symm.trans present
    · intro e isNew _ member
      cases isNew
      exact lt_irrefl _ (inv.collected _ member).1
  cases op with
  | insert | upsert => exact inserted
  | read | update | remove => exact inv

theorem settleAccess (inv : s.Local) (table : address.1 ∈ s.tables)
    (absent : s.rws address = none) (indexed : s.db.lookup address = some val)
    {outcome : Outcome R}
    (made : (outcome.element = none ∧ outcome.pushed = false) ∨
      ∃ e, outcome.element = some e ∧ e.val = val ∧ e.isNew = false ∧
        (outcome.pushed = true ↔ e.rwt ≠ .read)) :
    (s.settle address outcome).Local := by
  obtain ⟨home, bound⟩ := inv.indexed address val indexed
  have old : ∀ e, outcome.element = some e → e.val = val ∧ e.isNew = false := by
    intro e element
    obtain ⟨none', -⟩ | ⟨e', some', sameVal, old, -⟩ := made
    · cases none'.symm.trans element
    · cases some'.symm.trans element
      exact ⟨sameVal, old⟩
  refine inv.settle (fun _ => table) ?_ ?_ ?_ ?_ ?_ ?_
  · rw [absent]
    obtain ⟨element, pushed⟩ | ⟨e, element, -, -, pushed⟩ := made
    · simp [element, pushed, not_written_none]
    · simp [element, pushed, not_written_none, written_some]
  · rw [absent]
    exact fun written => absurd written not_written_none
  · intro e element
    obtain ⟨rfl, notNew⟩ := old e element
    exact ⟨home, bound, fun isNew => absurd (notNew.symm.trans isNew) Bool.false_ne_true⟩
  · intro e element isNew
    exact absurd ((old e element).2.symm.trans isNew) Bool.false_ne_true
  · intro e present
    cases absent.symm.trans present
  · intro e element isNew
    exact absurd ((old e element).2.symm.trans isNew) Bool.false_ne_true

theorem access (inv : s.Local) (table : address.1 ∈ s.tables) (absent : s.rws address = none)
    (indexed : s.db.lookup address = some val) (op : Operation) (fresh : R) :
    (s.access op address val fresh).2.Local := by
  unfold Session.access
  dsimp only
  split
  · exact inv.congr
  split
  · exact (inv.deleteFromTree indexed).congr
  split
  · exact (inv.setChain indexed _).congr
  · rename_i version _
    generalize touch version.id s.startTs _ = kept
    have shared : (((s.lock val).setChain val kept).unlock val).Local :=
      (inv.setChain indexed kept).congr
    exact shared.settleAccess table absent indexed (Access.perform_element _ version fresh)

theorem own (inv : s.Local) (table : address.1 ∈ s.tables) {e : Element R} {op : Operation}
    {outcome : Outcome R} (present : s.rws address = some e)
    (performed : e.perform op = some outcome) (regular : op = .remove → e.rwt ≠ .insert) :
    ((s.settle address outcome).release address op e).Local := by
  obtain ⟨e', element, sameVal, sameNew, insert, kept, pushed, removed, remove⟩ :=
    Element.perform_keeps performed regular
  have settled : (s.settle address outcome).Local := by
    have ok := inv.element address e present
    refine inv.settle (fun _ => table) ?_ ?_ ?_ ?_ ?_ ?_
    · rw [element, present, written_some, written_some, pushed, not_not]
    · rw [element, present, written_some, written_some]
      exact kept
    · intro e'' same
      cases element.symm.trans same
      refine ⟨sameVal ▸ ok.home, sameVal ▸ ok.bound, fun isNew => ?_⟩
      rw [sameNew] at isNew
      obtain ⟨isInsert, rest⟩ := ok.new isNew
      rw [insert isInsert]
      exact ⟨isInsert, rest⟩
    · intro e'' same isNew other e₁ different present₁ isNew₁
      cases element.symm.trans same
      rw [sameNew] at isNew
      unfold Apart
      rw [sameVal]
      exact inv.apart address other e e₁ present present₁ isNew isNew₁ different.symm
    · intro e₀ present₀ isUpdate none'
      cases present.symm.trans present₀
      exact ⟨e', element, removed isUpdate none'⟩
    · intro e'' same isNew member
      cases element.symm.trans same
      rw [sameNew] at isNew
      rw [sameVal] at member
      exact (inv.collected _ member).2 address e present isNew rfl
  unfold Session.release
  split
  · rename_i released
    obtain ⟨isRemove, kind, buffer⟩ := released
    have isUpdate : e.rwt = .update := kind.resolve_right (regular isRemove)
    obtain ⟨kind', none'⟩ := remove isRemove isUpdate
    have now : (s.settle address outcome).rws address = some e' := by simp [Session.settle, element]
    refine ⟨settled.tables, settled.keys, settled.listed, settled.written, settled.element,
      settled.apart, settled.indexed, ?_, ?_, settled.collected⟩
    · intro block member
      rcases List.mem_append.mp member with old | last
      · exact settled.freed block old
      · exact ⟨address, e', List.mem_singleton.mp last, now, kind', none'⟩
    · refine List.nodup_append.mpr ⟨settled.freedOnce, List.nodup_singleton _, ?_⟩
      intro block old other last same
      subst same
      cases List.mem_singleton.mp last
      obtain ⟨a, e₀, sameAddress, present₀, -, none₀⟩ := inv.freed _ old
      cases sameAddress
      cases present.symm.trans present₀
      rw [none₀] at buffer
      cases buffer
  · exact settled

theorem point (inv : s.Local) (table : address.1 ∈ s.tables) {op : Operation} {fresh : R}
    {result : Option R} {after : Session T K R}
    (regular : op = .remove → ∀ e, s.rws address = some e → e.rwt ≠ .insert)
    (called : s.point op address fresh = .ok (result, after)) : after.Local := by
  unfold Session.point at called
  cases present : s.rws address with
  | some e =>
    simp only [present] at called
    cases performed : e.perform op with
    | none =>
      simp only [performed] at called
      cases called
    | some outcome =>
      simp only [performed] at called
      cases called
      exact inv.own table present performed fun isRemove => regular isRemove e present
  | none =>
    simp only [present] at called
    cases found : s.db.lookup address with
    | none =>
      simp only [found] at called
      have local' := inv.miss table present op fresh
      rwa [Except.ok.inj called] at local'
    | some val =>
      simp only [found] at called
      have local' := inv.access table present found op fresh
      rwa [Except.ok.inj called] at local'

omit [LinearOrder T] in
theorem updateTs (inv : s.Local) (leaves : List Nat) : (s.updateTs leaves).Local :=
  inv.spares ⟨fun _ _ => rfl, le_rfl, le_rfl,
    fun a e present isNew => ⟨rfl, ((inv.element a e present).new isNew).2.2.1⟩, inv.indexed⟩

theorem store (inv : s.Local) {e : Element R} (present : s.rws address = some e)
    (buffer : e.writeRec.isSome) (record : R) :
    ({ s with rws := Function.update s.rws address (some { e with writeRec := some record }) } :
      Session T K R).Local := by
  have settled : (s.settle address
      ⟨some { e with writeRec := some record }, false, none, false⟩).Local := by
    have ok := inv.element address e present
    refine inv.settle (fun isPushed => absurd isPushed Bool.false_ne_true) ?_ ?_ ?_ ?_ ?_ ?_
    · simp only [present, written_some]
      simp
    · simp [present, written_some]
    · intro e' element
      cases element
      refine ⟨ok.home, ok.bound, fun isNew => ?_⟩
      obtain ⟨isInsert, -, rest⟩ := ok.new isNew
      exact ⟨isInsert, rfl, rest⟩
    · intro e' element isNew other e₁ different present₁ isNew₁
      cases element
      exact inv.apart address other e e₁ present present₁ isNew isNew₁ different.symm
    · intro e₀ present₀ _ none'
      cases present.symm.trans present₀
      rw [none'] at buffer
      cases buffer
    · intro e' element isNew member
      cases element
      exact (inv.collected _ member).2 address e present isNew rfl
  exact settled

theorem visit [Inhabited R] (inv : s.Local) (table : address.1 ∈ s.tables)
    (indexed : s.db.lookup address = some val) {record : Option (Option R)}
    {after : Session T K R} (visited : s.visit address val = .ok (record, after)) :
    after.Local := by
  obtain rfl | ⟨present, rfl⟩ := Session.visit_eq visited
  · exact inv
  · exact inv.access table present indexed .read default

end Session.Local

/-! ## Scans -/

section Scans
variable {s after : Session T K R} {address other : T × K} {val : Nat}

theorem Session.scanLoop_cons [Inhabited R] {table : T} {key : K} {rest : List (K × Nat)}
    {rows : List (K × Option R)}
    (scanned : Session.scanLoop table ((key, val) :: rest) s = .ok (rows, after)) :
    ∃ record middle later, s.visit (table, key) val = .ok (record, middle) ∧
      Session.scanLoop table rest middle = .ok (later, after) ∧
      rows = (record.map fun record => (key, record)).toList ++ later := by
  unfold Session.scanLoop at scanned
  cases visited : s.visit (table, key) val with
  | error fault =>
    simp only [visited] at scanned
    cases scanned
  | ok outcome =>
    obtain ⟨record, middle⟩ := outcome
    simp only [visited] at scanned
    cases later : Session.scanLoop table rest middle with
    | error fault =>
      simp only [later] at scanned
      cases scanned
    | ok end' =>
      simp only [later] at scanned
      cases scanned
      exact ⟨record, middle, end'.1, rfl, later, rfl⟩

theorem Session.Local.scanLoop [Inhabited R] {table : T} {rest : List (K × Nat)}
    {rows : List (K × Option R)} (inv : s.Local) (inTables : table ∈ s.tables)
    (distinct : rest.Pairwise fun first second => first.1 ≠ second.1)
    (indexed : ∀ entry ∈ rest, s.db.lookup (table, entry.1) = some entry.2)
    (scanned : Session.scanLoop table rest s = .ok (rows, after)) : after.Local := by
  induction rest generalizing s rows with
  | nil =>
    cases scanned
    exact inv
  | cons entry rest ih =>
    obtain ⟨key, val⟩ := entry
    obtain ⟨record, middle, later, visited, loop, -⟩ := Session.scanLoop_cons scanned
    obtain ⟨others, distinct⟩ := List.pairwise_cons.mp distinct
    refine ih (inv.visit inTables (indexed _ List.mem_cons_self) visited) ?_ distinct ?_ loop
    · rw [(Session.visit_frame visited).2.1]
      exact inTables
    · intro other member
      rw [((Session.visit_frame visited).2.2 _ ?_).2]
      · exact indexed other (List.mem_cons_of_mem _ member)
      · exact fun same => others other member (congrArg Prod.snd same).symm

omit [LinearOrder T] in
theorem Db.mem_getKvInRange {db : Db T K R} {table : T} {low up key : K} {rev : Bool} {val : Nat} :
    (key, val) ∈ db.getKvInRange table low up rev ↔
      db.lookup (table, key) = some val ∧ Scanned rev low up key := by
  unfold Db.getKvInRange inDirection Db.lookup
  split <;> simp [OrderedMap.get?_eq_some_iff]

omit [LinearOrder T] in
theorem Db.getKvInRange_distinct (db : Db T K R) (table : T) (low up : K) (rev : Bool) :
    (db.getKvInRange table low up rev).Pairwise fun first second => first.1 ≠ second.1 := by
  have ascending := (db.index table).ascending.filter fun entry => Scanned rev low up entry.1
  unfold Db.getKvInRange inDirection
  split
  · exact List.pairwise_reverse.mpr (ascending.imp fun less => less.ne')
  · exact ascending.imp fun less => less.ne

def Session.KeepsInserted (s : Session T K R) : Call T K R → Prop
  | .point .remove address _ => ∀ e, s.rws address = some e → e.rwt ≠ .insert
  | _ => True

theorem Session.mem_addTable (s : Session T K R) (table : T) :
    table ∈ (s.addTable table).tables := by
  unfold Session.addTable
  split
  · rename_i listed
    exact List.contains_iff_mem.mp listed
  · exact (List.perm_orderedInsert (· ≤ ·) table s.tables).mem_iff.mpr List.mem_cons_self

inductive Session.Called [Inhabited R] (s : Session T K R) :
    Call T K R → Reply K R → Session T K R → Prop
  | point {op : Operation} {address : T × K} {fresh : R} {result : Option R}
      {after : Session T K R}
      (performed : (s.addTable address.1).point op address fresh = .ok (result, after)) :
      s.Called (.point op address fresh) (.ofRecord result) after
  | store {address : T × K} {record : R} {e : Element R} (present : s.rws address = some e)
      (buffer : e.writeRec.isSome) : s.Called (.store address record) .stored
        { s with rws := Function.update s.rws address (some { e with writeRec := some record }) }
  | readScan {table : T} {low up : K} {rev : Bool} {leaves : List Nat}
      {rows : List (K × Option R)} {after : Session T K R}
      (scanned : (s.addTable table).readScan table low up rev leaves = .ok (rows, after)) :
      s.Called (.readScan table low up rev leaves) (.listed rows) after

theorem Session.called_of_call [Inhabited R] {call : Call T K R} {reply : Reply K R}
    (called : s.call call = .ok (reply, after)) : s.Called call reply after := by
  cases call with
  | point op address fresh =>
    obtain ⟨outcome, performed, same⟩ := Except.map_eq_ok called
    cases same
    exact .point performed
  | store address record =>
    simp only [Session.call] at called
    split at called
    · split at called <;> cases called
      exact .store ‹_› ‹_›
    · cases called
  | readScan table low up rev leaves =>
    obtain ⟨outcome, scanned, same⟩ := Except.map_eq_ok called
    cases same
    exact .readScan scanned

theorem Session.Local.call [Inhabited R] {call : Call T K R} {reply : Reply K R} (inv : s.Local)
    (regular : s.KeepsInserted call) (called : s.call call = .ok (reply, after)) :
    after.Local := by
  cases Session.called_of_call called with
  | @point op address fresh result _ performed =>
    refine (inv.addTable address.1).point (s.mem_addTable address.1) ?_ performed
    rintro rfl
    exact regular
  | store present buffer => exact inv.store present buffer _
  | @readScan table low up rev leaves rows _ scanned =>
    obtain ⟨⟨found, last⟩, looped, same⟩ := Except.map_eq_ok scanned
    cases same
    refine ((inv.addTable table).updateTs leaves).scanLoop (s.mem_addTable table)
      (Db.getKvInRange_distinct _ table low up rev) ?_ looped
    exact fun entry member => (Db.mem_getKvInRange.mp member).1

end Scans

omit [LinearOrder T] in
theorem Session.Local.start {db : Db T K R} {startTs smallestTs : Nat}
    (indexed : ∀ address val, db.lookup address = some val →
      db.home val = address ∧ val < db.nextValue) :
    (Session.new startTs smallestTs db).Local := by
  refine ⟨List.nodup_nil, fun _ => List.nodup_nil, fun _ nonempty => absurd rfl nonempty, ?_, ?_,
    ?_, indexed, ?_, List.nodup_nil, fun _ member => absurd member List.not_mem_nil⟩
  · exact fun table key => ⟨fun member => absurd member List.not_mem_nil,
      fun written => absurd written not_written_none⟩
  · intro address e present
    cases present
  · intro address other e e' present
    cases present
  · intro block member
    cases member

end TpccRunner.Mvto
