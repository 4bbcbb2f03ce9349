import Mathlib
import TpccRunner.Mvto.FailedPrecommit

/-!
# A single MVTO transaction and a map

A transaction that runs alone, on a database whose versions are not newer than it, against a
plain map that is updated in program order.  The two agree as long as the transaction does
not remove a key that it has updated or removed, and does not scan a range with a key that it
has removed or added to the index.
-/

set_option autoImplicit false

namespace TpccRunner.Mvto

open Lib

variable {T K R : Type} [LinearOrder K]

/-! ## Maps -/

/-- What a reader with a timestamp finds under a key: nothing, or a record, which is `none` for
the null pointer. -/
def Db.visible (db : Db T K R) (ts : Nat) (address : T × K) : Option (Option R) :=
  (db.lookup address).bind fun val =>
    (getCorrectVersion ts (db.value val)).bind fun version =>
      if version.deleted then none else some version.record

def newest (chain : List (Version R)) : Option (Option R) :=
  chain.head?.bind fun version => if version.deleted then none else some version.record

section Maps
variable [LinearOrder T]

def Call.apply (m : T × K → Option R) : Call T K R → T × K → Option R
  | .point .insert address fresh => Function.update m address (some fresh)
  | .point .upsert address fresh =>
    Function.update m address (some ((m address).getD fresh))
  | .point .remove address _ => Function.update m address none
  | .point .read _ _ | .point .update _ _ => m
  | .store address record => Function.update m address (some record)
  | .readScan _ _ _ _ _ => m

/-- The replies of a map to an operation that does not fail; the record that `remove` reports
is not constrained. -/
def Call.Answers (m : T × K → Option R) : Call T K R → Reply K R → Prop
  | .point .insert address fresh, reply => m address = none ∧ reply = .record fresh
  | .point .upsert address fresh, reply => reply = .record ((m address).getD fresh)
  | .point .remove address _, reply => (m address).isSome ∧ ∃ record, reply = .record record
  | .point .read address _, reply | .point .update address _, reply =>
    ∃ record, m address = some record ∧ reply = .record record
  | .store _ _, reply => reply = .stored
  | .readScan table low up rev _, reply =>
    ∃ rows : List (K × R), reply = .listed (rows.map fun row => (row.1, some row.2)) ∧
      (rows.Pairwise fun first second => first.1 < second.1) ∧
      ∀ key record, (key, record) ∈ rows ↔
        Scanned rev low up key ∧ m (table, key) = some record

def mapAfter (m : T × K → Option R) (trace : List (Call T K R × Reply K R)) : T × K → Option R :=
  trace.foldl (fun m step => step.1.apply m) m

end Maps

/-! ## Agreement -/

def Matches (content : Option R) (e : Element R) : Prop :=
  match e.rwt with
  | .read => e.readRec = content ∧ content.isSome ∧ e.writeRec = none
  | .update | .insert => e.writeRec = content ∧ content.isSome
  | .delete => content = none ∧ e.writeRec = none

/-- A session that has done to its sets what was done to the map. -/
structure Session.Follows (s : Session T K R) (m : T × K → Option R) : Prop where
  chain : ∀ address val, s.db.lookup address = some val → s.db.value val ≠ [] ∧
    ∀ version ∈ s.db.value val, version.writeTs ≤ s.startTs
  element : ∀ address e, s.rws address = some e → Matches (m address) e ∧
    s.db.lookup address = if e.isNew then none else some e.val
  unwritten : ∀ address, ¬ Written (s.rws address) →
    (s.db.lookup address).bind (fun val => newest (s.db.value val)) = (m address).map some

section Chains
variable {chain : List (Version R)} {ts : Nat}

theorem getCorrectVersion_head (old : ∀ version ∈ chain, version.writeTs ≤ ts) :
    getCorrectVersion ts chain = chain.head? := by
  cases chain with
  | nil => rfl
  | cons head prev =>
    unfold getCorrectVersion
    rw [if_neg (Nat.not_lt.mpr (old head List.mem_cons_self))]
    rfl

theorem newest_touch (id ts smallestTs : Nat) (chain : List (Version R)) :
    newest (touch id ts (gcVersionChain smallestTs chain)) = newest chain := by
  unfold newest
  rw [touch_head?, gcVersionChain_head?]
  cases chain.head? with
  | none => rfl
  | some head =>
    simp only [Option.map_some, Option.bind_some]
    split <;> simp

theorem touch_old {id smallestTs startTs : Nat} (old : ∀ version ∈ chain, version.writeTs ≤ ts) :
    ∀ version ∈ touch id startTs (gcVersionChain smallestTs chain), version.writeTs ≤ ts := by
  intro version member
  obtain ⟨version', member', rfl⟩ := List.mem_map.mp member
  have bound := old version' (gcVersionChain_subset member')
  split
  · simpa using bound
  · exact bound

theorem touch_ne_nil {id smallestTs startTs : Nat} (nonempty : chain ≠ []) :
    touch id startTs (gcVersionChain smallestTs chain) ≠ [] := by
  cases chain with
  | nil => exact absurd rfl nonempty
  | cons head prev =>
    unfold touch gcVersionChain
    split <;> simp

/-- A single deleted version is as good as none. -/
theorem newest_of_isEmpty (empty : isEmpty chain = true) : newest chain = none := by
  unfold isEmpty at empty
  split at empty
  · simp [newest, empty]
  · cases empty

end Chains

namespace Session.Follows

variable {s : Session T K R} {m : T × K → Option R} {address : T × K} {val : Nat}

theorem congr {locks : List LockEvent} {collected : List Nat} {freed : List (Block T K)}
    {tables : List T} (follows : s.Follows m) :
    ({ s with locks := locks, collected := collected, freed := freed, tables := tables } :
      Session T K R).Follows m :=
  ⟨follows.chain, follows.element, follows.unwritten⟩

theorem setChain (follows : s.Follows m) {chain : List (Version R)} (nonempty : chain ≠ [])
    (old : ∀ version ∈ chain, version.writeTs ≤ s.startTs)
    (same : newest chain = newest (s.db.value val)) : (s.setChain val chain).Follows m := by
  have newest' : ∀ val', newest ((s.setChain val chain).db.value val') =
      newest (s.db.value val') := by
    intro val'
    by_cases here : val' = val
    · subst here
      simpa [Session.setChain] using same
    · simp [Session.setChain, here]
  refine ⟨?_, follows.element, ?_⟩
  · intro a v found
    by_cases here : v = val
    · subst here
      simpa [Session.setChain] using ⟨nonempty, old⟩
    · simpa [Session.setChain, here] using follows.chain a v found
  · intro a unwritten
    simp only [newest']
    exact follows.unwritten a unwritten

theorem touched (follows : s.Follows m) (found : s.db.lookup address = some val) (id : Nat) :
    (((s.lock val).setChain val (touch id s.startTs
      (gcVersionChain s.smallestTs (s.db.value val)))).unlock val).Follows m := by
  obtain ⟨nonempty, old⟩ := follows.chain address val found
  exact (follows.setChain (touch_ne_nil nonempty) (touch_old old) (newest_touch ..)).congr

variable [LinearOrder T]

theorem settle (follows : s.Follows m) {outcome : Outcome R} {e : Element R} {content : Option R}
    (element : outcome.element = some e) (matches' : Matches content e)
    (found : s.db.lookup address = if e.isNew then none else some e.val)
    (unwritten : e.rwt = .read → content = m address)
    (clean : e.rwt = .read → ¬ Written (s.rws address)) :
    (s.settle address outcome).Follows (Function.update m address content) := by
  refine ⟨follows.chain, ?_, ?_⟩
  · intro a e' present
    by_cases here : a = address
    · subst here
      simp only [Session.settle, Function.update_self, element, Option.some.injEq] at present
      subst present
      rw [Function.update_self]
      exact ⟨matches', found⟩
    · simp only [Session.settle, Function.update_of_ne here] at present
      rw [Function.update_of_ne here]
      exact follows.element a e' present
  · intro a notWritten
    by_cases here : a = address
    · subst here
      simp only [Session.settle, Function.update_self, element, written_some, not_not] at notWritten
      rw [Function.update_self, unwritten notWritten]
      exact follows.unwritten a (clean notWritten)
    · simp only [Session.settle, Function.update_of_ne here] at notWritten
      rw [Function.update_of_ne here]
      exact follows.unwritten a notWritten

theorem settleNull (follows : s.Follows m) (absent : s.rws address = none) :
    (s.settle address Outcome.null).Follows m := by
  have same : Function.update s.rws address none = s.rws := by
    rw [← absent]
    exact Function.update_eq_self ..
  refine ⟨follows.chain, ?_, ?_⟩
  · intro a e present
    simp only [Session.settle, Outcome.null, same] at present
    exact follows.element a e present
  · intro a unwritten
    simp only [Session.settle, Outcome.null, same] at unwritten
    exact follows.unwritten a unwritten

end Session.Follows

/-! ## Operations -/

section Operations
variable [LinearOrder T] {m : T × K → Option R} {address : T × K} {fresh record : R}

structure Served (m : T × K → Option R) (op : Operation) (address : T × K) (fresh : R)
    (record : R) (outcome : Outcome R) (e : Element R) (content : Option R) : Prop where
  answers : (Call.point op address fresh).Answers m (.record record : Reply K R)
  apply : (Call.point op address fresh).apply m = Function.update m address content
  element : outcome.element = some e
  matches' : Matches content e
  unwritten : e.rwt = .read → content = m address

theorem Served.keep {op : Operation} {outcome : Outcome R} {e : Element R}
    (reads : op = .read ∨ op = .update ∨ op = .upsert) (present : m address = some record)
    (element : outcome.element = some e) (matches' : Matches (m address) e) :
    Served m op address fresh record outcome e (m address) := by
  obtain rfl | rfl | rfl := reads
  · exact ⟨⟨record, present, rfl⟩, (Function.update_eq_self ..).symm, element, matches',
      fun _ => rfl⟩
  · exact ⟨⟨record, present, rfl⟩, (Function.update_eq_self ..).symm, element, matches',
      fun _ => rfl⟩
  · exact ⟨by simp [Call.Answers, present], by simp [Call.apply, present], element, matches',
      fun _ => rfl⟩

omit [LinearOrder T] in
theorem Matches.current {content : Option R} {e : Element R} (matches' : Matches content e)
    (live : e.rwt ≠ .delete) : ∃ record, content = some record ∧
      (if e.rwt = .read then e.readRec else e.writeRec) = some record := by
  unfold Matches at matches'
  cases kind : e.rwt with
  | delete => exact absurd kind live
  | read =>
    simp only [kind] at matches'
    obtain ⟨record, content'⟩ := Option.isSome_iff_exists.mp matches'.2.1
    exact ⟨record, content', matches'.1.trans content'⟩
  | update | insert =>
    simp only [kind] at matches'
    obtain ⟨record, content'⟩ := Option.isSome_iff_exists.mp matches'.2
    exact ⟨record, content', matches'.1.trans content'⟩

theorem Element.perform_served {e : Element R} {op : Operation} {outcome : Outcome R} (fresh : R)
    (matches' : Matches (m address) e)
    (regular : op = .remove → e.rwt ≠ .update ∧ e.rwt ≠ .delete)
    (performed : e.perform op = some outcome) (returned : outcome.result = some record) :
    ∃ e' content, Served m op address fresh record outcome e' content ∧ e'.val = e.val ∧
      e'.isNew = e.isNew ∧ (e'.rwt = .read → e.rwt = .read) := by
  have same := matches'
  unfold Element.perform at performed
  unfold Matches at matches'
  cases kind : e.rwt with
  | read =>
    simp only [kind] at performed matches'
    obtain ⟨content, -, none'⟩ := matches'
    cases op with (cases performed)
    | read =>
      exact ⟨e, _, .keep (by simp) (content ▸ returned) rfl same, rfl, rfl, fun _ => rfl⟩
    | insert => cases returned
    | update | upsert =>
      have present : m address = some record := content ▸ returned
      exact ⟨_, _, .keep (by simp) present rfl ⟨content, by simp [present]⟩, rfl, rfl,
        fun isRead => by cases isRead⟩
    | remove =>
      have present : m address = some record := content ▸ returned
      exact ⟨_, none, ⟨⟨by simp [present], record, rfl⟩, rfl, rfl, ⟨rfl, none'⟩,
        fun isRead => by cases isRead⟩, rfl, rfl, fun isRead => by cases isRead⟩
  | update | insert =>
    simp only [kind] at performed matches' regular
    obtain ⟨content, -⟩ := matches'
    cases op with (cases performed)
    | read | update | upsert =>
      exact ⟨e, _, .keep (by simp) (content ▸ returned) rfl same, rfl, rfl,
        fun isRead => by cases kind.symm.trans isRead⟩
    | insert => cases returned
    | remove => first | cases returned | exact absurd rfl (regular rfl).1
  | delete =>
    simp only [kind] at performed matches'
    obtain ⟨-, none'⟩ := matches'
    cases op with (cases performed)
    | read | update => cases returned
    | insert | upsert => cases none'.symm.trans returned

theorem Access.perform_served {access : Access (T × K) R} {version : Version R}
    (isHead : access.isHead = true)
    (content : (if version.deleted then none else some version.record) = (m address).map some)
    (returned : (access.perform version fresh).result = some record) :
    ∃ e content, Served m access.op address fresh record (access.perform version fresh) e content ∧
      e.val = access.val ∧ e.isNew = false := by
  obtain ⟨op, key, val, selected, head⟩ := access
  cases isHead
  cases isDeleted : version.deleted with
  | true =>
    have absent : m address = none := by simpa [isDeleted] using content.symm
    cases op with
    | read | update | remove => simp [Access.perform, isDeleted, Outcome.null] at returned
    | insert | upsert =>
      simp only [Access.perform, isDeleted, and_self, if_true, Access.insertWith,
        Option.some.injEq] at returned ⊢
      subst returned
      exact ⟨_, some fresh, ⟨by simp [Call.Answers, absent], by simp [Call.apply, absent], rfl,
        ⟨rfl, rfl⟩, fun isRead => by cases isRead⟩, rfl, rfl⟩
  | false =>
    obtain ⟨old, present, recorded⟩ :
        ∃ old, m address = some old ∧ some old = version.record := by
      simpa [isDeleted, Option.map_eq_some_iff] using content.symm
    cases op with
    | insert => simp [Access.perform, isDeleted, Outcome.null] at returned
    | read | update | upsert =>
      simp only [Access.perform, isDeleted, Bool.false_eq_true, and_false, if_false,
        Access.updateWith, ← recorded, Option.some.injEq] at returned ⊢
      subst returned
      exact ⟨_, m address, .keep (by simp) present rfl (by simp [Matches, present]), rfl, rfl⟩
    | remove =>
      simp only [Access.perform, isDeleted, Bool.false_eq_true, if_false, ← recorded,
        Option.some.injEq] at returned ⊢
      subst returned
      exact ⟨_, none, ⟨⟨by simp [present], old, rfl⟩, rfl, rfl, ⟨rfl, rfl⟩,
        fun isRead => by cases isRead⟩, rfl, rfl⟩

end Operations

section Calls
variable [LinearOrder T] {s after : Session T K R} {m : T × K → Option R} {address : T × K}

theorem Session.access_eq {val : Nat} (address : T × K) (op : Operation) (fresh : R)
    (nonempty : s.db.value val ≠ []) (live : isEmpty (s.db.value val) = false)
    (old : ∀ version ∈ s.db.value val, version.writeTs ≤ s.startTs) :
    ∃ version, (s.db.value val).head? = some version ∧ s.access op address val fresh =
      let outcome := Access.perform ⟨op, address, val, some version, true⟩ version fresh
      (outcome.result, (((s.lock val).setChain val (touch version.id s.startTs
        (gcVersionChain s.smallestTs (s.db.value val)))).unlock val).settle address outcome) := by
  obtain ⟨version, prev, chain⟩ := List.exists_cons_of_ne_nil nonempty
  have selected : getCorrectVersion s.startTs (s.db.value val) = some version := by
    rw [getCorrectVersion_head old, chain]
    rfl
  have head : (s.db.value val).head? = some version := by simp [chain]
  refine ⟨version, head, ?_⟩
  unfold Session.access
  dsimp only
  rw [if_neg (by simpa using nonempty), if_neg (by simp [live]), selected, head]
  simp

theorem Session.Follows.access {val : Nat} {op : Operation} {fresh record : R}
    (follows : s.Follows m) (absent : s.rws address = none)
    (found : s.db.lookup address = some val)
    (performed : s.access op address val fresh = (some record, after)) :
    (Call.point op address fresh).Answers m (.record record : Reply K R) ∧
      after.Follows ((Call.point op address fresh).apply m) := by
  obtain ⟨nonempty, old⟩ := follows.chain address val found
  cases live : isEmpty (s.db.value val) with
  | true =>
    unfold Session.access at performed
    simp [live, nonempty] at performed
  | false =>
    obtain ⟨version, head, performed'⟩ := s.access_eq address op fresh nonempty live old
    rw [performed'] at performed
    obtain ⟨returned, rfl⟩ := Prod.mk.inj performed
    have content : (if version.deleted then none else some version.record) =
        (m address).map some := by
      have unwritten := follows.unwritten address (by rw [absent]; exact not_written_none)
      rw [found, Option.bind_some, newest, head, Option.bind_some] at unwritten
      exact unwritten
    obtain ⟨e, content, served, sameVal, notNew⟩ := Access.perform_served rfl content returned
    refine ⟨served.answers, ?_⟩
    rw [show (Call.point op address fresh).apply m = _ from served.apply]
    refine (follows.touched found version.id).settle served.element served.matches' ?_
      served.unwritten ?_
    · rw [notNew, sameVal]
      exact found
    · intro _
      change ¬ Written (s.rws address)
      rw [absent]
      exact not_written_none

theorem Session.Follows.miss {op : Operation} {fresh record : R} (follows : s.Follows m)
    (inv : s.Local) (absent : s.rws address = none) (missing : s.db.lookup address = none)
    (performed : s.miss op address fresh = (some record, after)) :
    (Call.point op address fresh).Answers m (.record record : Reply K R) ∧
      after.Follows ((Call.point op address fresh).apply m) := by
  have nothing : m address = none := by
    have unwritten := follows.unwritten address (by rw [absent]; exact not_written_none)
    rw [missing] at unwritten
    simpa using unwritten.symm
  have allocated : (s.allocate address fresh).Follows m := by
    refine ⟨?_, follows.element, ?_⟩
    · intro a v found
      have bound := (inv.indexed a v found).2
      simpa [Session.allocate, bound.ne] using follows.chain a v found
    · intro a unwritten
      rw [← follows.unwritten a unwritten]
      cases found : s.db.lookup a with
      | none =>
        have found' : (s.allocate address fresh).db.lookup a = none := found
        rw [found']
        rfl
      | some v =>
        have found' : (s.allocate address fresh).db.lookup a = some v := found
        have bound := (inv.indexed a v found).2
        rw [found', Option.bind_some, Option.bind_some]
        simp [Session.allocate, bound.ne]
  have inserted : ((s.allocate address fresh).settle address
      ⟨some ⟨none, some fresh, .insert, true, s.db.nextValue⟩, true, some fresh, true⟩).Follows
        (Function.update m address (some fresh)) := by
    refine allocated.settle rfl ⟨rfl, rfl⟩ missing ?_ ?_
    · intro isRead
      cases isRead
    · intro isRead
      cases isRead
  cases op with
  | read | update | remove => cases performed
  | insert =>
    cases performed
    exact ⟨⟨nothing, rfl⟩, inserted⟩
  | upsert =>
    cases performed
    refine ⟨by simp [Call.Answers, nothing], ?_⟩
    simpa [Call.apply, nothing] using inserted

theorem Session.Follows.point {op : Operation} {fresh record : R} (follows : s.Follows m)
    (inv : s.Local)
    (regular : op = .remove → ∀ e, s.rws address = some e → e.rwt ≠ .update ∧ e.rwt ≠ .delete)
    (performed : s.point op address fresh = .ok (some record, after)) :
    (Call.point op address fresh).Answers m (.record record : Reply K R) ∧
      after.Follows ((Call.point op address fresh).apply m) := by
  unfold Session.point at performed
  cases present : s.rws address with
  | some e =>
    simp only [present] at performed
    cases own : e.perform op with
    | none =>
      simp only [own] at performed
      cases performed
    | some outcome =>
      simp only [own] at performed
      obtain ⟨returned, rfl⟩ := Prod.mk.inj (Except.ok.inj performed)
      obtain ⟨matches', found⟩ := follows.element address e present
      obtain ⟨e', content, served, sameVal, sameNew, isRead⟩ := Element.perform_served
        fresh matches' (fun isRemove => regular isRemove e present) own returned
      refine ⟨served.answers, ?_⟩
      rw [show (Call.point op address fresh).apply m = _ from served.apply]
      have settled := follows.settle served.element served.matches'
        (by rw [sameNew, sameVal]; exact found) served.unwritten (by
          intro kind
          rw [present, written_some, not_not]
          exact isRead kind)
      unfold Session.release
      split
      · exact settled.congr
      · exact settled
  | none =>
    simp only [present] at performed
    cases found : s.db.lookup address with
    | none =>
      simp only [found] at performed
      exact follows.miss inv present found (Except.ok.inj performed)
    | some val =>
      simp only [found] at performed
      exact follows.access present found (Except.ok.inj performed)

end Calls

/-! ## Scans -/

section Scans
variable [LinearOrder T] {s after : Session T K R} {m : T × K → Option R} {address : T × K}

theorem Session.Follows.deleteFromTree {val : Nat} (follows : s.Follows m) (inv : s.Local)
    (absent : s.rws address = none) (found : s.db.lookup address = some val)
    (empty : isEmpty (s.db.value val) = true) : (s.deleteFromTree address val).Follows m := by
  have lookup : ∀ a, (s.deleteFromTree address val).db.lookup a =
      if a = address then none else s.db.lookup a := s.lookup_removeKey address
  have other : ∀ a v, a ≠ address → s.db.lookup a = some v → v ≠ val := by
    rintro a v different found' rfl
    have home := (inv.indexed a v found').1
    rw [(inv.indexed address v found).1] at home
    exact different home.symm
  refine ⟨?_, ?_, ?_⟩
  · intro a v found'
    rw [lookup] at found'
    split at found'
    · cases found'
    · rename_i different
      have ne := other a v different found'
      simpa [Session.deleteFromTree, Session.setChain, Session.removeKey, ne] using
        follows.chain a v found'
  · intro a e present
    have different : a ≠ address := by
      rintro rfl
      cases absent.symm.trans present
    rw [lookup, if_neg different]
    exact follows.element a e present
  · intro a unwritten
    have before := follows.unwritten a unwritten
    rw [lookup]
    split
    · rename_i here
      subst here
      rw [found, Option.bind_some, newest_of_isEmpty empty] at before
      exact before
    · rename_i different
      cases found' : s.db.lookup a with
      | none => simpa [found'] using before
      | some v =>
        have ne := other a v different found'
        rw [found'] at before
        simpa [Session.deleteFromTree, Session.setChain, Session.removeKey, ne] using before

theorem Session.Follows.visit [Inhabited R] {val : Nat} (follows : s.Follows m) (inv : s.Local)
    (found : s.db.lookup address = some val)
    (regular : ∀ e, s.rws address = some e → e.rwt ≠ .delete) :
    ∃ after, s.visit address val = .ok ((m address).map some, after) ∧ after.Follows m := by
  unfold Session.visit
  cases present : s.rws address with
  | some e =>
    obtain ⟨record, content, current⟩ :=
      (follows.element address e present).1.current (regular e present)
    refine ⟨s, ?_, follows⟩
    cases kind : e.rwt with
    | delete => exact absurd kind (regular e present)
    | read | update | insert => simpa [kind, content] using current
  | none =>
    have unwritten := follows.unwritten address (by rw [present]; exact not_written_none)
    rw [found, Option.bind_some] at unwritten
    obtain ⟨nonempty, old⟩ := follows.chain address val found
    cases live : isEmpty (s.db.value val) with
    | true =>
      have performed : s.access .read address val default =
          (none, ((s.lock val).deleteFromTree address val).unlock val) := by
        unfold Session.access
        dsimp only
        rw [if_neg (by simpa using nonempty), if_pos live]
      refine ⟨((s.lock val).deleteFromTree address val).unlock val, ?_,
        (follows.deleteFromTree inv present found live).congr⟩
      rw [newest_of_isEmpty live] at unwritten
      simp only [performed, ← unwritten]
      have still : (((s.lock val).deleteFromTree address val).unlock val).rws address = none :=
        present
      rw [still]
      rfl
    | false =>
      obtain ⟨version, head, performed⟩ := s.access_eq address .read default nonempty live old
      rw [newest, head, Option.bind_some] at unwritten
      cases isDeleted : version.deleted with
      | true =>
        simp only [Access.perform, isDeleted, if_true] at performed
        refine ⟨_, ?_, (follows.touched found version.id).settleNull present⟩
        simp only [performed, ← unwritten, isDeleted, if_true]
        simp [Session.settle, Outcome.null]
      | false =>
        obtain ⟨record, content, recorded⟩ :
            ∃ record, m address = some record ∧ some record = version.record := by
          simpa [isDeleted, Option.map_eq_some_iff] using unwritten.symm
        simp only [Access.perform, isDeleted, Bool.false_eq_true, if_false,
          ← recorded] at performed
        obtain ⟨-, kept⟩ := follows.access present found performed
        refine ⟨_, ?_, kept⟩
        simp only [performed, content]
        simp [Session.settle]

theorem Session.Follows.scanLoop [Inhabited R] {table : T} {rest : List (K × Nat)}
    (follows : s.Follows m) (inv : s.Local) (inTables : table ∈ s.tables)
    (distinct : rest.Pairwise fun first second => first.1 ≠ second.1)
    (found : ∀ entry ∈ rest, s.db.lookup (table, entry.1) = some entry.2)
    (regular : ∀ entry ∈ rest, ∀ e, s.rws (table, entry.1) = some e → e.rwt ≠ .delete) :
    ∃ after, Session.scanLoop table rest s = .ok (rest.filterMap fun entry =>
        (m (table, entry.1)).map fun record => (entry.1, some record), after) ∧
      after.Follows m := by
  induction rest generalizing s with
  | nil => exact ⟨s, rfl, follows⟩
  | cons entry rest ih =>
    obtain ⟨key, val⟩ := entry
    obtain ⟨others, distinct⟩ := List.pairwise_cons.mp distinct
    have here := found _ List.mem_cons_self
    obtain ⟨middle, visited, kept⟩ :=
      follows.visit inv here (regular _ List.mem_cons_self)
    have different : ∀ other ∈ rest, (table, other.1) ≠ (table, key) :=
      fun other member same => others other member (congrArg Prod.snd same).symm
    obtain ⟨-, tables, frame⟩ := Session.visit_frame visited
    obtain ⟨after, loop, final⟩ := ih kept (inv.visit inTables here visited)
      (by rw [tables]; exact inTables) distinct
      (fun other member => by
        rw [(frame _ (different other member)).2]
        exact found other (List.mem_cons_of_mem _ member))
      (fun other member => by
        rw [(frame _ (different other member)).1]
        exact regular other (List.mem_cons_of_mem _ member))
    refine ⟨after, ?_, final⟩
    unfold Session.scanLoop
    simp only [visited, loop]
    cases content : m (table, key) <;> simp [content]

/-- What a transaction may do: it does not remove a key that it has updated or removed, and
does not scan a range with a key that it has removed or added to the index. -/
def Session.Regular (s : Session T K R) : Call T K R → Prop
  | .point .remove address _ => ∀ e, s.rws address = some e → e.rwt ≠ .update ∧ e.rwt ≠ .delete
  | .readScan table low up rev _ => ∀ key e, Scanned rev low up key →
      s.rws (table, key) = some e → e.rwt ≠ .delete ∧ e.isNew = false
  | .store address _ => ∃ e, s.rws address = some e ∧ e.writeRec.isSome
  | .point _ _ _ => True

theorem inDirection_filterMap {α β : Type} (rev : Bool) (f : α → Option β) (items : List α) :
    inDirection rev ((inDirection rev items).filterMap f) = items.filterMap f := by
  unfold inDirection
  split <;> simp [List.filterMap_reverse]

theorem Session.Follows.readScan [Inhabited R] {table : T} {low up : K} {rev : Bool}
    {leaves : List Nat} (follows : s.Follows m) (inv : s.Local) (inTables : table ∈ s.tables)
    (regular : s.Regular (.readScan table low up rev leaves)) :
    ∃ rows after, s.readScan table low up rev leaves = .ok (rows, after) ∧
      (Call.readScan table low up rev leaves).Answers m (.listed rows) ∧ after.Follows m := by
  have updated : (s.updateTs leaves).Follows m :=
    ⟨follows.chain, follows.element, follows.unwritten⟩
  obtain ⟨after, scanned, kept⟩ := updated.scanLoop (inv.updateTs leaves) inTables
    (s.db.getKvInRange_distinct table low up rev)
    (fun entry member => (Db.mem_getKvInRange.mp member).1)
    (fun entry member e present => (regular entry.1 e (Db.mem_getKvInRange.mp member).2 present).1)
  let rows := ((s.db.index table).entries.filter fun entry => Scanned rev low up entry.1).filterMap
    fun entry => (m (table, entry.1)).map fun record => (entry.1, record)
  refine ⟨_, after, by rw [Session.readScan, scanned]; rfl, ⟨rows, ?_, ?_, ?_⟩, kept⟩
  · rw [Db.getKvInRange, inDirection_filterMap]
    simp only [rows, List.map_filterMap, Option.map_map]
    rfl
  · refine List.Pairwise.filterMap _ ?_ ((s.db.index table).ascending.filter _)
    intro first second below row isRow row' isRow'
    obtain ⟨_, -, rfl⟩ := Option.map_eq_some_iff.mp isRow
    obtain ⟨_, -, rfl⟩ := Option.map_eq_some_iff.mp isRow'
    exact below
  · intro key record
    constructor
    · intro member
      obtain ⟨entry, inRange, isRow⟩ := List.mem_filterMap.mp member
      obtain ⟨_, content, same⟩ := Option.map_eq_some_iff.mp isRow
      obtain ⟨rfl, rfl⟩ := Prod.mk.inj same
      exact ⟨of_decide_eq_true (List.mem_filter.mp inRange).2, content⟩
    · rintro ⟨inRange, content⟩
      have indexed : ∃ val, s.db.lookup (table, key) = some val := by
        by_cases written : Written (s.rws (table, key))
        · obtain ⟨e, present, -⟩ := written
          obtain ⟨-, found⟩ := follows.element _ _ present
          rw [(regular key e inRange present).2] at found
          exact ⟨e.val, found⟩
        · have unwritten := follows.unwritten _ written
          rw [content, Option.map_some] at unwritten
          obtain ⟨val, found, -⟩ := Option.bind_eq_some_iff.mp unwritten
          exact ⟨val, found⟩
      obtain ⟨val, found⟩ := indexed
      refine List.mem_filterMap.mpr ⟨(key, val), List.mem_filter.mpr
        ⟨OrderedMap.get?_eq_some_iff.mp found, decide_eq_true inRange⟩, ?_⟩
      simp [content]

end Scans

/-! ## Calls -/

section Calls
variable [LinearOrder T] {s after : Session T K R} {m : T × K → Option R}

theorem Session.Follows.addTable (follows : s.Follows m) (table : T) :
    (s.addTable table).Follows m := ⟨follows.chain, follows.element, follows.unwritten⟩

theorem Session.Follows.store {address : T × K} {e : Element R} (follows : s.Follows m)
    (found : s.db.lookup address = if e.isNew then none else some e.val)
    (buffer : e.writeRec.isSome) (matches' : Matches (m address) e) (record : R) :
    ({ s with rws := Function.update s.rws address (some { e with writeRec := some record }) } :
      Session T K R).Follows (Function.update m address (some record)) := by
  have outcome : Matches (some record) { e with writeRec := some record } ∧ e.rwt ≠ .read := by
    unfold Matches at matches' ⊢
    cases kind : e.rwt with
    | update | insert => exact ⟨⟨rfl, rfl⟩, by simp⟩
    | read | delete =>
      have none' : e.writeRec = none := by simp_all
      simp [none'] at buffer
  have settled : (s.settle address
      ⟨some { e with writeRec := some record }, false, none, false⟩).Follows
        (Function.update m address (some record)) :=
    follows.settle rfl outcome.1 found (fun isRead => absurd isRead outcome.2)
      fun isRead => absurd isRead outcome.2
  exact settled

theorem Session.Follows.call [Inhabited R] {call : Call T K R} {reply : Reply K R}
    (follows : s.Follows m) (inv : s.Local) (regular : s.Regular call)
    (called : s.call call = .ok (reply, after)) (served : reply ≠ .null) :
    call.Answers m reply ∧ after.Follows (call.apply m) := by
  cases Session.called_of_call called with
  | @point op address fresh record _ performed =>
    cases record with
    | none => exact absurd rfl served
    | some record =>
      refine (follows.addTable address.1).point (inv.addTable address.1) ?_ performed
      rintro rfl
      exact regular
  | @store address record e present buffer =>
    obtain ⟨matches', found⟩ := follows.element address e present
    exact ⟨rfl, follows.store found buffer matches' record⟩
  | @readScan table low up rev leaves rows _ scanned =>
    obtain ⟨rows', final, scanned', answers, kept⟩ := (follows.addTable table).readScan
      (inv.addTable table) (s.mem_addTable table) regular
    cases scanned.symm.trans scanned'
    exact ⟨answers, kept⟩

theorem Session.Follows.call_ok [Inhabited R] {call : Call T K R} (follows : s.Follows m)
    (inv : s.Local) (regular : s.Regular call) :
    ∃ reply after, s.call call = .ok (reply, after) := by
  cases call with
  | point op address fresh =>
    have performed : ∃ result final,
        (s.addTable address.1).point op address fresh = .ok (result, final) := by
      unfold Session.point
      cases present : (s.addTable address.1).rws address with
      | none =>
        dsimp only
        split <;> exact ⟨_, _, rfl⟩
      | some e =>
        dsimp only
        cases own : e.perform op with
        | some outcome => exact ⟨_, _, rfl⟩
        | none =>
          have removed : op = .remove ∧ e.rwt = .delete := by
            unfold Element.perform at own
            cases kind : e.rwt <;> simp only [kind] at own <;> cases op <;> cases own
            exact ⟨rfl, rfl⟩
          obtain ⟨rfl, kind⟩ := removed
          exact absurd kind (regular e present).2
    obtain ⟨result, final, performed⟩ := performed
    refine ⟨Reply.ofRecord result, final, ?_⟩
    simp only [Session.call]
    rw [performed]
    rfl
  | store address record =>
    obtain ⟨e, present, buffer⟩ := regular
    unfold Session.call
    simp only [present, buffer, if_true]
    exact ⟨_, _, rfl⟩
  | readScan table low up rev leaves =>
    obtain ⟨rows, final, scanned, -, -⟩ := (follows.addTable table).readScan
      (inv.addTable table) (s.mem_addTable table) regular
    refine ⟨.listed rows, final, ?_⟩
    simp only [Session.call]
    rw [scanned]
    rfl

end Calls

/-! ## The commit -/

section Commit
variable [LinearOrder T] {s s₁ after : Session T K R} {m : T × K → Option R}

def appliedChain (s : Session T K R) (e : Element R) (chain : List (Version R)) :
    List (Version R) :=
  gcVersionChain s.smallestTs
    (if e.isNew then chain
      else ⟨s.db.nextVersion, s.startTs, s.startTs, e.writeRec, e.rwt = .delete⟩ :: chain)

omit [LinearOrder T] in
theorem Session.applyEntry_value (s : Session T K R) (e : Element R) (val : Nat) :
    (s.applyEntry e).db.value val =
      if val = e.val then appliedChain s e (s.db.value e.val) else s.db.value val := by
  unfold Session.applyEntry appliedChain
  cases e.isNew <;> by_cases here : val = e.val <;>
    simp [Session.setChain, Session.unlock, here]

omit [LinearOrder T] in
theorem Session.applyEntry_frame (s : Session T K R) (e : Element R) :
    (s.applyEntry e).rws = s.rws ∧ (s.applyEntry e).startTs = s.startTs ∧
      (s.applyEntry e).db.index = s.db.index := by
  unfold Session.applyEntry
  cases e.isNew <;> exact ⟨rfl, rfl, rfl⟩

def Session.Old (s : Session T K R) (val : Nat) : Prop :=
  ∀ version ∈ s.db.value val, version.writeTs ≤ s.startTs

structure Applied (s₁ : Session T K R) (done : List (T × K)) (s : Session T K R) : Prop where
  rws : s.rws = s₁.rws
  startTs : s.startTs = s₁.startTs
  index : s.db.index = s₁.db.index
  applied : ∀ address ∈ done, ∀ e, s₁.rws address = some e →
    newest (s.db.value e.val) = if e.rwt = .delete then none else some e.writeRec
  old : ∀ val, s₁.Old val → s.Old val
  other : ∀ val, (∀ address ∈ done, ∀ e, s₁.rws address = some e → e.val ≠ val) →
    s.db.value val = s₁.db.value val

omit [LinearOrder T] in
theorem Applied.applyEntry {done : List (T × K)} {address : T × K} {e : Element R}
    (applied : Applied s₁ done s) (present : s₁.rws address = some e) (once : address ∉ done)
    (apart : ∀ a b e e', s₁.rws a = some e → s₁.rws b = some e' → a ≠ b → e.val ≠ e'.val)
    (new : e.isNew = true → e.rwt = .insert ∧ newest (s₁.db.value e.val) = some e.writeRec) :
    Applied s₁ (done ++ [address]) (s.applyEntry e) := by
  obtain ⟨rws, startTs, index⟩ := s.applyEntry_frame e
  have untouched : s.db.value e.val = s₁.db.value e.val := by
    refine applied.other e.val fun a member e' present' => ?_
    exact apart a address e' e present' present fun same => once (same ▸ member)
  refine ⟨rws.trans applied.rws, startTs.trans applied.startTs, index.trans applied.index, ?_, ?_,
    ?_⟩
  · intro a member e' present'
    rw [Session.applyEntry_value]
    by_cases same : a = address
    · subst same
      cases present.symm.trans present'
      rw [if_pos rfl, untouched]
      unfold appliedChain newest
      rw [gcVersionChain_head?]
      cases isNew : e.isNew with
      | true =>
        obtain ⟨isInsert, content⟩ := new isNew
        simpa [isInsert, newest] using content
      | false => simp
    · rw [if_neg (apart a address e' e present' present same)]
      exact applied.applied a ((List.mem_append.mp member).resolve_right (by simpa using same)) e'
        present'
  · intro val old version member
    rw [Session.applyEntry_value] at member
    rw [startTs]
    split at member
    · rename_i here
      subst here
      have kept := gcVersionChain_subset member
      split at kept
      · exact applied.old e.val old version kept
      · rcases List.mem_cons.mp kept with rfl | older
        · exact le_rfl
        · exact applied.old e.val old version older
    · exact applied.old val old version member
  · intro val outside
    rw [Session.applyEntry_value, if_neg]
    · exact applied.other val fun a member => outside a (List.mem_append_left _ member)
    · exact (outside address (List.mem_append_right _ (List.mem_singleton_self _)) e present).symm

omit [LinearOrder T] in
theorem Applied.applyEntries {done entries : List (T × K)} (applied : Applied s₁ done s)
    (once : (done ++ entries).Nodup)
    (apart : ∀ a b e e', s₁.rws a = some e → s₁.rws b = some e' → a ≠ b → e.val ≠ e'.val)
    (new : ∀ address ∈ entries, ∀ e, s₁.rws address = some e → e.isNew = true →
      e.rwt = .insert ∧ newest (s₁.db.value e.val) = some e.writeRec)
    (finished : Session.applyEntries entries s = .ok after) :
    Applied s₁ (done ++ entries) after := by
  induction entries generalizing s done with
  | nil =>
    cases finished
    simpa using applied
  | cons address rest ih =>
    unfold Session.applyEntries at finished
    cases present : s.rws address with
    | none =>
      simp only [present] at finished
      cases finished
    | some e =>
      simp only [present] at finished
      have present' : s₁.rws address = some e := applied.rws ▸ present
      have fresh : address ∉ done := fun member =>
        (List.nodup_append.mp once).2.2 address member address List.mem_cons_self rfl
      have next := applied.applyEntry present' fresh apart
        (new address List.mem_cons_self e present')
      have final := ih next (by simpa using once)
        (fun a member => new a (List.mem_cons_of_mem _ member)) finished
      simpa using final

omit [LinearOrder T] in
theorem Db.visible_eq {db : Db T K R} {ts : Nat} {address : T × K}
    (old : ∀ val, db.lookup address = some val → ∀ version ∈ db.value val, version.writeTs ≤ ts) :
    db.visible ts address = (db.lookup address).bind fun val => newest (db.value val) := by
  unfold Db.visible newest
  cases found : db.lookup address with
  | none => rfl
  | some val =>
    rw [Option.bind_some, Option.bind_some, getCorrectVersion_head (old val found)]

omit [LinearOrder T] in
theorem Session.Progress.mem_entries {inserted gone : List (T × K)} (inv : s.Local)
    (progress : Progress s inserted gone s₁) (address : T × K) :
    address ∈ s₁.entries ↔ Written (s.rws address) := by
  rw [show s₁.entries = s₁.entriesOf s₁.tables from rfl, Session.mem_entriesOf, progress.tables,
    (progress.ws _).mem_iff, inv.written]
  refine ⟨And.right, fun written => ⟨?_, written⟩⟩
  exact inv.listed _ (List.ne_nil_of_mem ((inv.written _ _).mpr written))

omit [LinearOrder T] in
theorem Session.Follows.applied (follows : s.Follows m) (inv : s.Local)
    (progress : Progress s s₁.entries [] s₁)
    (finished : Session.applyEntries s₁.entries s₁ = .ok after) {ts : Nat}
    (later : s.startTs ≤ ts) (address : T × K) :
    after.db.visible ts address = (m address).map some := by
  have once : s₁.entries.Nodup := Session.nodup_entriesOf (progress.tables ▸ inv.tables)
    fun table => (progress.ws table).nodup_iff.mpr (inv.keys table)
  have start : Applied s₁ [] s₁ := ⟨rfl, rfl, rfl, fun _ member => absurd member List.not_mem_nil,
    fun _ old => old, fun _ _ => rfl⟩
  have applied : Applied s₁ s₁.entries after := by
    refine start.applyEntries once ?_ ?_ finished
    · intro a b e e' present present' different
      rw [progress.rws] at present present'
      exact inv.val_ne present present' different
    · intro a member e present isNew
      rw [progress.rws] at present
      obtain ⟨isInsert, -, -, version, chain, -, -, live⟩ := (inv.element a e present).new isNew
      obtain ⟨-, version', chain', now⟩ := progress.found a member e present isNew
      cases chain.symm.trans chain'
      exact ⟨isInsert, by simp [newest, now, live]⟩
  have indexed : ∀ val, s.db.lookup address = some val → s₁.db.value val = s.db.value val :=
    fun val found => progress.other val fun _ _ present isNew =>
      inv.ne_of_indexed found present isNew
  have lookup : after.db.lookup address = s₁.db.lookup address := by
    unfold Db.lookup
    rw [applied.index]
  have older : ∀ val, s₁.Old val → ∀ version ∈ after.db.value val, version.writeTs ≤ ts := by
    intro val old version member
    have bound := applied.old val old version member
    rw [applied.startTs, progress.startTs] at bound
    exact bound.trans later
  by_cases written : Written (s.rws address)
  · have member := (progress.mem_entries inv address).mpr written
    obtain ⟨e, present, kind⟩ := written
    obtain ⟨matches', found⟩ := follows.element address e present
    have content := applied.applied address member e (progress.rws ▸ present)
    have located : s₁.db.lookup address = some e.val ∧ s₁.Old e.val := by
      cases isNew : e.isNew with
      | true =>
        obtain ⟨-, -, -, version, chain, -, made, -⟩ := (inv.element address e present).new isNew
        obtain ⟨found', version', chain', now⟩ := progress.found address member e present isNew
        cases chain.symm.trans chain'
        refine ⟨found', fun other inChain => ?_⟩
        rw [now, List.mem_singleton] at inChain
        subst inChain
        rw [progress.startTs]
        exact made.le
      | false =>
        rw [isNew] at found
        refine ⟨(progress.lookup address ?_).trans found, fun version inChain => ?_⟩
        · rintro ⟨-, e', present', isNew'⟩
          cases present.symm.trans present'
          cases isNew.symm.trans isNew'
        · rw [indexed _ found] at inChain
          rw [progress.startTs]
          exact (follows.chain address e.val found).2 version inChain
    rw [Db.visible_eq, lookup, located.1, Option.bind_some, content]
    · by_cases deleted : e.rwt = .delete
      · simp only [Matches, deleted] at matches'
        simp [deleted, matches'.1]
      · obtain ⟨record, content, current⟩ := matches'.current deleted
        rw [if_neg kind] at current
        simp [deleted, content, current]
    · intro val found'
      rw [lookup, located.1] at found'
      cases found'
      exact older e.val located.2
  · have outside : ¬ (address ∈ s₁.entries ∧ s.IsNew address) := fun inside =>
      written ((progress.mem_entries inv address).mp inside.1)
    have same := progress.lookup address outside
    have untouched : ∀ val, s.db.lookup address = some val →
        after.db.value val = s.db.value val := by
      intro val found
      rw [applied.other val, indexed val found]
      intro a member e present equal
      rw [progress.rws] at present
      have home := (inv.element a e present).home
      rw [equal, (inv.indexed address val found).1] at home
      subst home
      exact written ((progress.mem_entries inv address).mp member)
    rw [Db.visible_eq, lookup, same]
    · rw [← follows.unwritten address written]
      cases found : s.db.lookup address with
      | none => rfl
      | some val => rw [Option.bind_some, Option.bind_some, untouched val found]
    · intro val found
      rw [lookup, same] at found
      refine older val fun version inChain => ?_
      rw [indexed val found] at inChain
      rw [progress.startTs]
      exact (follows.chain address val found).2 version inChain

theorem Session.Follows.commit {leafOf : T × K → Nat} (follows : s.Follows m) (inv : s.Local)
    (committed : s.precommit leafOf = .ok (true, after)) {ts : Nat} (later : s.startTs ≤ ts)
    (address : T × K) : after.db.visible ts address = (m address).map some := by
  obtain ⟨s₁, passed, progress⟩ | ⟨_, _, _, failed, -⟩ :=
    lockTables_spec leafOf inv (List.nil_append s.tables).symm (Progress.start inv)
      (by simp [lockedFor, entriesOf])
  · unfold Session.precommit at committed
    rw [passed] at committed
    dsimp only at committed
    cases finished : Session.applyEntries s₁.entries s₁ with
    | error fault =>
      rw [finished] at committed
      cases committed
    | ok final =>
      rw [finished] at committed
      cases committed
      exact follows.applied inv progress finished later address
  · unfold Session.precommit at committed
    rw [failed] at committed
    cases committed

end Commit

/-! ## Runs -/

section Runs
variable [LinearOrder T] [Inhabited R] [DecidableEq R]

def stepCall (s : Session T K R) (step : Call T K R × Reply K R) : Option (Session T K R) :=
  match s.call step.1 with
  | .ok (reply, after) => if reply = step.2 ∧ reply ≠ .null then some after else none
  | .error _ => none

structure Db.Contains (db : Db T K R) (startTs : Nat) (m : T × K → Option R) : Prop where
  indexed : ∀ address val, db.lookup address = some val →
    db.home val = address ∧ val < db.nextValue
  chain : ∀ address val, db.lookup address = some val → db.value val ≠ [] ∧
    ∀ version ∈ db.value val, version.writeTs ≤ startTs
  visible : ∀ address, db.visible startTs address = (m address).map some

theorem stepCall_eq_some {s after : Session T K R} {step : Call T K R × Reply K R}
    (taken : stepCall s step = some after) :
    s.call step.1 = .ok (step.2, after) ∧ step.2 ≠ .null := by
  unfold stepCall at taken
  cases called : s.call step.1 with
  | error fault =>
    rw [called] at taken
    cases taken
  | ok outcome =>
    obtain ⟨reply, final⟩ := outcome
    simp only [called, Option.ite_none_right_eq_some, Option.some.injEq] at taken
    obtain ⟨⟨rfl, served⟩, rfl⟩ := taken
    exact ⟨rfl, served⟩

omit [DecidableEq R] in
theorem Session.keepsInserted_of_served {s after : Session T K R} {call : Call T K R}
    {reply : Reply K R} (called : s.call call = .ok (reply, after)) (served : reply ≠ .null) :
    s.KeepsInserted call := by
  cases call with
  | store | readScan => trivial
  | point op address fresh =>
    cases op with
    | read | insert | update | upsert => trivial
    | remove =>
      intro e present kind
      have present' : (s.addTable address.1).rws address = some e := present
      have own : e.perform .remove = some Outcome.null := by simp [Element.perform, kind]
      simp only [Session.call, Session.point, present', own] at called
      cases called
      exact served rfl

omit [Inhabited R] [DecidableEq R] in
theorem Session.point_startTs {s : Session T K R} {op : Operation} {address : T × K} {fresh : R}
    {outcome : Option R × Session T K R} (performed : s.point op address fresh = .ok outcome) :
    outcome.2.startTs = s.startTs := by
  unfold Session.point at performed
  split at performed
  · split at performed
    · cases performed
    · cases performed
      unfold Session.release
      split <;> rfl
  · split at performed
    · cases performed
      cases op <;> rfl
    · cases performed
      exact (s.access_frame ..).1

omit [DecidableEq R] in
theorem Session.scanLoop_startTs {table : T} {rest : List (K × Nat)} {s after : Session T K R}
    {rows : List (K × Option R)} (scanned : Session.scanLoop table rest s = .ok (rows, after)) :
    after.startTs = s.startTs := by
  induction rest generalizing s rows with
  | nil =>
    cases scanned
    rfl
  | cons entry rest ih =>
    obtain ⟨key, val⟩ := entry
    obtain ⟨record, middle, later, visited, loop, -⟩ := Session.scanLoop_cons scanned
    exact (ih loop).trans (Session.visit_frame visited).1

omit [DecidableEq R] in
theorem Session.call_startTs {s after : Session T K R} {call : Call T K R} {reply : Reply K R}
    (called : s.call call = .ok (reply, after)) : after.startTs = s.startTs := by
  cases Session.called_of_call called with
  | store => rfl
  | readScan scanned =>
    obtain ⟨⟨found, last⟩, looped, same⟩ := Except.map_eq_ok scanned
    cases same
    exact (Session.scanLoop_startTs looped).trans rfl
  | point performed => exact (Session.point_startTs performed).trans rfl

theorem run_follows {startTs smallestTs : Nat} {db : Db T K R} {m : T × K → Option R}
    {trace : List (Call T K R × Reply K R)} {s : Session T K R}
    (contains : db.Contains startTs m)
    (run : Run stepCall (fun s step => s.Regular step.1) (Session.new startTs smallestTs db) trace
      s) :
    s.Local ∧ s.Follows (mapAfter m trace) ∧ s.startTs = startTs ∧
      ∀ before call reply rest, trace = before ++ (call, reply) :: rest →
        call.Answers (mapAfter m before) reply := by
  induction run with
  | nil =>
    refine ⟨.start contains.indexed, ⟨contains.chain, ?_, ?_⟩, rfl, ?_⟩
    · intro address e present
      cases present
    · intro address _
      refine Eq.trans (Eq.symm ?_) (contains.visible address)
      exact Db.visible_eq fun val found => (contains.chain address val found).2
    · intro before call reply rest split
      cases before <;> cases split
  | snoc earlier regular taken ih =>
    obtain ⟨inv, follows, sameTs, answered⟩ := ih
    obtain ⟨called, served⟩ := stepCall_eq_some taken
    obtain ⟨answers, follows'⟩ := follows.call inv regular called served
    refine ⟨inv.call (Session.keepsInserted_of_served called served) called, ?_,
      (Session.call_startTs called).trans sameTs, ?_⟩
    · simpa [mapAfter] using follows'
    · intro before call reply rest split
      rcases List.eq_nil_or_concat rest with rfl | ⟨rest', last, rfl⟩
      · obtain ⟨rfl, same⟩ := List.append_inj' split rfl
        cases same
        exact answers
      · rw [List.concat_eq_append, ← List.cons_append, ← List.append_assoc] at split
        exact answered before call reply rest' (List.append_inj' split rfl).1

/-- A transaction that runs alone and makes regular calls, none of which returns the null
pointer: every reply is that of the map, no regular call throws, and if `precommit` returns
true, every later reader finds the map. -/
theorem singleTransaction_follows_map (startTs smallestTs : Nat) (db : Db T K R)
    (m : T × K → Option R) (contains : db.Contains startTs m)
    (trace : List (Call T K R × Reply K R)) (s : Session T K R)
    (run : Run stepCall (fun s step => s.Regular step.1) (Session.new startTs smallestTs db) trace
      s) :
    (∀ before call reply rest, trace = before ++ (call, reply) :: rest →
      call.Answers (mapAfter m before) reply) ∧
    (∀ call, s.Regular call → ∃ reply after, s.call call = .ok (reply, after)) ∧
    ∀ leafOf after, s.precommit leafOf = .ok (true, after) → ∀ ts, startTs ≤ ts → ∀ address,
      after.db.visible ts address = (mapAfter m trace address).map some := by
  obtain ⟨inv, follows, sameTs, answered⟩ := run_follows contains run
  refine ⟨answered, fun call regular => follows.call_ok inv regular, ?_⟩
  intro leafOf after committed ts later address
  exact follows.commit inv committed (sameTs ▸ later) address

end Runs

/-! ## Calls that are not regular -/

theorem oneLoaded_contains : oneLoaded.Contains 10 fun address : Nat × Nat =>
    if address = (0, 5) then some 7 else none := by
  have value : ∀ val, oneLoaded.value val = [⟨0, 0, 0, some 7, false⟩] := fun _ => rfl
  refine ⟨oneLoaded_indexed, ?_, ?_⟩
  · intro address val _
    rw [value]
    refine ⟨by simp, fun version member => ?_⟩
    cases List.mem_singleton.mp member
    exact Nat.zero_le _
  · intro address
    unfold Db.visible
    cases found : oneLoaded.lookup address with
    | none =>
      have different : address ≠ (0, 5) := by
        rintro rfl
        exact absurd found (by decide +kernel)
      simp [different]
    | some val =>
      have home := (oneLoaded_indexed address val found).1
      have here : address = (0, 5) := home.symm
      rw [Option.bind_some, value, if_pos here]
      rfl

def faultOf {α : Type} : Except Fault α → Option Fault
  | .error fault => some fault
  | .ok _ => none

theorem eq_error_of_faultOf {α : Type} {outcome : Except Fault α} {fault : Fault}
    (faulty : faultOf outcome = some fault) : outcome = .error fault := by
  cases outcome with
  | error other => exact congrArg Except.error (Option.some.inj faulty)
  | ok value => cases faulty

theorem eq_ok_of_toOption {α β : Type} {outcome : Except Fault α} {summary : α → β} {value : β}
    (evaluated : outcome.toOption.map summary = some value) :
    ∃ final, outcome = .ok final ∧ summary final = value := by
  cases outcome with
  | error fault => cases evaluated
  | ok final => exact ⟨final, rfl, Option.some.inj evaluated⟩

/-- An update, a write, a scan and the commit. -/
theorem updated_follows_map : ∃ s after : Session Nat Nat Nat,
    Run stepCall (fun s step => s.Regular step.1) (Session.new 10 0 oneLoaded)
      [(.point .update (0, 5) 0, .record 7), (.store (0, 5) 8, .stored),
        (.readScan 0 5 6 false [], .listed [(5, some 8)])] s ∧
      s.precommit (fun _ => 0) = .ok (true, after) ∧
      after.db.visible 20 (0, 5) = some (some 8) := by
  have element : (exec stepCall (Session.new 10 0 oneLoaded)
      [(.point .update (0, 5) 0, .record 7)]).map (fun s => s.rws (0, 5)) =
        some (some ⟨some 7, some 7, .update, false, 0⟩) := by
    decide +kernel
  have written : (exec stepCall (Session.new 10 0 oneLoaded)
      [(.point .update (0, 5) 0, .record 7), (.store (0, 5) 8, .stored)]).map
        (fun s => s.rws (0, 5)) = some (some ⟨some 7, some 8, .update, false, 0⟩) := by
    decide +kernel
  have commits : (exec stepCall (Session.new 10 0 oneLoaded)
      [(.point .update (0, 5) 0, .record 7), (.store (0, 5) 8, .stored),
        (.readScan 0 5 6 false [], .listed [(5, some 8)])]).map
          (fun s => (s.precommit fun _ => 0).toOption.map Prod.fst) = some (some true) := by
    decide +kernel
  obtain ⟨s, executed, committed⟩ := Option.map_eq_some_iff.mp commits
  simp only [exec, Option.bind_eq_some_iff, Option.some.injEq] at executed
  obtain ⟨s₁, first, s₂, second, s₃, third, rfl⟩ := executed
  simp only [exec, first, Option.bind_some, Option.map_some, Option.some.injEq] at element
  simp only [exec, first, second, Option.bind_some, Option.map_some, Option.some.injEq] at written
  have run : Run stepCall (fun s step => s.Regular step.1) (Session.new 10 0 oneLoaded)
      [(.point .update (0, 5) 0, .record 7), (.store (0, 5) 8, .stored),
        (.readScan 0 5 6 false [], .listed [(5, some 8)])] s₃ := by
    refine .cons trivial first (.cons ⟨_, element, rfl⟩ second (.cons ?_ third .nil))
    intro key e inRange present
    obtain ⟨least, below⟩ : 5 ≤ key ∧ key < 6 := inRange
    obtain rfl : key = 5 := by omega
    cases written.symm.trans present
    exact ⟨by simp, rfl⟩
  obtain ⟨⟨result, after⟩, ended, rfl⟩ := eq_ok_of_toOption committed
  refine ⟨s₃, after, run, ended, ?_⟩
  obtain ⟨-, -, visible⟩ :=
    singleTransaction_follows_map 10 0 oneLoaded _ oneLoaded_contains _ s₃ run
  rw [visible _ after ended 20 (by decide) (0, 5)]
  rfl

/-- The four ways to leave the map: a key that is updated, removed and committed stays, with
the null pointer; a scan does not list an inserted key; a scan over a removed key throws, and
so does a second `remove`. -/
theorem ownWrites_leave_map :
    (∃ s after : Session Nat Nat Nat, exec stepCall (Session.new 10 0 oneLoaded)
        [(.point .update (0, 5) 0, .record 7), (.point .remove (0, 5) 0, .record 7)] = some s ∧
      s.precommit (fun _ => 0) = .ok (true, after) ∧
      after.db.visible 20 (0, 5) = some none) ∧
    (∃ s : Session Nat Nat Nat, exec stepCall (Session.new 10 0 oneLoaded)
      [(.point .insert (0, 1) 3, .record 3),
        (.readScan 0 0 9 false [], .listed [(5, some 7)])] = some s) ∧
    ∃ s : Session Nat Nat Nat, exec stepCall (Session.new 10 0 oneLoaded)
        [(.point .remove (0, 5) 0, .record 7)] = some s ∧
      s.call (.readScan 0 0 9 false []) = .error (.thrown "deleted value") ∧
      s.call (.point .remove (0, 5) 0) = .error (.thrown "invalid state") := by
  have removed : (exec stepCall (Session.new 10 0 oneLoaded)
      [(.point .update (0, 5) 0, .record 7), (.point .remove (0, 5) 0, .record 7)]).map
        (fun s => (s.precommit fun _ => 0).toOption.map fun ended =>
          (ended.1, ended.2.db.visible 20 (0, 5))) = some (some (true, some none)) := by
    decide +kernel
  have unlisted : (exec stepCall (Session.new 10 0 oneLoaded)
      [(.point .insert (0, 1) 3, .record 3),
        (.readScan 0 0 9 false [], .listed [(5, some 7)])]).isSome := by
    decide +kernel
  have thrown : (exec stepCall (Session.new 10 0 oneLoaded)
      [(.point .remove (0, 5) 0, .record 7)]).map
        (fun s => (faultOf (s.call (.readScan 0 0 9 false [])),
          faultOf (s.call (.point .remove (0, 5) 0)))) =
      some (some (.thrown "deleted value"), some (.thrown "invalid state")) := by
    decide +kernel
  refine ⟨?_, Option.isSome_iff_exists.mp unlisted, ?_⟩
  · obtain ⟨s, executed, committed⟩ := Option.map_eq_some_iff.mp removed
    obtain ⟨⟨result, after⟩, ended, summary⟩ := eq_ok_of_toOption committed
    obtain ⟨rfl, visible⟩ := Prod.mk.inj summary
    exact ⟨s, after, executed, ended, visible⟩
  · obtain ⟨s, executed, faults⟩ := Option.map_eq_some_iff.mp thrown
    obtain ⟨scan, remove⟩ := Prod.mk.inj faults
    exact ⟨s, executed, eq_error_of_faultOf scan, eq_error_of_faultOf remove⟩

end TpccRunner.Mvto
