import Mathlib
import TpccRunner.Lib.StepSystem
import TpccRunner.Naive.Store
import TpccRunner.Tpcc.Records

/-!
# The secondary indexes of the naive database

Runs of transactions on the two indexed tables.  Ownership is unique in every run.  An
index entry is written once, when its record is inserted, and nothing changes it when
`update_record` replaces the object or `delete_record` removes it; the replaced object
returns to the cache and can become the object of another record.  The indexes stay
consistent in the runs whose commits only insert into the two tables.
-/

set_option autoImplicit false

namespace TpccRunner.Naive

open Lib Tpcc

section Consistency
variable {K S R : Type} {n : Nat} [LinearOrder K]

namespace Store

structure Same (s s' : Store K S R n) : Prop where
  primary : s'.primary = s.primary
  secondary : s'.secondary = s.secondary
  heap : ∀ key ptr, s.primary.get? key = some ptr → s'.heap ptr = s.heap ptr

theorem Same.refl (s : Store K S R n) : Same s s := ⟨rfl, rfl, fun _ _ _ => rfl⟩

theorem Same.trans {s s' s'' : Store K S R n} (first : Same s s') (second : Same s' s'') :
    Same s s'' := by
  refine ⟨second.primary.trans first.primary, second.secondary.trans first.secondary, ?_⟩
  intro key ptr present
  rw [second.heap key ptr (first.primary ▸ present), first.heap key ptr present]

/-- Every index entry points to the object that the table owns under the record's key, and
every record of the table has exactly one entry. -/
structure Indexed (keys : Keys K S R) (s : Store K S R n) : Prop where
  entry : ∀ key ptr, (key, ptr) ∈ s.secondary → ∃ record,
    s.primary.get? (keys.primary record) = some ptr ∧ s.heap ptr = some record ∧
      keys.secondary record = key
  single : ∀ key ptr, s.primary.get? key = some ptr → ∃ record,
    s.heap ptr = some record ∧ keys.primary record = key ∧
      s.secondary.filter (fun entry => entry.2 = ptr) = [(keys.secondary record, ptr)]

variable {keys : Keys K S R} {held : Multiset Nat} {s s' : Store K S R n}

theorem Indexed.of_same (indexed : Indexed keys s) (same : Same s s') : Indexed keys s' := by
  constructor
  · intro key ptr member
    rw [same.secondary] at member
    obtain ⟨record, present, content, matching⟩ := indexed.entry key ptr member
    exact ⟨record, by rw [same.primary, present], by rw [same.heap _ ptr present, content],
      matching⟩
  · intro key ptr present
    rw [same.primary] at present
    obtain ⟨record, content, matching, single⟩ := indexed.single key ptr present
    exact ⟨record, by rw [same.heap key ptr present, content], matching,
      by rw [same.secondary, single]⟩

theorem Valid.live_primary (valid : Valid held s) {key : K} {ptr : Nat}
    (present : s.primary.get? key = some ptr) : (s.heap ptr).isSome :=
  valid.live ptr (Multiset.mem_add.mpr (.inr (mem_owned_of_primary present)))

theorem Valid.ne_primary {key : K} {ptr other : Nat} (valid : Valid (ptr ::ₘ held) s)
    (present : s.primary.get? key = some other) : other ≠ ptr := by
  rintro rfl
  exact valid.not_owned (Multiset.mem_add.mpr (.inr (mem_owned_of_primary present)))

theorem Valid.allocate_same [Inhabited R] (valid : Valid held s) (thread : Fin n) {fresh : Nat}
    (unused : s.heap fresh = none) : Same s (s.allocate thread fresh).1 :=
  ⟨allocate_primary s thread fresh, allocate_secondary s thread fresh,
    fun _ _ present => allocate_heap s thread unused (valid.live_primary present)⟩

theorem Valid.deallocate_same {ptr : Nat} (valid : Valid (ptr ::ₘ held) s) (thread : Fin n) :
    Same s (s.deallocate thread ptr) := by
  refine ⟨deallocate_primary s thread ptr, deallocate_secondary s thread ptr, ?_⟩
  intro key other present
  rw [← deallocate_primary s thread ptr] at present
  exact (valid.deallocate thread).2 other
    (Multiset.mem_add.mpr (.inr (mem_owned_of_primary present)))

theorem Valid.write_same {ptr : Nat} (valid : Valid (ptr ::ₘ held) s) (content : R) :
    Same s (s.write ptr content) :=
  ⟨rfl, rfl, fun _ _ present => Function.update_of_ne (valid.ne_primary present) _ _⟩

section Commit

theorem Valid.insertRecord [DecidableEq S] {key : K} {ptr : Nat} (valid : Valid (ptr ::ₘ held) s)
    (debug : Bool) (keys : Keys K S R) : Valid held (s.insertRecord debug keys key ptr) := by
  unfold Store.insertRecord
  split
  · exact valid.free
  · rename_i absent
    split
    · exact (valid.place (Option.not_isSome_iff_eq_none.mp absent)).insertSecondary debug _ ptr
    · exact valid.mono (Multiset.le_cons_self _ _)

theorem Valid.updateRecord {ptr : Nat} (valid : Valid (ptr ::ₘ held) s) (thread : Fin n)
    (key : K) : Valid held (s.updateRecord thread key ptr) := by
  unfold Store.updateRecord
  split
  · rename_i old present
    exact ((valid.exchange present).deallocate thread).1
  · exact valid.mono (Multiset.le_cons_self _ _)

theorem Valid.deleteRecord (valid : Valid held s) (thread : Fin n) (key : K) :
    Valid held (s.deleteRecord thread key) := by
  unfold Store.deleteRecord
  split
  · rename_i old present
    exact ((valid.take present).deallocate thread).1
  · exact valid

theorem Valid.applyLogRecord [DecidableEq S] {entry : K × LogRecord}
    (valid : Valid (entry.2.recPtr ::ₘ held) s) (debug : Bool) (keys : Keys K S R)
    (thread : Fin n) :
    Valid held (s.applyLogRecord debug keys thread entry) := by
  unfold Store.applyLogRecord
  split
  · exact valid.insertRecord debug keys
  · exact valid.updateRecord thread entry.1
  · exact ((valid.deleteRecord thread entry.1).deallocate thread).1

theorem Indexed.insertRecord [DecidableEq S] {key : K} {ptr : Nat} {record : R}
    (indexed : Indexed keys s) (valid : Valid (ptr ::ₘ held) s) (content : s.heap ptr = some record)
    (matching : keys.primary record = key) (debug : Bool) :
    Indexed keys (s.insertRecord debug keys key ptr) := by
  unfold Store.insertRecord
  split
  · exact indexed.of_same ⟨rfl, rfl, fun other owner present =>
      Function.update_of_ne (valid.ne_primary present) _ _⟩
  · rename_i absent
    have unowned : ∀ other, s.primary.get? other ≠ some ptr :=
      fun other present => valid.ne_primary present rfl
    have noEntry : ∀ entry ∈ s.secondary, entry.2 ≠ ptr := by
      rintro ⟨other, owner⟩ member rfl
      obtain ⟨old, present, -⟩ := indexed.entry other owner member
      exact unowned _ present
    have added : insertSecondary debug { s with primary := s.primary.insert key ptr }
        (keys.secondary record) ptr =
          { s with primary := s.primary.insert key ptr
                   secondary := s.secondary ++ [(keys.secondary record, ptr)] } :=
      if_neg fun refused => noEntry (keys.secondary record, ptr) (by simpa using refused.2) rfl
    simp only [content, added]
    constructor
    · intro other owner member
      obtain member | member := List.mem_append.mp member
      · obtain ⟨old, present, live, agrees⟩ := indexed.entry other owner member
        refine ⟨old, ?_, live, agrees⟩
        have different : keys.primary old ≠ key := by
          intro same
          rw [same] at present
          simp [present] at absent
        change (s.primary.insert key ptr).get? _ = _
        rw [OrderedMap.get?_insert_of_ne _ _ different, present]
      · obtain ⟨rfl, rfl⟩ := Prod.mk.inj (List.mem_singleton.mp member)
        refine ⟨record, ?_, content, rfl⟩
        rw [matching]
        exact OrderedMap.get?_insert_self _ _ _
    · intro other owner present
      change (s.primary.insert key ptr).get? other = some owner at present
      rw [OrderedMap.get?_insert] at present
      split at present
      · rename_i same
        cases Option.some.inj present
        have none' : s.secondary.filter (fun entry => entry.2 = ptr) = [] :=
          List.filter_eq_nil_iff.mpr fun entry member => by simpa using noEntry entry member
        exact ⟨record, content, matching.trans same.symm,
          by simp [List.filter_append, none']⟩
      · obtain ⟨old, live, agrees, single⟩ := indexed.single other owner present
        have different : ptr ≠ owner := (valid.ne_primary present).symm
        exact ⟨old, live, agrees, by simp [List.filter_append, single, different]⟩

theorem insertRecord_heap [DecidableEq S] {key : K} {ptr other : Nat} (debug : Bool)
    (keys : Keys K S R) (different : other ≠ ptr) :
    (s.insertRecord debug keys key ptr).heap other = s.heap other := by
  unfold Store.insertRecord
  split
  · exact Function.update_of_ne different _ _
  · split
    · rw [insertSecondary_heap]
    · rfl

end Commit

def pointers (logs : List (K × LogRecord)) : Multiset Nat :=
  (logs.map fun entry => entry.2.recPtr : List Nat)

omit [LinearOrder K] in
theorem pointers_cons (entry : K × LogRecord) (logs : List (K × LogRecord)) :
    pointers (entry :: logs) = entry.2.recPtr ::ₘ pointers logs := rfl

theorem Valid.applyAll [DecidableEq S] (debug : Bool) (keys : Keys K S R) (thread : Fin n)
    (logs : List (K × LogRecord)) (valid : Valid (pointers logs) s) :
    Valid 0 (logs.foldl (Store.applyLogRecord debug keys thread) s) := by
  induction logs generalizing s with
  | nil => exact valid
  | cons entry rest ih =>
    rw [pointers_cons] at valid
    exact ih (valid.applyLogRecord debug keys thread)

theorem Valid.releaseAll (thread : Fin n) (logs : List (K × LogRecord))
    (valid : Valid (pointers logs) s) :
    Valid 0 (logs.foldl (fun s entry => s.deallocate thread entry.2.recPtr) s) ∧
      Same s (logs.foldl (fun s entry => s.deallocate thread entry.2.recPtr) s) := by
  induction logs generalizing s with
  | nil => exact ⟨valid, Same.refl s⟩
  | cons entry rest ih =>
    rw [pointers_cons] at valid
    obtain ⟨done, same⟩ := ih (valid.deallocate thread).1
    exact ⟨done, (valid.deallocate_same thread).trans same⟩

def Inserts (keys : Keys K S R) (s : Store K S R n) (logs : List (K × LogRecord)) : Prop :=
  ∀ entry ∈ logs, entry.2.lt = .insert ∧
    (s.heap entry.2.recPtr).map keys.primary = some entry.1

theorem Indexed.applyAll [DecidableEq S] (debug : Bool) (thread : Fin n)
    (logs : List (K × LogRecord)) (indexed : Indexed keys s) (valid : Valid (pointers logs) s)
    (inserts : Inserts keys s logs) :
    Indexed keys (logs.foldl (Store.applyLogRecord debug keys thread) s) := by
  induction logs generalizing s with
  | nil => exact indexed
  | cons entry rest ih =>
    rw [pointers_cons] at valid
    obtain ⟨isInsert, carried⟩ := inserts entry List.mem_cons_self
    obtain ⟨record, content, matching⟩ := Option.map_eq_some_iff.mp carried
    have applied : s.applyLogRecord debug keys thread entry =
        s.insertRecord debug keys entry.1 entry.2.recPtr := by
      simp [Store.applyLogRecord, isInsert]
    rw [List.foldl_cons, applied]
    refine ih (indexed.insertRecord valid content matching debug)
      (valid.insertRecord debug keys) ?_
    intro other member
    have different : other.2.recPtr ≠ entry.2.recPtr := by
      intro same
      refine valid.not_owned (Multiset.mem_add.mpr (.inl ?_))
      exact Multiset.mem_coe.mpr (List.mem_map.mpr ⟨other, member, same⟩)
    rw [insertRecord_heap debug keys different]
    exact inserts other (List.mem_cons_of_mem _ member)

/-! ## Loading -/

structure Loadable (keys : Keys K S R) (records : List (R × Nat)) : Prop where
  keys : (records.map fun entry => keys.primary entry.1).Nodup
  addresses : (records.map Prod.snd).Nodup

structure Loading (keys : Keys K S R) (s : Store K S R n) (rest : List (R × Nat)) : Prop where
  valid : Valid 0 s
  indexed : Indexed keys s
  noCache : ∀ thread, s.cache thread = []
  absent : ∀ entry ∈ rest, s.primary.get? (keys.primary entry.1) = none
  unused : ∀ entry ∈ rest, s.heap entry.2 = none

theorem insertSecondary_cache [DecidableEq S] (debug : Bool) (s : Store K S R n) (key : S)
    (ptr : Nat) : (insertSecondary debug s key ptr).cache = s.cache := by
  unfold insertSecondary
  split <;> rfl

section Load
variable [DecidableEq S] [Inhabited R]

theorem loadRecord_eq (debug : Bool) (thread : Fin n) {entry : R × Nat}
    (absent : s.primary.get? (keys.primary entry.1) = none)
    (noCache : s.cache thread = []) :
    s.loadRecord debug keys thread entry =
      (s.write entry.2 entry.1).insertRecord debug keys (keys.primary entry.1) entry.2 := by
  simp [loadRecord, Store.allocate, Store.insertRecord, absent, noCache, Store.write]

theorem Loading.step {entry : R × Nat} {rest : List (R × Nat)} (debug : Bool) (thread : Fin n)
    (loadable : Loadable keys (entry :: rest)) (loading : Loading keys s (entry :: rest)) :
    Loading keys (s.loadRecord debug keys thread entry) rest := by
  have absent := loading.absent entry List.mem_cons_self
  have unused := loading.unused entry List.mem_cons_self
  have valid : Valid (entry.2 ::ₘ 0) (s.write entry.2 entry.1) := by
    have allocated := (loading.valid.allocate thread unused).write entry.2 entry.1
    simpa [Store.allocate, loading.noCache, Store.write] using allocated
  have same : Same s (s.write entry.2 entry.1) := by
    refine ⟨rfl, rfl, fun key ptr present => Function.update_of_ne ?_ _ _⟩
    rintro rfl
    simpa [unused] using loading.valid.live_primary present
  have content : (s.write entry.2 entry.1).heap entry.2 = some entry.1 := by simp [Store.write]
  have placed : (s.write entry.2 entry.1).insertRecord debug keys (keys.primary entry.1) entry.2 =
      insertSecondary debug
        { s.write entry.2 entry.1 with
          primary := s.primary.insert (keys.primary entry.1) entry.2 }
        (keys.secondary entry.1) entry.2 := by
    simp [Store.insertRecord, absent, Store.write]
  obtain ⟨newKey, -⟩ := List.nodup_cons.mp loadable.keys
  obtain ⟨newAddress, -⟩ := List.nodup_cons.mp loadable.addresses
  rw [loadRecord_eq debug thread absent (loading.noCache thread)]
  refine ⟨valid.insertRecord debug keys,
    (loading.indexed.of_same same).insertRecord valid content rfl debug, ?_, ?_, ?_⟩
  · intro other
    rw [placed, insertSecondary_cache]
    exact loading.noCache other
  · intro other member
    rw [placed, insertSecondary_primary]
    change (s.primary.insert _ _).get? _ = none
    rw [OrderedMap.get?_insert_of_ne]
    · exact loading.absent other (List.mem_cons_of_mem _ member)
    · intro equal
      exact newKey (List.mem_map.mpr ⟨other, member, equal⟩)
  · intro other member
    have different : other.2 ≠ entry.2 :=
      fun equal => newAddress (List.mem_map.mpr ⟨other, member, equal⟩)
    rw [insertRecord_heap debug keys different]
    change Function.update s.heap entry.2 _ other.2 = none
    rw [Function.update_of_ne different]
    exact loading.unused other (List.mem_cons_of_mem _ member)

theorem Loading.foldl (debug : Bool) (thread : Fin n) (rest : List (R × Nat))
    (loadable : Loadable keys rest) (loading : Loading keys s rest) :
    Loading keys (rest.foldl (loadRecord debug keys thread) s) [] := by
  induction rest generalizing s with
  | nil => exact loading
  | cons entry rest ih =>
    refine ih ⟨?_, ?_⟩ (loading.step debug thread loadable)
    · exact (List.nodup_cons.mp loadable.keys).2
    · exact (List.nodup_cons.mp loadable.addresses).2

theorem Loading.load (debug : Bool) (thread : Fin n) (records : List (R × Nat))
    (loadable : Loadable keys records) : Loading keys (load debug keys thread records) [] := by
  refine Loading.foldl debug thread records loadable ⟨⟨?_, ?_⟩, ⟨?_, ?_⟩, ?_, ?_, ?_⟩
  · simp [owned, empty, OrderedMap.empty]
  · simp [owned, empty, OrderedMap.empty]
  all_goals simp [empty]

end Load

end Store

/-! ## The write set -/

namespace Table

variable {keys : Keys K S R} {t t' : Table K S R n}

def Owned (t : Table K S R n) : Prop := t.store.Valid (Store.pointers t.ws.entries)

theorem pointers_insert_new (ws : OrderedMap K LogRecord) {key : K} (log : LogRecord)
    (absent : ws.get? key = none) :
    Store.pointers (ws.insert key log).entries = log.recPtr ::ₘ Store.pointers ws.entries := by
  have inserted := (OrderedMap.insert_perm ws key log).map fun entry => entry.2.recPtr
  rw [OrderedMap.erase_entries_of_absent absent] at inserted
  exact Multiset.coe_eq_coe.mpr inserted

theorem pointers_erase (ws : OrderedMap K LogRecord) {key : K} {log : LogRecord}
    (present : ws.get? key = some log) :
    Store.pointers ws.entries = log.recPtr ::ₘ Store.pointers (ws.erase key).entries :=
  Multiset.coe_eq_coe.mpr ((OrderedMap.erase_perm present).map fun entry => entry.2.recPtr)

theorem pointers_insert_same (ws : OrderedMap K LogRecord) {key : K} {log : LogRecord}
    (lt : LogType) (present : ws.get? key = some log) :
    Store.pointers (ws.insert key { log with lt := lt }).entries = Store.pointers ws.entries := by
  rw [pointers_erase ws present]
  exact Multiset.coe_eq_coe.mpr
    ((OrderedMap.insert_perm ws key { log with lt := lt }).map fun entry => entry.2.recPtr)

theorem Owned.log_ne {key other : K} {log otherLog : LogRecord} (owned : t.Owned)
    (present : t.ws.get? key = some log) (otherPresent : t.ws.get? other = some otherLog)
    (different : other ≠ key) : otherLog.recPtr ≠ log.recPtr := by
  intro same
  unfold Owned at owned
  rw [pointers_erase t.ws present] at owned
  refine owned.not_owned (Multiset.mem_add.mpr (.inl ?_))
  refine Multiset.mem_coe.mpr (List.mem_map.mpr ⟨(other, otherLog), ?_, same⟩)
  rw [← OrderedMap.get?_eq_some_iff, OrderedMap.get?_erase, if_neg different, otherPresent]

theorem Owned.live_log {key : K} {log : LogRecord} (owned : t.Owned)
    (present : t.ws.get? key = some log) : (t.store.heap log.recPtr).isSome := by
  refine Store.Valid.live owned _ (Multiset.mem_add.mpr (.inl ?_))
  exact Multiset.mem_coe.mpr
    (List.mem_map.mpr ⟨_, OrderedMap.get?_eq_some_iff.mp present, rfl⟩)

structure Changes (t t' : Table K S R n) (key : K) : Prop where
  owned : t'.Owned
  same : Store.Same t.store t'.store
  ws : ∀ other, other ≠ key → t'.ws.get? other = t.ws.get? other
  heap : ∀ other log, other ≠ key → t.ws.get? other = some log →
    t'.store.heap log.recPtr = t.store.heap log.recPtr

theorem Changes.refl (owned : t.Owned) (key : K) : Changes t t key :=
  ⟨owned, .refl _, fun _ _ => rfl, fun _ _ _ _ => rfl⟩

theorem Changes.trans {t'' : Table K S R n} {key : K} (first : Changes t t' key)
    (second : Changes t' t'' key) : Changes t t'' key := by
  refine ⟨second.owned, first.same.trans second.same, fun other different => ?_,
    fun other log different present => ?_⟩
  · rw [second.ws other different, first.ws other different]
  · rw [second.heap other log different (first.ws other different ▸ present),
      first.heap other log different present]

theorem Owned.changes_write {key : K} {log : LogRecord} (owned : t.Owned)
    (present : t.ws.get? key = some log) (content : R) :
    Changes t { t with store := t.store.write log.recPtr content } key := by
  refine ⟨Store.Valid.write owned _ content, ?_, fun _ _ => rfl, ?_⟩
  · unfold Owned at owned
    rw [pointers_erase t.ws present] at owned
    exact owned.write_same content
  · intro other otherLog different otherPresent
    exact Function.update_of_ne (owned.log_ne present otherPresent different) _ _

theorem Owned.changes_retype {key : K} {log : LogRecord} (owned : t.Owned) (lt : LogType)
    (present : t.ws.get? key = some log) :
    Changes t { t with ws := t.ws.insert key { log with lt := lt } } key := by
  refine ⟨?_, .refl _, fun other different => ?_, fun _ _ _ _ => rfl⟩
  · unfold Owned
    rw [pointers_insert_same t.ws lt present]
    exact owned
  · exact OrderedMap.get?_insert_of_ne _ _ different

theorem Owned.changes_erase {key : K} {log : LogRecord} (owned : t.Owned) (thread : Fin n)
    (present : t.ws.get? key = some log) :
    Changes t { store := t.store.deallocate thread log.recPtr, ws := t.ws.erase key } key := by
  unfold Owned at owned
  rw [pointers_erase t.ws present] at owned
  refine ⟨(owned.deallocate thread).1, owned.deallocate_same thread, ?_, ?_⟩
  · intro other different
    rw [OrderedMap.get?_erase, if_neg different]
  · intro other otherLog different otherPresent
    refine (owned.deallocate thread).2 _ (Multiset.mem_add.mpr (.inl ?_))
    refine Multiset.mem_coe.mpr (List.mem_map.mpr ⟨(other, otherLog), ?_, rfl⟩)
    rw [← OrderedMap.get?_eq_some_iff, OrderedMap.get?_erase, if_neg different, otherPresent]

section Prepare
variable [Inhabited R] {fresh : Nat}

theorem createLogrecord_get? (t : Table K S R n) (thread : Fin n) (fresh : Nat) (lt : LogType)
    (key : K) : (t.createLogrecord thread fresh lt key).1.ws.get? key =
      some { lt := lt, recPtr := (t.createLogrecord thread fresh lt key).2 } :=
  OrderedMap.get?_insert_self _ _ _

theorem Owned.changes_createLogrecord {key : K} (owned : t.Owned) (thread : Fin n) (lt : LogType)
    (unused : t.store.heap fresh = none) (absent : t.ws.get? key = none) :
    Changes t (t.createLogrecord thread fresh lt key).1 key := by
  refine ⟨?_, Store.Valid.allocate_same owned thread unused, fun other different => ?_, ?_⟩
  · change Store.Valid (Store.pointers (t.ws.insert key _).entries) _
    rw [pointers_insert_new t.ws _ absent]
    exact Store.Valid.allocate owned thread unused
  · exact OrderedMap.get?_insert_of_ne _ _ different
  · intro other log _ present
    exact Store.allocate_heap t.store thread unused (owned.live_log present)

def Prepared (t t' : Table K S R n) (key : K) (ptr : Nat) : Prop :=
  Changes t t' key ∧ ∃ log, t'.ws.get? key = some log ∧ log.recPtr = ptr

theorem Owned.applyUpdateToWriteset {key : K} {result : Table K S R n × Nat} (owned : t.Owned)
    (thread : Fin n) (unused : t.store.heap fresh = none)
    (prepared : t.applyUpdateToWriteset thread fresh key = .ok result) :
    Prepared t result.1 key result.2 := by
  unfold Table.applyUpdateToWriteset at prepared
  split at prepared
  · rename_i log present
    split at prepared <;> cases prepared <;> exact ⟨.refl owned key, log, present, rfl⟩
  · rename_i absent
    split at prepared
    · cases prepared
    · cases prepared
      have created := owned.changes_createLogrecord thread .update unused absent
      have found := t.createLogrecord_get? thread fresh .update key
      exact ⟨created.trans (created.owned.changes_write found _), _, found, rfl⟩

theorem Owned.applyInsertToWriteset {key : K} {result : Table K S R n × Nat} (owned : t.Owned)
    (thread : Fin n) (unused : t.store.heap fresh = none)
    (prepared : t.applyInsertToWriteset thread fresh key = .ok result) :
    Prepared t result.1 key result.2 := by
  unfold Table.applyInsertToWriteset at prepared
  split at prepared
  · rename_i log present
    split at prepared <;> cases prepared
    exact ⟨owned.changes_retype .update present, _, OrderedMap.get?_insert_self _ _ _, rfl⟩
  · rename_i absent
    cases prepared
    exact ⟨owned.changes_createLogrecord thread .insert unused absent, _,
      t.createLogrecord_get? thread fresh .insert key, rfl⟩

theorem Owned.applyDeleteToWriteset {key : K} {t' : Table K S R n} (owned : t.Owned)
    (thread : Fin n) (unused : t.store.heap fresh = none)
    (prepared : t.applyDeleteToWriteset thread fresh key = .ok t') : Changes t t' key := by
  unfold Table.applyDeleteToWriteset at prepared
  split at prepared
  · rename_i log present
    split at prepared <;> cases prepared
    · exact owned.changes_erase thread present
    · exact owned.changes_retype .delete present
  · rename_i absent
    split at prepared <;> cases prepared
    exact owned.changes_createLogrecord thread .delete unused absent

omit [Inhabited R] in
theorem Owned.perform_write {key : K} {t' : Table K S R n} {content : R}
    {called : Except String (Table K S R n × Nat)}
    (prepared : ∀ result, called = .ok result → Prepared t result.1 key result.2)
    (performed : called.map (fun (logged, ptr) =>
      { logged with store := logged.store.write ptr content }) = .ok t') : Changes t t' key := by
  cases called with
  | error message => cases performed
  | ok result =>
    cases performed
    obtain ⟨logged, ptr⟩ := result
    obtain ⟨changes, log, present, same⟩ := prepared _ rfl
    subst same
    exact changes.trans (changes.owned.changes_write present content)

theorem Owned.perform {operation : Operation K R} {t' : Table K S R n} (owned : t.Owned)
    (thread : Fin n) (unused : t.store.heap fresh = none)
    (performed : t.perform thread fresh operation = .ok t') : ∃ key, Changes t t' key := by
  cases operation with
  | insert key content =>
    exact ⟨key, Owned.perform_write (fun _ => owned.applyInsertToWriteset thread unused) performed⟩
  | update key content =>
    exact ⟨key, Owned.perform_write (fun _ => owned.applyUpdateToWriteset thread unused) performed⟩
  | delete key => exact ⟨key, owned.applyDeleteToWriteset thread unused performed⟩

end Prepare

theorem Owned.clearWriteset (owned : t.Owned) (thread : Fin n) :
    (t.clearWriteset thread).Owned ∧ Store.Same t.store (t.clearWriteset thread).store :=
  Store.Valid.releaseAll thread t.ws.entries owned

theorem Owned.applyToDatabase [DecidableEq S] (owned : t.Owned) (debug : Bool)
    (keys : Keys K S R) (thread : Fin n) : (t.applyToDatabase debug keys thread).Owned :=
  Store.Valid.applyAll debug keys thread t.ws.entries owned

/-- A call of a transaction.  `new` returns an unused address, and a call that throws
leaves everything as it is. -/
def request [Inhabited R] (t : Table K S R n) (thread : Fin n) (fresh : Nat)
    (operation : Operation K R) : Option (Table K S R n) :=
  if (t.store.heap fresh).isNone then
    match t.perform thread fresh operation with
    | .ok after => some after
    | .error _ => some t
  else none

theorem Owned.request [Inhabited R] {fresh : Nat} {operation : Operation K R}
    {t' : Table K S R n} (owned : t.Owned) (thread : Fin n)
    (requested : t.request thread fresh operation = some t') :
    t'.Owned ∧ Store.Same t.store t'.store := by
  unfold Table.request at requested
  split at requested
  · rename_i unused
    split at requested
    · rename_i after performed
      cases requested
      obtain ⟨key, changes⟩ := owned.perform thread (Option.isNone_iff_eq_none.mp unused) performed
      exact ⟨changes.owned, changes.same⟩
    · cases requested
      exact ⟨owned, Store.Same.refl _⟩
  · cases requested

structure Consistent (keys : Keys K S R) (t : Table K S R n) : Prop where
  owned : t.Owned
  indexed : t.store.Indexed keys

theorem Consistent.load [DecidableEq S] [Inhabited R] (debug : Bool) (thread : Fin n)
    {records : List (R × Nat)} (loadable : Store.Loadable keys records) :
    Consistent keys { store := Store.load debug keys thread records, ws := .empty } := by
  have loaded := Store.Loading.load debug thread records loadable
  exact ⟨loaded.valid, loaded.indexed⟩

theorem Consistent.request [Inhabited R] {fresh : Nat} {operation : Operation K R}
    {t' : Table K S R n} (consistent : Consistent keys t) (thread : Fin n)
    (requested : t.request thread fresh operation = some t') : Consistent keys t' := by
  obtain ⟨owned, same⟩ := consistent.owned.request thread requested
  exact ⟨owned, consistent.indexed.of_same same⟩

theorem Consistent.clearWriteset (consistent : Consistent keys t) (thread : Fin n) :
    Consistent keys (t.clearWriteset thread) := by
  obtain ⟨owned, same⟩ := consistent.owned.clearWriteset thread
  exact ⟨owned, consistent.indexed.of_same same⟩

theorem Consistent.applyToDatabase [DecidableEq S] (consistent : Consistent keys t)
    (inserts : t.store.Inserts keys t.ws.entries) (debug : Bool) (thread : Fin n) :
    Consistent keys (t.applyToDatabase debug keys thread) :=
  ⟨consistent.owned.applyToDatabase debug keys thread,
    consistent.indexed.applyAll debug thread t.ws.entries consistent.owned inserts⟩

end Table

end Consistency

/-! ## Transactions on the indexed tables -/

def customerKeys : Keys Nat CustomerSecondaryKey Customer :=
  { primary := Customer.key, secondary := Customer.secondaryKey }

def orderKeys : Keys Nat Nat Order :=
  { primary := Order.key, secondary := Order.secondaryKey }

/-- The indexed part of the database, with the write set of the transaction that holds the
global lock. -/
structure Db (n : Nat) where
  thread : Fin n
  customer : Table Nat CustomerSecondaryKey Customer n
  order : Table Nat Nat Order n

inductive Label (n : Nat) where
  /-- The next transaction, after the last one released its write set. -/
  | begin (thread : Fin n)
  | customer (fresh : Nat) (operation : Operation Nat Customer)
  | order (fresh : Nat) (operation : Operation Nat Order)
  | commit
  | abort

variable {n : Nat}

def Db.load (debug : Bool) (thread : Fin n) (customers : List (Customer × Nat))
    (orders : List (Order × Nat)) : Db n :=
  { thread := thread
    customer := { store := Store.load debug customerKeys thread customers, ws := .empty }
    order := { store := Store.load debug orderKeys thread orders, ws := .empty } }

def Db.clearAll (db : Db n) : Db n :=
  { db with
    customer := db.customer.clearWriteset db.thread
    order := db.order.clearWriteset db.thread }

def Db.applyToDatabase (debug : Bool) (db : Db n) : Db n :=
  { db with
    customer := db.customer.applyToDatabase debug customerKeys db.thread
    order := db.order.applyToDatabase debug orderKeys db.thread }

def step (debug : Bool) (db : Db n) : Label n → Option (Db n)
  | .begin thread => some { db.clearAll with thread := thread }
  | .customer fresh operation =>
    (db.customer.request db.thread fresh operation).map fun t => { db with customer := t }
  | .order fresh operation =>
    (db.order.request db.thread fresh operation).map fun t => { db with order := t }
  | .commit => some (db.applyToDatabase debug)
  | .abort => some db.clearAll

/-- `c_first` as `get_customer_by_last_name` compares it. -/
def firstName (s : Store Nat CustomerSecondaryKey Customer n) (ptr : Nat) : CStr :=
  ((s.heap ptr).map fun c => c.cFirst.take 16).getD []

def entriesOf {S R : Type} [DecidableEq S] (s : Store Nat S R n) (key : S) : List Nat :=
  (s.secondary.filter fun entry => entry.1 = key).map Prod.snd

def getCustomerByLastName (s : Store Nat CustomerSecondaryKey Customer n) (wId dId : Nat)
    (cLast : CStr) : Option Nat :=
  let temp := entriesOf s (CustomerSecondaryKey.createKey wId dId cLast)
  (temp.insertionSort fun left right => firstName s left ≤ firstName s right)[
    (temp.length + 1) / 2 - 1]?

/-- One turn of the loop of `get_order_by_customer_id`. -/
def laterOrder (s : Store Nat Nat Order n) (best : Nat × Option Nat) (ptr : Nat) :
    Nat × Option Nat :=
  match s.heap ptr with
  | some o => if o.oId > best.1 then (o.oId, some ptr) else best
  | none => best

def getOrderByCustomerId (s : Store Nat Nat Order n) (wId dId cId : Nat) : Option Nat :=
  ((entriesOf s (OrderSecondaryKey.createKey wId dId cId)).foldl (laterOrder s) (0, none)).2

/-- Commits insert into the indexed tables, under the keys that the records carry. -/
def CommitsInserts (db : Db n) : Label n → Prop
  | .commit => db.customer.store.Inserts customerKeys db.customer.ws.entries ∧
      db.order.store.Inserts orderKeys db.order.ws.entries
  | _ => True

structure Db.Consistent (db : Db n) : Prop where
  customer : db.customer.Consistent customerKeys
  order : db.order.Consistent orderKeys

theorem Db.Consistent.clearAll {db : Db n} (consistent : db.Consistent) :
    db.clearAll.Consistent :=
  ⟨consistent.customer.clearWriteset db.thread, consistent.order.clearWriteset db.thread⟩

theorem Db.Consistent.step {debug : Bool} {db after : Db n} {label : Label n}
    (consistent : db.Consistent) (inserts : CommitsInserts db label)
    (taken : step debug db label = some after) : after.Consistent := by
  cases label with
  | begin | abort =>
    cases taken
    exact ⟨consistent.clearAll.customer, consistent.clearAll.order⟩
  | customer fresh operation =>
    obtain ⟨t, requested, rfl⟩ := Option.map_eq_some_iff.mp taken
    exact ⟨consistent.customer.request db.thread requested, consistent.order⟩
  | order fresh operation =>
    obtain ⟨t, requested, rfl⟩ := Option.map_eq_some_iff.mp taken
    exact ⟨consistent.customer, consistent.order.request db.thread requested⟩
  | commit =>
    cases taken
    exact ⟨consistent.customer.applyToDatabase inserts.1 debug db.thread,
      consistent.order.applyToDatabase inserts.2 debug db.thread⟩

theorem Db.Consistent.load (debug : Bool) (thread : Fin n) {customers : List (Customer × Nat)}
    {orders : List (Order × Nat)} (loadableCustomers : Store.Loadable customerKeys customers)
    (loadableOrders : Store.Loadable orderKeys orders) :
    (Db.load debug thread customers orders).Consistent :=
  ⟨Table.Consistent.load debug thread loadableCustomers,
    Table.Consistent.load debug thread loadableOrders⟩

/-! ## The lookups -/

def Current {S R : Type} (keys : Keys Nat S R) (s : Store Nat S R n) (key : S) (ptr : Nat) :
    Prop :=
  ∃ record, s.primary.get? (keys.primary record) = some ptr ∧ s.heap ptr = some record ∧
    keys.secondary record = key

section Lookups
variable {S R : Type} [DecidableEq S] {keys : Keys Nat S R} {s : Store Nat S R n}

theorem mem_entriesOf {key : S} {ptr : Nat} : ptr ∈ entriesOf s key ↔ (key, ptr) ∈ s.secondary := by
  simp [entriesOf]

theorem current_of_mem {key : S} {ptr : Nat} (indexed : s.Indexed keys)
    (member : ptr ∈ entriesOf s key) : Current keys s key ptr :=
  indexed.entry key ptr (mem_entriesOf.mp member)

/-- Every record of the table is among the entries of its secondary key. -/
theorem mem_of_current {key : Nat} {ptr : Nat} {record : R} (indexed : s.Indexed keys)
    (present : s.primary.get? key = some ptr) (content : s.heap ptr = some record) :
    ptr ∈ entriesOf s (keys.secondary record) := by
  obtain ⟨found, live, -, single⟩ := indexed.single key ptr present
  cases Option.some.inj (content.symm.trans live)
  refine mem_entriesOf.mpr (List.mem_of_mem_filter (p := fun entry => entry.2 = ptr) ?_)
  rw [single]
  exact List.mem_singleton_self _

end Lookups

theorem getCustomerByLastName_mem {s : Store Nat CustomerSecondaryKey Customer n} {wId dId : Nat}
    {cLast : CStr} {ptr : Nat} (found : getCustomerByLastName s wId dId cLast = some ptr) :
    ptr ∈ entriesOf s (CustomerSecondaryKey.createKey wId dId cLast) := by
  have member := List.mem_of_getElem? found
  exact (List.mem_insertionSort _).mp member

theorem getCustomerByLastName_eq_none {s : Store Nat CustomerSecondaryKey Customer n}
    {wId dId : Nat} {cLast : CStr} (failed : getCustomerByLastName s wId dId cLast = none) :
    entriesOf s (CustomerSecondaryKey.createKey wId dId cLast) = [] := by
  have beyond := List.getElem?_eq_none_iff.mp failed
  rw [List.length_insertionSort] at beyond
  refine List.eq_nil_of_length_eq_zero ?_
  omega

/-- The loop returns one of the pointers it has seen, and an order with the largest id. -/
theorem foldl_laterOrder {s : Store Nat Nat Order n} (ptrs : List Nat) (best : Nat × Option Nat) :
    best.1 ≤ (ptrs.foldl (laterOrder s) best).1 ∧
      (∀ ptr ∈ ptrs, ∀ o, s.heap ptr = some o → o.oId ≤ (ptrs.foldl (laterOrder s) best).1) ∧
      (ptrs.foldl (laterOrder s) best = best ∨
        ∃ ptr ∈ ptrs, ∃ o, s.heap ptr = some o ∧ best.1 < o.oId ∧
          ptrs.foldl (laterOrder s) best = (o.oId, some ptr)) := by
  induction ptrs generalizing best with
  | nil => simp
  | cons first rest ih =>
    obtain ⟨larger, largest, result⟩ := ih (laterOrder s best first)
    have grows : best.1 ≤ (laterOrder s best first).1 ∧
        ∀ o, s.heap first = some o → o.oId ≤ (laterOrder s best first).1 := by
      unfold laterOrder
      split
      · rename_i o content
        split <;> simp [content] <;> omega
      · rename_i content
        simp [content]
    have chosen : laterOrder s best first = best ∨ ∃ o, s.heap first = some o ∧
        best.1 < o.oId ∧ laterOrder s best first = (o.oId, some first) := by
      unfold laterOrder
      split
      · rename_i o content
        split
        · rename_i later
          exact .inr ⟨o, content, later, rfl⟩
        · exact .inl rfl
      · exact .inl rfl
    rw [List.foldl_cons]
    refine ⟨grows.1.trans larger, ?_, ?_⟩
    · intro ptr member o content
      obtain rfl | member := List.mem_cons.mp member
      · exact (grows.2 o content).trans larger
      · exact largest ptr member o content
    · obtain result | ⟨ptr, member, o, content, later, result⟩ := result
      · rw [result]
        obtain chosen | ⟨o, content, later, chosen⟩ := chosen
        · exact .inl chosen
        · exact .inr ⟨first, List.mem_cons_self, o, content, later, chosen⟩
      · exact .inr ⟨ptr, List.mem_cons_of_mem _ member, o, content,
          grows.1.trans_lt later, result⟩

theorem getOrderByCustomerId_eq_some {s : Store Nat Nat Order n} {wId dId cId ptr : Nat}
    (found : getOrderByCustomerId s wId dId cId = some ptr) :
    ptr ∈ entriesOf s (OrderSecondaryKey.createKey wId dId cId) ∧ ∃ o, s.heap ptr = some o ∧
      ∀ other ∈ entriesOf s (OrderSecondaryKey.createKey wId dId cId),
        ∀ o', s.heap other = some o' → o'.oId ≤ o.oId := by
  obtain ⟨-, largest, result⟩ := foldl_laterOrder
    (entriesOf s (OrderSecondaryKey.createKey wId dId cId)) (s := s) (0, none)
  unfold getOrderByCustomerId at found
  obtain result | ⟨other, member, o, content, -, result⟩ := result
  · rw [result] at found
    cases found
  · rw [result] at found largest
    cases Option.some.inj found
    exact ⟨member, o, content, largest⟩

theorem getOrderByCustomerId_eq_none {s : Store Nat Nat Order n} {wId dId cId : Nat}
    (failed : getOrderByCustomerId s wId dId cId = none) :
    ∀ ptr ∈ entriesOf s (OrderSecondaryKey.createKey wId dId cId),
      ∀ o, s.heap ptr = some o → o.oId = 0 := by
  obtain ⟨-, largest, result⟩ := foldl_laterOrder
    (entriesOf s (OrderSecondaryKey.createKey wId dId cId)) (s := s) (0, none)
  unfold getOrderByCustomerId at failed
  obtain result | ⟨other, member, o, content, -, result⟩ := result
  · rw [result] at largest
    exact fun ptr member o content => Nat.le_zero.mp (largest ptr member o content)
  · rw [result] at failed
    cases failed

/-! ## Runs -/

structure Db.LooksUp (db : Db n) : Prop where
  customer : ∀ wId dId cLast ptr,
    getCustomerByLastName db.customer.store wId dId cLast = some ptr →
      Current customerKeys db.customer.store (.createKey wId dId cLast) ptr
  noCustomer : ∀ wId dId cLast, getCustomerByLastName db.customer.store wId dId cLast = none →
    ∀ ptr, ¬ Current customerKeys db.customer.store (.createKey wId dId cLast) ptr
  order : ∀ wId dId cId ptr, getOrderByCustomerId db.order.store wId dId cId = some ptr →
    Current orderKeys db.order.store (OrderSecondaryKey.createKey wId dId cId) ptr ∧
      ∃ o, db.order.store.heap ptr = some o ∧ ∀ other o',
        Current orderKeys db.order.store (OrderSecondaryKey.createKey wId dId cId) other →
          db.order.store.heap other = some o' → o'.oId ≤ o.oId
  noOrder : ∀ wId dId cId, getOrderByCustomerId db.order.store wId dId cId = none →
    ∀ ptr o, Current orderKeys db.order.store (OrderSecondaryKey.createKey wId dId cId) ptr →
      db.order.store.heap ptr = some o → o.oId = 0

theorem mem_entriesOf_of_current {S R : Type} [DecidableEq S] {keys : Keys Nat S R}
    {s : Store Nat S R n} {key : S} {ptr : Nat} (indexed : s.Indexed keys)
    (current : Current keys s key ptr) : ptr ∈ entriesOf s key := by
  obtain ⟨record, present, content, rfl⟩ := current
  exact mem_of_current indexed present content

theorem Db.Consistent.looksUp {db : Db n} (consistent : db.Consistent) : db.LooksUp := by
  have customers := consistent.customer.indexed
  have orders := consistent.order.indexed
  refine ⟨?_, ?_, ?_, ?_⟩
  · intro wId dId cLast ptr found
    exact current_of_mem customers (getCustomerByLastName_mem found)
  · intro wId dId cLast failed ptr current
    have member := mem_entriesOf_of_current customers current
    rw [getCustomerByLastName_eq_none failed] at member
    cases member
  · intro wId dId cId ptr found
    obtain ⟨member, o, content, largest⟩ := getOrderByCustomerId_eq_some found
    exact ⟨current_of_mem orders member, o, content, fun other o' current =>
      largest other (mem_entriesOf_of_current orders current) o'⟩
  · intro wId dId cId failed ptr o current
    exact getOrderByCustomerId_eq_none failed ptr (mem_entriesOf_of_current orders current) o

/-- In every run from a loaded database whose commits only insert into `Customer` and
`Order`, both indexes stay consistent and the lookups return current records. -/
theorem secondaryIndexes_consistent (debug : Bool) (thread : Fin n)
    (customers : List (Customer × Nat)) (orders : List (Order × Nat))
    (loadableCustomers : Store.Loadable customerKeys customers)
    (loadableOrders : Store.Loadable orderKeys orders) (trace : List (Label n)) (final : Db n)
    (run : Run (step debug) CommitsInserts (Db.load debug thread customers orders) trace final) :
    final.customer.store.Indexed customerKeys ∧ final.order.store.Indexed orderKeys ∧
      final.LooksUp := by
  have consistent : final.Consistent :=
    run.invariant Db.Consistent (.load debug thread loadableCustomers loadableOrders)
      fun _ _ _ consistent inserts taken => consistent.step inserts taken
  exact ⟨consistent.customer.indexed, consistent.order.indexed, consistent.looksUp⟩

/-! ## Fixed runs -/

def barCustomer : Customer :=
  { (default : Customer) with cWId := 1, cDId := 1, cId := 1, cLast := ['B', 'A', 'R'] }

def oughtCustomer : Customer :=
  { (default : Customer) with cWId := 1, cDId := 1, cId := 2, cLast := ['O', 'U', 'G', 'H', 'T'] }

def firstOrder : Order :=
  { (default : Order) with oWId := 1, oDId := 1, oId := 1, oCId := 1 }

instance (db : Db n) (label : Label n) : Decidable (CommitsInserts db label) := by
  cases label <;> unfold CommitsInserts <;> (try unfold Store.Inserts) <;> infer_instance

/-- A customer and an order are inserted into a database with one customer. -/
theorem insertions_indexed : ∃ trace final,
    Run (step false) CommitsInserts (Db.load (n := 1) false 0 [(barCustomer, 0)] []) trace final ∧
      final.customer.store.Indexed customerKeys ∧ final.order.store.Indexed orderKeys ∧
      final.LooksUp ∧ getOrderByCustomerId final.order.store 1 1 1 = some 0 := by
  have reached : (execWhen (step false) CommitsInserts
      (Db.load (n := 1) false 0 [(barCustomer, 0)] [])
      [.begin 0, .customer 1 (.insert oughtCustomer.key oughtCustomer),
        .order 0 (.insert firstOrder.key firstOrder), .commit]).map
        (fun db => getOrderByCustomerId db.order.store 1 1 1) = some (some 0) := by
    decide +kernel
  obtain ⟨final, ran, found⟩ := Option.map_eq_some_iff.mp reached
  have run := Run.of_execWhen ran
  obtain ⟨customers, orders, looksUp⟩ := secondaryIndexes_consistent false 0 [(barCustomer, 0)] []
    ⟨by simp, by simp⟩ ⟨by simp, by simp⟩ _ final run
  exact ⟨_, final, run, customers, orders, looksUp, found⟩

/-- Updating `BAR` and then `OUGHT`: the object of `BAR` is replaced, recycled through the
cache and becomes the record of `OUGHT`, which the lookup of `BAR` then returns. -/
theorem updates_break_index : ∃ trace final,
    Run (step false) always
      (Db.load (n := 1) false 0 [(barCustomer, 0), (oughtCustomer, 1)] []) trace final ∧
      ¬ final.customer.store.Indexed customerKeys ∧
      (final.customer.store.primary.get? barCustomer.key).bind final.customer.store.heap =
        some { barCustomer with cPaymentCnt := 1 } ∧
      (getCustomerByLastName final.customer.store 1 1 barCustomer.cLast).bind
        final.customer.store.heap = some oughtCustomer := by
  have reached : (exec (step false)
      (Db.load (n := 1) false 0 [(barCustomer, 0), (oughtCustomer, 1)] [])
      [.begin 0, .customer 2 (.update barCustomer.key { barCustomer with cPaymentCnt := 1 }),
        .commit, .begin 0, .customer 3 (.update oughtCustomer.key oughtCustomer), .commit]).map
        (fun db => (db.customer.store.secondary, db.customer.store.heap 0,
          (db.customer.store.primary.get? barCustomer.key).bind db.customer.store.heap,
          (getCustomerByLastName db.customer.store 1 1 barCustomer.cLast).bind
            db.customer.store.heap)) =
      some ([(barCustomer.secondaryKey, 0), (oughtCustomer.secondaryKey, 1)],
        some oughtCustomer, some { barCustomer with cPaymentCnt := 1 }, some oughtCustomer) := by
    decide +kernel
  obtain ⟨final, ran, summary⟩ := Option.map_eq_some_iff.mp reached
  obtain ⟨entries, summary⟩ := Prod.mk.inj summary
  obtain ⟨object, current, found⟩ := Prod.mk.inj summary |>.imp_right Prod.mk.inj
  refine ⟨_, final, Run.of_exec ran, fun indexed => ?_, current, found⟩
  obtain ⟨record, -, content, matching⟩ :=
    indexed.entry barCustomer.secondaryKey 0 (entries ▸ List.mem_cons_self)
  cases Option.some.inj (object.symm.trans content)
  exact absurd matching (by decide)

end TpccRunner.Naive
