import Mathlib
import TpccRunner.Naive.SecondaryIndex

/-!
# Tables by content

What the transactions see of a table: the rows under their keys and the write set with the
records it holds.  The pointers of `Table` refine it: rows are the objects that the table
owns, and `commit` and `abort` act on both alike, because owners are unique.
-/

set_option autoImplicit false

namespace TpccRunner.Naive

open Lib

structure Log (R : Type) where
  lt : LogType
  record : R
  deriving DecidableEq

structure Relation (K R : Type) [LinearOrder K] where
  rows : OrderedMap K R
  ws : OrderedMap K (Log R)

section Operations
variable {K R : Type} [LinearOrder K]

def Log.effect (log : Log R) (row : Option R) : Option R :=
  match log.lt with
  | .insert => row.or (some log.record)
  | .update => row.map fun _ => log.record
  | .delete => none

namespace Relation

def applyUpdateToWriteset (r : Relation K R) (key : K) : Except String (Relation K R × R) :=
  match r.ws.get? key with
  | some log =>
    match log.lt with
    | .insert => .ok (r, log.record)
    | .update => .ok (r, log.record)
    | .delete => .error "Record already deleted"
  | none =>
    match r.rows.get? key with
    | none => .error "No record to update in db"
    | some record =>
      .ok ({ r with ws := r.ws.insert key { lt := .update, record := record } }, record)

def applyInsertToWriteset [Inhabited R] (r : Relation K R) (key : K) :
    Except String (Relation K R) :=
  match r.ws.get? key with
  | some log =>
    match log.lt with
    | .insert => .error "Record already inserted"
    | .update => .error "Record already updated"
    | .delete => .ok { r with ws := r.ws.insert key { log with lt := .update } }
  | none => .ok { r with ws := r.ws.insert key { lt := .insert, record := default } }

def applyDeleteToWriteset [Inhabited R] (r : Relation K R) (key : K) :
    Except String (Relation K R) :=
  match r.ws.get? key with
  | some log =>
    match log.lt with
    | .insert => .ok { r with ws := r.ws.erase key }
    | .update => .ok { r with ws := r.ws.insert key { log with lt := .delete } }
    | .delete => .error "Record already deleted"
  | none =>
    match r.rows.get? key with
    | none => .error "Record not found in db"
    | some _ => .ok { r with ws := r.ws.insert key { lt := .delete, record := default } }

def write (r : Relation K R) (key : K) (record : R) : Relation K R :=
  match r.ws.get? key with
  | some log => { r with ws := r.ws.insert key { log with record := record } }
  | none => r

def perform [Inhabited R] (r : Relation K R) : Operation K R → Except String (Relation K R)
  | .insert key content => (r.applyInsertToWriteset key).map fun after => after.write key content
  | .update key content =>
    (r.applyUpdateToWriteset key).map fun (after, _) => after.write key content
  | .delete key => r.applyDeleteToWriteset key

def applyLog (rows : OrderedMap K R) (entry : K × Log R) : OrderedMap K R :=
  match entry.2.lt with
  | .insert => rows.tryEmplace entry.1 entry.2.record
  | .update =>
    if (rows.get? entry.1).isSome then rows.insert entry.1 entry.2.record else rows
  | .delete => rows.erase entry.1

def applyToDatabase (r : Relation K R) : Relation K R :=
  { rows := r.ws.entries.foldl applyLog r.rows, ws := .empty }

def clearWriteset (r : Relation K R) : Relation K R := { r with ws := .empty }

theorem get?_applyLog (rows : OrderedMap K R) (key : K) (log : Log R) (other : K) :
    (applyLog rows (key, log)).get? other =
      if other = key then log.effect (rows.get? key) else rows.get? other := by
  unfold applyLog Log.effect
  cases log.lt with
  | insert =>
    rw [OrderedMap.get?_tryEmplace]
    cases rows.get? key <;> rfl
  | update =>
    cases present : rows.get? key with
    | none =>
      by_cases same : other = key
      · simp [present, same]
      · simp [same]
    | some old => simp [OrderedMap.get?_insert]
  | delete => simp [OrderedMap.get?_erase]

theorem get?_applyToDatabase (r : Relation K R) (key : K) :
    r.applyToDatabase.rows.get? key = match r.ws.get? key with
      | none => r.rows.get? key
      | some log => log.effect (r.rows.get? key) := by
  unfold applyToDatabase
  rw [OrderedMap.get?_foldl applyLog Log.effect get?_applyLog]
  cases r.ws.get? key <;> rfl

theorem get?_write (r : Relation K R) (key : K) (record : R) (other : K) :
    (r.write key record).ws.get? other =
      if other = key then (r.ws.get? key).map fun log => { log with record := record }
      else r.ws.get? other := by
  unfold write
  cases present : r.ws.get? key with
  | none =>
    by_cases same : other = key
    · simp [present, same]
    · simp [same]
  | some log => simp [OrderedMap.get?_insert]

/-- Only the record of `key` gets a log. -/
theorem applyUpdateToWriteset_others {r : Relation K R} {key other : K}
    {found : Relation K R × R} (prepared : r.applyUpdateToWriteset key = .ok found)
    (different : other ≠ key) : found.1.ws.get? other = r.ws.get? other := by
  unfold applyUpdateToWriteset at prepared
  split at prepared
  · split at prepared
    · cases prepared
      rfl
    · cases prepared
      rfl
    · cases prepared
  · split at prepared
    · cases prepared
    · cases prepared
      exact OrderedMap.get?_insert_of_ne _ _ different

theorem write_rows (r : Relation K R) (key : K) (record : R) :
    (r.write key record).rows = r.rows := by
  unfold write
  split <;> rfl

end Relation

end Operations

/-! ## Refinement -/

section Refinement
variable {K S R : Type} {n : Nat} [LinearOrder K]

def Store.contents (s : Store K S R n) (key : K) : Option R :=
  (s.primary.get? key).bind s.heap

/-- A log record and its content; the object of a deletion is never read. -/
def LogRecord.Holds (s : Store K S R n) (log : LogRecord) (entry : Log R) : Prop :=
  log.lt = entry.lt ∧ (log.lt ≠ .delete → s.heap log.recPtr = some entry.record)

def LogRecord.effect (s : Store K S R n) (log : LogRecord) (row : Option R) : Option R :=
  match log.lt with
  | .insert => row.or (s.heap log.recPtr)
  | .update => row.bind fun _ => s.heap log.recPtr
  | .delete => none

theorem LogRecord.Holds.effect {s : Store K S R n} {log : LogRecord} {entry : Log R}
    (holds : log.Holds s entry) (row : Option R) : log.effect s row = entry.effect row := by
  obtain ⟨sameType, content⟩ := holds
  unfold LogRecord.effect Log.effect
  rw [← sameType]
  cases kind : log.lt with
  | insert => rw [content (by simp [kind])]
  | update =>
    rw [content (by simp [kind])]
    cases row <;> rfl
  | delete => rfl

structure Table.Refines (t : Table K S R n) (r : Relation K R) : Prop where
  owned : t.Owned
  rows : ∀ key, t.store.contents key = r.rows.get? key
  ws : ∀ key, Option.Rel (LogRecord.Holds t.store) (t.ws.get? key) (r.ws.get? key)

namespace Store

variable {held : Multiset Nat} {s s' : Store K S R n}

theorem write_write (s : Store K S R n) (ptr : Nat) (first second : R) :
    (s.write ptr first).write ptr second = s.write ptr second := by
  simp [Store.write]

theorem Same.contents (same : Same s s') (key : K) : s'.contents key = s.contents key := by
  unfold Store.contents
  rw [same.primary]
  cases present : s.primary.get? key with
  | none => rfl
  | some ptr => exact same.heap key ptr present

theorem contents_isSome (valid : Valid held s) (key : K) :
    (s.contents key).isSome = (s.primary.get? key).isSome := by
  unfold Store.contents
  cases present : s.primary.get? key with
  | none => rfl
  | some ptr => exact valid.live_primary present

theorem contents_insert (s : Store K S R n) (key : K) (ptr : Nat) (other : K) :
    contents { s with primary := s.primary.insert key ptr } other =
      if other = key then s.heap ptr else s.contents other := by
  unfold contents
  simp only [OrderedMap.get?_insert]
  split <;> rfl

theorem contents_erase (s : Store K S R n) (key other : K) :
    contents { s with primary := s.primary.erase key } other =
      if other = key then none else s.contents other := by
  unfold contents
  simp only [OrderedMap.get?_erase]
  split <;> rfl

theorem Valid.contents_deallocate {ptr : Nat} (valid : Valid (ptr ::ₘ held) s) (thread : Fin n)
    (key : K) : (s.deallocate thread ptr).contents key = s.contents key :=
  (valid.deallocate_same thread).contents key

theorem contents_insertSecondary [DecidableEq S] (debug : Bool) (s : Store K S R n) (key : S)
    (ptr : Nat) (other : K) :
    (insertSecondary debug s key ptr).contents other = s.contents other := by
  unfold contents
  rw [insertSecondary_primary, insertSecondary_heap]

theorem Valid.applyLogRecord_contents [DecidableEq S] {entry : K × LogRecord}
    (valid : Valid (entry.2.recPtr ::ₘ held) s) (debug : Bool) (keys : Keys K S R)
    (thread : Fin n) :
    (∀ key, (s.applyLogRecord debug keys thread entry).contents key =
      if key = entry.1 then entry.2.effect s (s.contents entry.1) else s.contents key) ∧
      ∀ ptr ∈ held, (s.applyLogRecord debug keys thread entry).heap ptr = s.heap ptr := by
  have outside : ∀ ptr ∈ held, ptr ≠ entry.2.recPtr := by
    rintro ptr member rfl
    exact valid.not_owned (Multiset.mem_add.mpr (.inl member))
  have row := contents_isSome valid entry.1
  -- a log record that leaves the row as it is
  have unchanged : ∀ value, s.contents entry.1 = value →
      ∀ key, s.contents key = if key = entry.1 then value else s.contents key := by
    rintro value rfl key
    split <;> simp_all
  unfold Store.applyLogRecord LogRecord.effect
  cases entry.2.lt with
  | insert =>
    refine ⟨?_, fun ptr member => insertRecord_heap debug keys (outside ptr member)⟩
    dsimp only
    unfold Store.insertRecord
    split
    · rename_i present
      rw [present] at row
      obtain ⟨old, row⟩ := Option.isSome_iff_exists.mp row
      have same : Same s (s.free entry.2.recPtr) :=
        ⟨rfl, rfl, fun _ _ owned => Function.update_of_ne (valid.ne_primary owned) _ _⟩
      intro key
      rw [same.contents]
      exact unchanged _ (by simp [row]) key
    · rename_i absent
      have row : s.contents entry.1 = none := by simpa [absent] using row
      obtain ⟨content, live⟩ := Option.isSome_iff_exists.mp
        (valid.live entry.2.recPtr (by simp))
      intro key
      simp only [live, contents_insertSecondary]
      rw [contents_insert, row, live]
      rfl
  | update =>
    dsimp only
    unfold Store.updateRecord
    cases present : s.primary.get? entry.1 with
    | none => exact ⟨unchanged _ (by simp [contents, present]), fun _ _ => rfl⟩
    | some old =>
      have exchanged := valid.exchange present
      refine ⟨fun key => ?_, fun ptr member => ?_⟩
      · rw [present] at row
        obtain ⟨record, row⟩ := Option.isSome_iff_exists.mp row
        rw [exchanged.contents_deallocate, contents_insert, row]
        rfl
      · exact (exchanged.deallocate thread).2 ptr (Multiset.mem_add.mpr (.inl member))
  | delete =>
    dsimp only
    have deleted := valid.deleteRecord thread entry.1
    refine ⟨fun key => ?_, fun ptr member => ?_⟩
    · rw [deleted.contents_deallocate]
      unfold Store.deleteRecord
      cases present : s.primary.get? entry.1 with
      | none => exact unchanged _ (by simp [contents, present]) key
      | some old =>
        dsimp only
        rw [(valid.take present).contents_deallocate, contents_erase]
    · rw [(deleted.deallocate thread).2 ptr (Multiset.mem_add.mpr (.inl member))]
      unfold Store.deleteRecord
      cases present : s.primary.get? entry.1 with
      | none => rfl
      | some old =>
        exact ((valid.take present).deallocate thread).2 ptr
          (Multiset.mem_add.mpr (.inl (Multiset.mem_cons_of_mem member)))

theorem Valid.applyAll_contents [DecidableEq S] (debug : Bool) (keys : Keys K S R)
    (thread : Fin n) (logs : List (K × LogRecord)) (valid : Valid (pointers logs) s)
    (distinct : logs.Pairwise fun first second => first.1 < second.1) (key : K) :
    (logs.foldl (Store.applyLogRecord debug keys thread) s).contents key =
      (logs.lookup key).elim (s.contents key) fun log => log.effect s (s.contents key) := by
  induction logs generalizing s with
  | nil => rfl
  | cons entry rest ih =>
    rw [pointers_cons] at valid
    obtain ⟨above, distinct⟩ := List.pairwise_cons.mp distinct
    obtain ⟨changed, kept⟩ := valid.applyLogRecord_contents debug keys thread
    rw [List.foldl_cons, ih (valid.applyLogRecord debug keys thread) distinct, changed key,
      OrderedMap.lookup_cons_eq]
    by_cases here : key = entry.1
    · subst here
      simp [OrderedMap.lookup_eq_none_of_lt above]
    · rw [if_neg here, if_neg here]
      cases present : rest.lookup key with
      | none => rfl
      | some log =>
        have member : (key, log) ∈ (⟨rest, distinct⟩ : OrderedMap K LogRecord).entries :=
          OrderedMap.get?_eq_some_iff.mp present
        have same := kept log.recPtr
          (Multiset.mem_coe.mpr (List.mem_map.mpr ⟨_, member, rfl⟩))
        simp only [Option.elim_some, LogRecord.effect, same]

end Store

namespace Table

variable {t t' : Table K S R n} {r : Relation K R}

theorem Refines.clearWriteset (refines : t.Refines r) (thread : Fin n) :
    (t.clearWriteset thread).Refines r.clearWriteset := by
  obtain ⟨owned, same⟩ := refines.owned.clearWriteset thread
  refine ⟨owned, fun key => ?_, fun _ => .none⟩
  rw [same.contents, refines.rows key]
  rfl

theorem Owned.contents_applyToDatabase [DecidableEq S] (owned : t.Owned) (debug : Bool)
    (keys : Keys K S R) (thread : Fin n) (key : K) :
    (t.applyToDatabase debug keys thread).store.contents key =
      (t.ws.get? key).elim (t.store.contents key) fun log =>
        log.effect t.store (t.store.contents key) :=
  Store.Valid.applyAll_contents debug keys thread t.ws.entries owned t.ws.ascending key

theorem Refines.log_cases (refines : t.Refines r) (key : K) :
    (t.ws.get? key = none ∧ r.ws.get? key = none) ∨
      ∃ log entry, t.ws.get? key = some log ∧ r.ws.get? key = some entry ∧
        log.Holds t.store entry := by
  have related := refines.ws key
  cases present : t.ws.get? key with
  | none =>
    cases found : r.ws.get? key with
    | none => exact .inl ⟨rfl, rfl⟩
    | some entry => simp [present, found] at related
  | some log =>
    cases found : r.ws.get? key with
    | none => simp [present, found] at related
    | some entry =>
      rw [present, found] at related
      exact .inr ⟨log, entry, rfl, rfl, Option.rel_some_some.mp related⟩

theorem Refines.applyToDatabase [DecidableEq S] (refines : t.Refines r) (debug : Bool)
    (keys : Keys K S R) (thread : Fin n) :
    (t.applyToDatabase debug keys thread).Refines r.applyToDatabase := by
  refine ⟨refines.owned.applyToDatabase debug keys thread, fun key => ?_, fun _ => .none⟩
  rw [refines.owned.contents_applyToDatabase, Relation.get?_applyToDatabase]
  obtain ⟨absent, absent'⟩ | ⟨log, entry, present, found, holds⟩ := refines.log_cases key
  · simpa [absent, absent'] using refines.rows key
  · simp [present, found, holds.effect, refines.rows key]

theorem Refines.change {r' : Relation K R} {key : K} (refines : t.Refines r)
    (changes : Changes t t' key) (rows : r'.rows = r.rows)
    (changed : Option.Rel (LogRecord.Holds t'.store) (t'.ws.get? key) (r'.ws.get? key))
    (theirs : ∀ other, other ≠ key → r'.ws.get? other = r.ws.get? other) : t'.Refines r' := by
  refine ⟨changes.owned, fun other => ?_, fun other => ?_⟩
  · rw [changes.same.contents, refines.rows other, rows]
  · by_cases here : other = key
    · rw [here]
      exact changed
    · rw [changes.ws other here, theirs other here]
      obtain ⟨absent, absent'⟩ | ⟨log, entry, present, found, sameType, content⟩ :=
        refines.log_cases other
      · rw [absent, absent']
        exact .none
      · rw [present, found]
        exact .some ⟨sameType, fun read => by
          rw [changes.heap other log here present, content read]⟩

theorem Refines.write {key : K} {log : LogRecord} {entry : Log R} (refines : t.Refines r)
    (present : t.ws.get? key = some log) (found : r.ws.get? key = some entry)
    (sameType : log.lt = entry.lt) (content : R) :
    Refines { t with store := t.store.write log.recPtr content } (r.write key content) := by
  refine refines.change (refines.owned.changes_write present content) (r.write_rows key content)
    ?_ fun other different => by rw [Relation.get?_write, if_neg different]
  rw [Relation.get?_write, if_pos rfl, found]
  change Option.Rel _ (t.ws.get? key) _
  rw [present]
  exact .some ⟨sameType, fun _ => by simp [Store.write]⟩

theorem Refines.congr {r' : Relation K R} (refines : t.Refines r) (rows : r'.rows = r.rows)
    (ws : ∀ key, r'.ws.get? key = r.ws.get? key) : t.Refines r' :=
  ⟨refines.owned, fun key => by rw [rows, refines.rows key],
    fun key => by rw [ws key]; exact refines.ws key⟩

theorem Refines.retype {key : K} {log : LogRecord} (refines : t.Refines r) (entry : Log R)
    (lt : LogType) (present : t.ws.get? key = some log)
    (readable : lt ≠ .delete → t.store.heap log.recPtr = some entry.record) :
    Refines { t with ws := t.ws.insert key { log with lt := lt } }
      { r with ws := r.ws.insert key { entry with lt := lt } } := by
  refine refines.change (refines.owned.changes_retype lt present) rfl ?_
    fun other different => OrderedMap.get?_insert_of_ne _ _ different
  rw [OrderedMap.get?_insert_self, OrderedMap.get?_insert_self]
  exact .some ⟨rfl, readable⟩

section Prepare
variable [Inhabited R] {fresh : Nat}

theorem Refines.createLogrecord {key : K} (refines : t.Refines r) (thread : Fin n)
    (lt : LogType) (unused : t.store.heap fresh = none) (absent : t.ws.get? key = none)
    (old content : R) :
    Refines
      { store := (t.createLogrecord thread fresh lt key).1.store.write
          (t.createLogrecord thread fresh lt key).2 content
        ws := (t.createLogrecord thread fresh lt key).1.ws }
      (Relation.write { r with ws := r.ws.insert key ⟨lt, old⟩ } key content) := by
  have created := refines.owned.changes_createLogrecord thread lt unused absent
  have found := t.createLogrecord_get? thread fresh lt key
  refine refines.change (created.trans (created.owned.changes_write found content))
    (Relation.write_rows ..) ?_ fun other different => ?_
  · rw [Relation.get?_write, if_pos rfl, OrderedMap.get?_insert_self]
    exact found.symm ▸ .some ⟨rfl, fun _ => by simp [Store.write]⟩
  · rw [Relation.get?_write, if_neg different, OrderedMap.get?_insert_of_ne _ _ different]

def Agree (mine : Except String (Table K S R n)) (theirs : Except String (Relation K R)) : Prop :=
  match mine, theirs with
  | .ok t', .ok r' => t'.Refines r'
  | .error message, .error other => message = other
  | _, _ => False

theorem Refines.perform_insert (refines : t.Refines r) (thread : Fin n)
    (unused : t.store.heap fresh = none) (key : K) (content : R) :
    Agree (t.perform thread fresh (.insert key content)) (r.perform (.insert key content)) := by
  simp only [Table.perform, Relation.perform, applyInsertToWriteset,
    Relation.applyInsertToWriteset]
  obtain ⟨absent, absent'⟩ | ⟨log, entry, present, found, sameType, -⟩ := refines.log_cases key
  · simp only [absent, absent', Except.map, Agree]
    exact refines.createLogrecord thread .insert unused absent default content
  · simp only [present, found, ← sameType]
    cases kind : log.lt with
    | insert | update => rfl
    | delete =>
      simp only [Except.map, Agree]
      -- the object of the deletion has no content yet, so that it is given one first
      have written := refines.write present found sameType content
      have retyped := written.retype { entry with record := content } .update present
        fun _ => by simp [Store.write]
      refine retyped.congr (by simp [Relation.write_rows]) fun other => ?_
      by_cases here : other = key <;>
        simp [Relation.get?_write, OrderedMap.get?_insert, here]

theorem Refines.perform_update (refines : t.Refines r) (thread : Fin n)
    (unused : t.store.heap fresh = none) (key : K) (content : R) :
    Agree (t.perform thread fresh (.update key content)) (r.perform (.update key content)) := by
  simp only [Table.perform, Relation.perform, applyUpdateToWriteset,
    Relation.applyUpdateToWriteset]
  obtain ⟨absent, absent'⟩ | ⟨log, entry, present, found, sameType, -⟩ := refines.log_cases key
  · simp only [absent, absent']
    have row := refines.rows key
    unfold Store.contents at row
    rw [row]
    cases r.rows.get? key with
    | none => rfl
    | some record =>
      simp only [Except.map, Agree]
      rw [Store.write_write]
      exact refines.createLogrecord thread .update unused absent record content
  · simp only [present, found, ← sameType]
    cases kind : log.lt with
    | insert | update => exact refines.write present found sameType content
    | delete => rfl

theorem Refines.perform_delete (refines : t.Refines r) (thread : Fin n)
    (unused : t.store.heap fresh = none) (key : K) :
    Agree (t.perform thread fresh (.delete key)) (r.perform (.delete key)) := by
  simp only [Table.perform, Relation.perform, applyDeleteToWriteset,
    Relation.applyDeleteToWriteset]
  obtain ⟨absent, absent'⟩ | ⟨log, entry, present, found, sameType, -⟩ := refines.log_cases key
  · simp only [absent, absent']
    have row := refines.rows key
    have stored := Store.contents_isSome refines.owned key
    rw [row] at stored
    cases primary : t.store.primary.get? key with
    | none =>
      rw [primary] at stored
      simp only [Option.isSome_none, Option.isSome_eq_false_iff, Option.isNone_iff_eq_none]
        at stored
      simp [stored, Agree]
    | some ptr =>
      rw [primary] at stored
      obtain ⟨record, stored⟩ := Option.isSome_iff_exists.mp stored
      simp only [stored, Agree]
      refine refines.change (refines.owned.changes_createLogrecord thread .delete unused absent)
        rfl ?_ fun other different => OrderedMap.get?_insert_of_ne _ _ different
      rw [createLogrecord_get?, OrderedMap.get?_insert_self]
      exact .some ⟨rfl, fun read => absurd rfl read⟩
  · simp only [present, found, ← sameType]
    cases kind : log.lt with
    | insert =>
      refine refines.change (refines.owned.changes_erase thread present) rfl ?_ ?_
      · simp [OrderedMap.get?_erase]
      · intro other different
        simp [OrderedMap.get?_erase, different]
    | update => exact refines.retype entry .delete present fun read => absurd rfl read
    | delete => rfl

theorem Refines.perform (refines : t.Refines r) (thread : Fin n)
    (unused : t.store.heap fresh = none) (operation : Operation K R) :
    Agree (t.perform thread fresh operation) (r.perform operation) := by
  cases operation with
  | insert key content => exact refines.perform_insert thread unused key content
  | update key content => exact refines.perform_update thread unused key content
  | delete key => exact refines.perform_delete thread unused key

theorem Refines.request (refines : t.Refines r) {thread : Fin n} {operation : Operation K R}
    (requested : t.request thread fresh operation = some t') :
    t'.Refines ((r.perform operation).toOption.getD r) := by
  simp only [Table.request, Option.ite_none_right_eq_some, Option.isNone_iff_eq_none] at requested
  have agree := refines.perform thread requested.1 operation
  unfold Agree at agree
  split at agree
  case h_3 => cases agree
  all_goals
    rename_i mine theirs
    rw [mine] at requested
    cases requested.2
    rwa [theirs]

end Prepare

end Table

end Refinement

/-! ## Runs -/

structure Contents where
  customer : Relation Nat Tpcc.Customer
  order : Relation Nat Tpcc.Order

/-- A label at the level of contents; a call that throws changes nothing. -/
def Contents.step {n : Nat} (c : Contents) : Label n → Contents
  | .begin _ | .abort => ⟨c.customer.clearWriteset, c.order.clearWriteset⟩
  | .customer _ operation =>
    { c with customer := (c.customer.perform operation).toOption.getD c.customer }
  | .order _ operation => { c with order := (c.order.perform operation).toOption.getD c.order }
  | .commit => ⟨c.customer.applyToDatabase, c.order.applyToDatabase⟩

def Db.Refines {n : Nat} (db : Db n) (c : Contents) : Prop :=
  db.customer.Refines c.customer ∧ db.order.Refines c.order

/-- Whatever the transactions do, the objects of the tables and of their write sets have
unique owners and hold what the relations hold. -/
theorem run_refines {n : Nat} {debug : Bool} {first final : Db n} {c : Contents}
    {trace : List (Label n)} (initial : first.Refines c)
    (run : Run (step debug) always first trace final) :
    final.Refines (trace.foldl Contents.step c) := by
  induction run with
  | nil => exact initial
  | @snoc trace before after label earlier _ taken ih =>
    rw [List.foldl_append]
    cases label with
    | begin | abort =>
      cases taken
      exact ⟨ih.1.clearWriteset _, ih.2.clearWriteset _⟩
    | customer fresh operation =>
      obtain ⟨t, requested, rfl⟩ := Option.map_eq_some_iff.mp taken
      exact ⟨ih.1.request requested, ih.2⟩
    | order fresh operation =>
      obtain ⟨t, requested, rfl⟩ := Option.map_eq_some_iff.mp taken
      exact ⟨ih.1, ih.2.request requested⟩
    | commit =>
      cases taken
      exact ⟨ih.1.applyToDatabase debug customerKeys _, ih.2.applyToDatabase debug orderKeys _⟩

/-- A customer is inserted into an empty database, updated and committed. -/
theorem insertion_refined : ∃ trace final,
    Run (step false) always (Db.load (n := 1) false 0 [] []) trace final ∧
      final.Refines (trace.foldl Contents.step ⟨⟨.empty, .empty⟩, ⟨.empty, .empty⟩⟩) ∧
      final.customer.store.contents barCustomer.key = some oughtCustomer := by
  have reached : (exec (step false) (Db.load (n := 1) false 0 [] [])
      [.begin 0, .customer 0 (.insert barCustomer.key barCustomer),
        .customer 1 (.update barCustomer.key oughtCustomer), .commit]).map
      (fun db => db.customer.store.contents barCustomer.key) = some (some oughtCustomer) := by
    decide +kernel
  obtain ⟨final, ran, found⟩ := Option.map_eq_some_iff.mp reached
  have loaded : (Db.load (n := 1) false 0 [] []).Consistent :=
    .load false 0 ⟨by simp, by simp⟩ ⟨by simp, by simp⟩
  have run := Run.of_exec ran
  exact ⟨_, final, run, run_refines ⟨⟨loaded.customer.owned, fun _ => rfl, fun _ => .none⟩,
    ⟨loaded.order.owned, fun _ => rfl, fun _ => .none⟩⟩ run, found⟩

end TpccRunner.Naive
