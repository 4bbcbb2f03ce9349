import Mathlib
import TpccRunner.Lib.OrderedMap

/-!
# Tables with a secondary index

The naive database keeps the records of a table as heap objects owned by the table's
`unique_ptr`s.  `Customer` and `Order` also have a secondary index, a multimap of raw
pointers to those objects.  A write set owns the objects of its log records, and released
objects go to a cache of the running thread, from which they are handed out again.

The model keeps the heap and every pointer, so that a raw pointer can outlive the owner of
its object.  `Store.Valid` says that owners are unique; the pointers that are held outside
the table and the caches are its parameter.
-/

set_option autoImplicit false

namespace TpccRunner.Naive

open Lib

inductive LogType where
  | insert
  | update
  | delete
  deriving DecidableEq, Repr

structure LogRecord where
  lt : LogType
  recPtr : Nat
  deriving DecidableEq, Repr

structure Keys (K S R : Type) where
  primary : R → K
  secondary : R → S

structure Store (K S R : Type) (n : Nat) [LinearOrder K] where
  heap : Nat → Option R
  primary : OrderedMap K Nat
  secondary : List (S × Nat)
  /-- The deque of every thread, its front first. -/
  cache : Fin n → List Nat

/-- The constant `n` of `RecordMemoryCache`. -/
def cacheLimit : Nat := 30

section Operations
variable {K S R : Type} {n : Nat} [LinearOrder K] [DecidableEq S] [Inhabited R]

namespace Store

def write (s : Store K S R n) (ptr : Nat) (content : R) : Store K S R n :=
  { s with heap := Function.update s.heap ptr (some content) }

def free (s : Store K S R n) (ptr : Nat) : Store K S R n :=
  { s with heap := Function.update s.heap ptr none }

/-- `Cache::allocate`; `fresh` is what `new` returns when the cache is empty. -/
def allocate (s : Store K S R n) (thread : Fin n) (fresh : Nat) : Store K S R n × Nat :=
  match (s.cache thread).getLast? with
  | some ptr =>
    ({ s with cache := Function.update s.cache thread (s.cache thread).dropLast }, ptr)
  | none => (s.write fresh default, fresh)

def deallocate (s : Store K S R n) (thread : Fin n) (ptr : Nat) : Store K S R n :=
  let pushed := s.cache thread ++ [ptr]
  if pushed.length > cacheLimit then
    { s with cache := Function.update s.cache thread pushed.tail }.free (pushed.headD ptr)
  else { s with cache := Function.update s.cache thread pushed }

/-- `insert_record` of a secondary record; a debug build refuses a present pair. -/
def insertSecondary (debug : Bool) (s : Store K S R n) (key : S) (ptr : Nat) :
    Store K S R n :=
  if debug ∧ s.secondary.any fun entry => entry = (key, ptr) then s
  else { s with secondary := s.secondary ++ [(key, ptr)] }

/-- `insert_record`, which takes the `unique_ptr` by value: when the key is present the object
is destroyed on return. -/
def insertRecord (debug : Bool) (keys : Keys K S R) (s : Store K S R n) (key : K) (ptr : Nat) :
    Store K S R n :=
  if (s.primary.get? key).isSome then s.free ptr
  else
    match s.heap ptr with
    | some record =>
      insertSecondary debug { s with primary := s.primary.insert key ptr }
        (keys.secondary record) ptr
    | none => s

/-- `update_record`; the iterator of the log record is the table's entry for its key. -/
def updateRecord (s : Store K S R n) (thread : Fin n) (key : K) (ptr : Nat) : Store K S R n :=
  match s.primary.get? key with
  | some old => { s with primary := s.primary.insert key ptr }.deallocate thread old
  | none => s

def deleteRecord (s : Store K S R n) (thread : Fin n) (key : K) : Store K S R n :=
  match s.primary.get? key with
  | some old => { s with primary := s.primary.erase key }.deallocate thread old
  | none => s

def applyLogRecord (debug : Bool) (keys : Keys K S R) (thread : Fin n) (s : Store K S R n)
    (entry : K × LogRecord) : Store K S R n :=
  match entry.2.lt with
  | .insert => s.insertRecord debug keys entry.1 entry.2.recPtr
  | .update => s.updateRecord thread entry.1 entry.2.recPtr
  | .delete => (s.deleteRecord thread entry.1).deallocate thread entry.2.recPtr

/-- The loader: `allocate_record`, `generate` and the insertion of the secondary record. -/
def loadRecord (debug : Bool) (keys : Keys K S R) (thread : Fin n) (s : Store K S R n)
    (entry : R × Nat) : Store K S R n :=
  match s.primary.get? (keys.primary entry.1) with
  | some ptr => insertSecondary debug (s.write ptr entry.1) (keys.secondary entry.1) ptr
  | none =>
    let (allocated, ptr) := s.allocate thread entry.2
    insertSecondary debug
      ({ allocated with primary := allocated.primary.insert (keys.primary entry.1) ptr }.write
        ptr entry.1)
      (keys.secondary entry.1) ptr

def empty : Store K S R n :=
  { heap := fun _ => none, primary := .empty, secondary := [], cache := fun _ => [] }

def load (debug : Bool) (keys : Keys K S R) (thread : Fin n) (records : List (R × Nat)) :
    Store K S R n :=
  records.foldl (loadRecord debug keys thread) empty

end Store

structure Table (K S R : Type) (n : Nat) [LinearOrder K] where
  store : Store K S R n
  ws : OrderedMap K LogRecord

inductive Operation (K R : Type) where
  | insert (key : K) (content : R)
  | update (key : K) (content : R)
  | delete (key : K)

namespace Table

def createLogrecord (t : Table K S R n) (thread : Fin n) (fresh : Nat) (lt : LogType) (key : K) :
    Table K S R n × Nat :=
  let (store, ptr) := t.store.allocate thread fresh
  ({ store := store, ws := t.ws.insert key { lt := lt, recPtr := ptr } }, ptr)

def applyUpdateToWriteset (t : Table K S R n) (thread : Fin n) (fresh : Nat) (key : K) :
    Except String (Table K S R n × Nat) :=
  match t.ws.get? key with
  | some log =>
    match log.lt with
    | .insert => .ok (t, log.recPtr)
    | .update => .ok (t, log.recPtr)
    | .delete => .error "Record already deleted"
  | none =>
    match (t.store.primary.get? key).bind t.store.heap with
    | none => .error "No record to update in db"
    | some record =>
      let (logged, ptr) := t.createLogrecord thread fresh .update key
      .ok ({ logged with store := logged.store.write ptr record }, ptr)

def applyInsertToWriteset (t : Table K S R n) (thread : Fin n) (fresh : Nat) (key : K) :
    Except String (Table K S R n × Nat) :=
  match t.ws.get? key with
  | some log =>
    match log.lt with
    | .insert => .error "Record already inserted"
    | .update => .error "Record already updated"
    | .delete =>
      .ok ({ t with ws := t.ws.insert key { log with lt := .update } }, log.recPtr)
  | none => .ok (t.createLogrecord thread fresh .insert key)

def applyDeleteToWriteset (t : Table K S R n) (thread : Fin n) (fresh : Nat) (key : K) :
    Except String (Table K S R n) :=
  match t.ws.get? key with
  | some log =>
    match log.lt with
    | .insert =>
      .ok { store := t.store.deallocate thread log.recPtr, ws := t.ws.erase key }
    | .update => .ok { t with ws := t.ws.insert key { log with lt := .delete } }
    | .delete => .error "Record already deleted"
  | none =>
    match t.store.primary.get? key with
    | none => .error "Record not found in db"
    | some _ => .ok (t.createLogrecord thread fresh .delete key).1

/-- A call to `prepare_record_for_insert`, `_update` or `_delete`, with the content that the
caller writes through the returned pointer. -/
def perform (t : Table K S R n) (thread : Fin n) (fresh : Nat) :
    Operation K R → Except String (Table K S R n)
  | .insert key content =>
    (t.applyInsertToWriteset thread fresh key).map fun (logged, ptr) =>
      { logged with store := logged.store.write ptr content }
  | .update key content =>
    (t.applyUpdateToWriteset thread fresh key).map fun (logged, ptr) =>
      { logged with store := logged.store.write ptr content }
  | .delete key => t.applyDeleteToWriteset thread fresh key

/-- `apply_writeset_to_database`. -/
def applyToDatabase (debug : Bool) (keys : Keys K S R) (thread : Fin n) (t : Table K S R n) :
    Table K S R n :=
  { store := t.ws.entries.foldl (Store.applyLogRecord debug keys thread) t.store, ws := .empty }

def clearWriteset (thread : Fin n) (t : Table K S R n) : Table K S R n :=
  { store := t.ws.entries.foldl (fun s entry => s.deallocate thread entry.2.recPtr) t.store
    ws := .empty }

end Table

end Operations

/-! ## Unique ownership -/

section Ownership
variable {K S R : Type} {n : Nat} [LinearOrder K]

namespace Store

def owned (s : Store K S R n) : Multiset Nat :=
  (s.primary.entries.map Prod.snd : Multiset Nat) + ∑ thread, (s.cache thread : Multiset Nat)

/-- Every owner has an object of its own; `held` are the pointers owned elsewhere. -/
structure Valid (held : Multiset Nat) (s : Store K S R n) : Prop where
  distinct : (held + s.owned).Nodup
  live : ∀ ptr ∈ held + s.owned, (s.heap ptr).isSome

def apart (s : Store K S R n) (thread : Fin n) : Multiset Nat :=
  (s.primary.entries.map Prod.snd : Multiset Nat) +
    ∑ other ∈ Finset.univ.erase thread, (s.cache other : Multiset Nat)

theorem owned_eq (s : Store K S R n) (thread : Fin n) :
    s.owned = (s.cache thread : Multiset Nat) + s.apart thread := by
  unfold owned apart
  rw [← Finset.add_sum_erase _ _ (Finset.mem_univ thread)]
  exact add_left_comm _ _ _

theorem apart_setCache (s : Store K S R n) (heap : Nat → Option R) (thread : Fin n)
    (cached : List Nat) :
    apart { s with heap := heap, cache := Function.update s.cache thread cached } thread =
      s.apart thread := by
  unfold apart
  congr 1
  refine Finset.sum_congr rfl fun other member => ?_
  simp [Function.update_of_ne (Finset.ne_of_mem_erase member)]

theorem owned_setCache (s : Store K S R n) (heap : Nat → Option R) (thread : Fin n)
    (cached : List Nat) :
    owned { s with heap := heap, cache := Function.update s.cache thread cached } =
      (cached : Multiset Nat) + s.apart thread := by
  rw [owned_eq _ thread, apart_setCache]
  simp

theorem mem_owned_of_primary {s : Store K S R n} {key : K} {ptr : Nat}
    (present : s.primary.get? key = some ptr) : ptr ∈ s.owned := by
  refine Multiset.mem_add.mpr (.inl ?_)
  exact Multiset.mem_coe.mpr (List.mem_map.mpr ⟨_, OrderedMap.get?_eq_some_iff.mp present, rfl⟩)

theorem Valid.mono {held smaller : Multiset Nat} {s : Store K S R n} (valid : Valid held s)
    (subset : smaller ≤ held) : Valid smaller s := by
  have below : smaller + s.owned ≤ held + s.owned := by gcongr
  exact ⟨Multiset.nodup_of_le below valid.distinct,
    fun ptr member => valid.live ptr (Multiset.mem_of_le below member)⟩

theorem Valid.of_owned {held held' : Multiset Nat} {s s' : Store K S R n} (valid : Valid held s)
    (moved : held' + s'.owned = held + s.owned) (heap : s'.heap = s.heap) : Valid held' s' := by
  refine ⟨?_, ?_⟩
  · rw [moved]
    exact valid.distinct
  · rw [moved, heap]
    exact valid.live

theorem Valid.not_owned {held : Multiset Nat} {ptr : Nat} {s : Store K S R n}
    (valid : Valid (ptr ::ₘ held) s) : ptr ∉ held + s.owned := by
  have distinct := valid.distinct
  rw [Multiset.cons_add, Multiset.nodup_cons] at distinct
  exact distinct.1

theorem Valid.write {held : Multiset Nat} {s : Store K S R n}
    (valid : Valid held s) (ptr : Nat) (content : R) : Valid held (s.write ptr content) := by
  refine ⟨valid.distinct, fun other member => ?_⟩
  by_cases same : other = ptr
  · simp [Store.write, same]
  · simpa [Store.write, same] using valid.live other member

theorem owned_insert (s : Store K S R n) {key : K} {old : Nat} (ptr : Nat)
    (present : s.primary.get? key = some old) :
    old ::ₘ owned { s with primary := s.primary.insert key ptr } = ptr ::ₘ s.owned := by
  have inserted := ((OrderedMap.insert_perm s.primary key ptr).map Prod.snd)
  have erased := ((OrderedMap.erase_perm present).map Prod.snd)
  unfold owned
  rw [Multiset.coe_eq_coe.mpr inserted, Multiset.coe_eq_coe.mpr erased]
  simp only [List.map_cons, ← Multiset.cons_coe, Multiset.cons_add]
  exact Multiset.cons_swap _ _ _

theorem owned_insert_new (s : Store K S R n) {key : K} (ptr : Nat)
    (absent : s.primary.get? key = none) :
    owned { s with primary := s.primary.insert key ptr } = ptr ::ₘ s.owned := by
  have inserted := ((OrderedMap.insert_perm s.primary key ptr).map Prod.snd)
  rw [OrderedMap.erase_entries_of_absent absent] at inserted
  unfold owned
  rw [Multiset.coe_eq_coe.mpr inserted]
  simp only [List.map_cons, ← Multiset.cons_coe, Multiset.cons_add]

theorem owned_erase (s : Store K S R n) {key : K} {old : Nat}
    (present : s.primary.get? key = some old) :
    old ::ₘ owned { s with primary := s.primary.erase key } = s.owned := by
  have erased := ((OrderedMap.erase_perm present).map Prod.snd)
  unfold owned
  rw [Multiset.coe_eq_coe.mpr erased]
  simp only [List.map_cons, ← Multiset.cons_coe, Multiset.cons_add]

section Effects
variable {held : Multiset Nat} {s : Store K S R n}

theorem allocate_primary [Inhabited R] (s : Store K S R n) (thread : Fin n) (fresh : Nat) :
    (s.allocate thread fresh).1.primary = s.primary := by
  unfold allocate
  split <;> rfl

theorem allocate_secondary [Inhabited R] (s : Store K S R n) (thread : Fin n) (fresh : Nat) :
    (s.allocate thread fresh).1.secondary = s.secondary := by
  unfold allocate
  split <;> rfl

theorem allocate_heap [Inhabited R] (s : Store K S R n) (thread : Fin n) {fresh : Nat}
    (unused : s.heap fresh = none) {ptr : Nat} (live : (s.heap ptr).isSome) :
    (s.allocate thread fresh).1.heap ptr = s.heap ptr := by
  unfold allocate
  split
  · rfl
  · have different : ptr ≠ fresh := by
      rintro rfl
      simp [unused] at live
    simp [Store.write, different]

theorem Valid.allocate [Inhabited R] (valid : Valid held s) (thread : Fin n) {fresh : Nat}
    (unused : s.heap fresh = none) :
    Valid ((s.allocate thread fresh).2 ::ₘ held) (s.allocate thread fresh).1 := by
  unfold Store.allocate
  split
  · rename_i ptr last
    have split : s.cache thread = (s.cache thread).dropLast ++ [ptr] :=
      (List.dropLast_append_getLast? ptr last).symm
    have moved : (ptr ::ₘ held) +
        (((s.cache thread).dropLast : Multiset Nat) + s.apart thread) = held + s.owned := by
      rw [owned_eq s thread]
      conv_rhs => rw [split]
      rw [← Multiset.coe_add, Multiset.cons_add, ← Multiset.singleton_add]
      simp only [Multiset.coe_singleton]
      abel
    exact valid.of_owned (by rw [owned_setCache, moved]) rfl
  · have absent : fresh ∉ held + s.owned := fun member => by
      have live := valid.live fresh member
      simp [unused] at live
    constructor
    · change ((fresh ::ₘ held) + s.owned).Nodup
      rw [Multiset.cons_add, Multiset.nodup_cons]
      exact ⟨absent, valid.distinct⟩
    · intro other member
      change other ∈ (fresh ::ₘ held) + s.owned at member
      rw [Multiset.cons_add, Multiset.mem_cons] at member
      obtain rfl | member := member
      · simp [Store.write]
      · exact (valid.write fresh default).live other member

theorem deallocate_primary (s : Store K S R n) (thread : Fin n) (ptr : Nat) :
    (s.deallocate thread ptr).primary = s.primary := by
  unfold deallocate
  dsimp only
  split <;> rfl

theorem deallocate_secondary (s : Store K S R n) (thread : Fin n) (ptr : Nat) :
    (s.deallocate thread ptr).secondary = s.secondary := by
  unfold deallocate
  dsimp only
  split <;> rfl

theorem Valid.deallocate {ptr : Nat} (valid : Valid (ptr ::ₘ held) s) (thread : Fin n) :
    Valid held (s.deallocate thread ptr) ∧
      ∀ other ∈ held + (s.deallocate thread ptr).owned,
        (s.deallocate thread ptr).heap other = s.heap other := by
  have moved : held + (((s.cache thread ++ [ptr] : List Nat) : Multiset Nat) + s.apart thread) =
      (ptr ::ₘ held) + s.owned := by
    rw [owned_eq s thread, ← Multiset.coe_add, Multiset.cons_add, ← Multiset.singleton_add]
    simp only [Multiset.coe_singleton]
    abel
  unfold Store.deallocate
  dsimp only
  split
  · obtain ⟨front, rest, pushed⟩ : ∃ front rest, s.cache thread ++ [ptr] = front :: rest :=
      List.exists_cons_of_ne_nil (by simp)
    rw [pushed] at moved ⊢
    have whole : (ptr ::ₘ held) + s.owned = front ::ₘ (held + (rest + s.apart thread)) := by
      rw [← moved, ← Multiset.cons_coe, Multiset.cons_add, Multiset.add_cons]
    have distinct := valid.distinct
    rw [whole, Multiset.nodup_cons] at distinct
    have owned : Store.owned
        ({ s with cache := Function.update s.cache thread rest }.free front) =
          rest + s.apart thread :=
      owned_setCache s (Function.update s.heap front none) thread rest
    have kept : ∀ other ∈ held + (rest + s.apart thread),
        Function.update s.heap front none other = s.heap other := by
      intro other member
      refine Function.update_of_ne ?_ _ _
      rintro rfl
      exact distinct.1 member
    simp only [List.tail_cons, List.headD_cons]
    refine ⟨⟨?_, ?_⟩, ?_⟩
    · rw [owned]
      exact distinct.2
    · intro other member
      rw [owned] at member
      change (Function.update s.heap front none other).isSome
      rw [kept other member]
      exact valid.live other (whole ▸ Multiset.mem_cons_of_mem member)
    · intro other member
      rw [owned] at member
      exact kept other member
  · have owned : Store.owned
        { s with cache := Function.update s.cache thread (s.cache thread ++ [ptr]) } =
          (s.cache thread ++ [ptr] : List Nat) + s.apart thread :=
      owned_setCache s s.heap thread _
    exact ⟨valid.of_owned (by rw [owned, moved]) rfl, fun _ _ => rfl⟩

theorem insertSecondary_heap [DecidableEq S] (debug : Bool) (s : Store K S R n)
    (key : S) (ptr : Nat) :
    (insertSecondary debug s key ptr).heap = s.heap := by
  unfold insertSecondary
  split <;> rfl

theorem insertSecondary_primary [DecidableEq S] (debug : Bool) (s : Store K S R n)
    (key : S) (ptr : Nat) :
    (insertSecondary debug s key ptr).primary = s.primary := by
  unfold insertSecondary
  split <;> rfl

theorem insertSecondary_owned [DecidableEq S] (debug : Bool) (s : Store K S R n)
    (key : S) (ptr : Nat) :
    (insertSecondary debug s key ptr).owned = s.owned := by
  unfold insertSecondary
  split <;> rfl

theorem Valid.insertSecondary [DecidableEq S] (valid : Valid held s) (debug : Bool) (key : S)
    (ptr : Nat) :
    Valid held (insertSecondary debug s key ptr) :=
  valid.of_owned (by rw [insertSecondary_owned]) (insertSecondary_heap debug s key ptr)

theorem Valid.place {key : K} {ptr : Nat} (valid : Valid (ptr ::ₘ held) s)
    (absent : s.primary.get? key = none) :
    Valid held { s with primary := s.primary.insert key ptr } := by
  have moved : held + owned { s with primary := s.primary.insert key ptr } =
      (ptr ::ₘ held) + s.owned := by
    rw [owned_insert_new s ptr absent, Multiset.add_cons, Multiset.cons_add]
  exact valid.of_owned moved rfl

theorem Valid.exchange {key : K} {ptr old : Nat} (valid : Valid (ptr ::ₘ held) s)
    (present : s.primary.get? key = some old) :
    Valid (old ::ₘ held) { s with primary := s.primary.insert key ptr } := by
  have moved : (old ::ₘ held) + owned { s with primary := s.primary.insert key ptr } =
      (ptr ::ₘ held) + s.owned := by
    rw [Multiset.cons_add, ← Multiset.add_cons, owned_insert s ptr present, Multiset.add_cons,
      Multiset.cons_add]
  exact valid.of_owned moved rfl

theorem Valid.take {key : K} {old : Nat} (valid : Valid held s)
    (present : s.primary.get? key = some old) :
    Valid (old ::ₘ held) { s with primary := s.primary.erase key } := by
  have moved : (old ::ₘ held) + owned { s with primary := s.primary.erase key } =
      held + s.owned := by
    rw [Multiset.cons_add, ← Multiset.add_cons, owned_erase s present]
  exact valid.of_owned moved rfl

theorem Valid.free {ptr : Nat} (valid : Valid (ptr ::ₘ held) s) : Valid held (s.free ptr) := by
  refine ⟨(valid.mono (Multiset.le_cons_self _ _)).distinct, fun other member => ?_⟩
  have different : other ≠ ptr := by
    rintro rfl
    exact valid.not_owned member
  change (Function.update s.heap ptr none other).isSome
  rw [Function.update_of_ne different]
  exact (valid.mono (Multiset.le_cons_self _ _)).live other member

end Effects

end Store

end Ownership

end TpccRunner.Naive
