import Mathlib
import TpccRunner.Tpcc.Invariant

/-!
# The stock under sequences of new orders

A committed new order does to every stock row what its lines say, one after the other, also
when several of them name the same stock.  `Books` is what `s_quantity`, `s_ytd` and
`s_order_cnt` should say after the committed lines.  A line that asks for exactly ten less
than there is takes the quantity to 101, since `modify_stock` then refills although ten
would be left; the residue modulo 91 of what is left tells these lines from the others.
-/

set_option autoImplicit false

namespace TpccRunner.Tpcc

open Lib Naive Tx

/-! ## Lines and books -/

def NewOrderItem.stockKey (item : NewOrderItem) : Nat :=
  StockKey.createKey item.olSupplyWId item.olIId

def NewOrderInput.lines (input : NewOrderInput) : List NewOrderItem :=
  (ids input.olCnt).map fun olNum => input.items (olNum - 1)

def linesOf (key : Nat) (lines : List NewOrderItem) : List NewOrderItem :=
  lines.filter fun item => item.stockKey = key

def totalQuantity (lines : List NewOrderItem) : Nat := (lines.map NewOrderItem.olQuantity).sum

def orderedStock (isRemote : Bool) (s : Stock) (lines : List NewOrderItem) : Stock :=
  lines.foldl (fun s item => modifyStock s item.olQuantity isRemote) s

/-- The stock after the given committed lines, if it was loaded as `loaded`. -/
structure Books (loaded s : Stock) (lines : List NewOrderItem) : Prop where
  range : 10 ≤ s.sQuantity ∧ s.sQuantity ≤ 100
  ytd : s.sYtd = totalQuantity lines
  orderCnt : s.sOrderCnt = lines.length
  residue : s.sQuantity ≡ loaded.sQuantity - s.sYtd [ZMOD 91]

/-- A stock as `Stock::generate` leaves it. -/
structure Stock.Loaded (s : Stock) : Prop where
  quantity : 10 ≤ s.sQuantity ∧ s.sQuantity ≤ 100
  ytd : s.sYtd = 0
  orderCnt : s.sOrderCnt = 0

theorem Stock.Loaded.books {s : Stock} (loaded : s.Loaded) : Books s s [] :=
  ⟨loaded.quantity, loaded.ytd, loaded.orderCnt, by simp [loaded.ytd]⟩

theorem totalQuantity_append (lines more : List NewOrderItem) :
    totalQuantity (lines ++ more) = totalQuantity lines + totalQuantity more := by
  simp [totalQuantity]

theorem linesOf_append (key : Nat) (lines more : List NewOrderItem) :
    linesOf key (lines ++ more) = linesOf key lines ++ linesOf key more :=
  List.filter_append _ _

theorem linesOf_singleton (key : Nat) (item : NewOrderItem) :
    linesOf key [item] = if item.stockKey = key then [item] else [] := by
  unfold linesOf
  by_cases same : item.stockKey = key
  · rw [List.filter_cons_of_pos (by simpa using same), if_pos same, List.filter_nil]
  · rw [List.filter_cons_of_neg (by simpa using same), if_neg same, List.filter_nil]

theorem orderedStock_append (isRemote : Bool) (s : Stock) (lines : List NewOrderItem)
    (item : NewOrderItem) :
    orderedStock isRemote s (lines ++ [item]) =
      modifyStock (orderedStock isRemote s lines) item.olQuantity isRemote := by
  simp [orderedStock]

/-- A stock within its range stays far from the bounds of an `int16_t`. -/
theorem modifyStock_quantity {s : Stock} {olQuantity : Nat} (isRemote : Bool)
    (range : 10 ≤ s.sQuantity ∧ s.sQuantity ≤ 100) (few : olQuantity ≤ 10) :
    (modifyStock s olQuantity isRemote).sQuantity =
      if s.sQuantity > olQuantity + 10 then s.sQuantity - olQuantity
      else s.sQuantity - olQuantity + 91 :=
  Int.bmod_eq_of_le (by split <;> omega) (by split <;> omega)

theorem Books.line {loaded s : Stock} {lines : List NewOrderItem} (books : Books loaded s lines)
    (item : NewOrderItem) (isRemote : Bool)
    (quantity : 1 ≤ item.olQuantity ∧ item.olQuantity ≤ 10)
    (notTen : (s.sQuantity - item.olQuantity) % 91 ≠ 10)
    (ytdFits : s.sYtd + item.olQuantity < 2 ^ 32) (countFits : s.sOrderCnt + 1 < 2 ^ 16) :
    Books loaded (modifyStock s item.olQuantity isRemote) (lines ++ [item]) := by
  have range := books.range
  have left := modifyStock_quantity isRemote range quantity.2
  have ytd : (modifyStock s item.olQuantity isRemote).sYtd = s.sYtd + item.olQuantity :=
    Nat.mod_eq_of_lt ytdFits
  refine ⟨?_, ?_, ?_, ?_⟩
  · rw [left]
    split <;> omega
  · rw [ytd, books.ytd, totalQuantity_append]
    simp [totalQuantity]
  · rw [show (modifyStock s item.olQuantity isRemote).sOrderCnt = s.sOrderCnt + 1 from
      Nat.mod_eq_of_lt countFits, books.orderCnt]
    simp
  · -- a refill adds the modulus
    have residue := books.residue
    rw [ytd, left]
    unfold Int.ModEq at residue ⊢
    push_cast
    split <;> omega

theorem Books.lines {loaded s : Stock} {before : List NewOrderItem} (books : Books loaded s before)
    (isRemote : Bool) (lines : List NewOrderItem)
    (quantity : ∀ item ∈ lines, 1 ≤ item.olQuantity ∧ item.olQuantity ≤ 10)
    (ordinary : ∀ earlier item later, lines = earlier ++ item :: later →
      (s.sQuantity - totalQuantity (earlier ++ [item])) % 91 ≠ 10 ∧
        s.sYtd + totalQuantity (earlier ++ [item]) < 2 ^ 32 ∧
        s.sOrderCnt + (earlier ++ [item]).length < 2 ^ 16) :
    Books loaded (orderedStock isRemote s lines) (before ++ lines) := by
  induction lines using List.reverseRecOn with
  | nil => simpa [orderedStock] using books
  | append_singleton earlier item ih =>
    have sofar := ih (fun other member => quantity other (by simp [member]))
      fun first other later split => ordinary first other (later ++ [item]) (by simp [split])
    obtain ⟨notTen, ytdFits, countFits⟩ := ordinary earlier item [] rfl
    rw [totalQuantity_append] at notTen ytdFits
    have single : totalQuantity [item] = item.olQuantity := by simp [totalQuantity]
    rw [single] at notTen ytdFits
    have ytd := sofar.ytd
    have start := books.ytd
    have count := sofar.orderCnt
    have startCount := books.orderCnt
    have residue := sofar.residue
    have startResidue := books.residue
    unfold Int.ModEq at residue startResidue
    rw [totalQuantity_append] at ytd
    simp only [List.length_append, List.length_singleton] at count countFits
    rw [orderedStock_append, ← List.append_assoc]
    refine sofar.line item isRemote (quantity item (by simp)) ?_ (by omega) (by omega)
    push_cast at notTen
    omega

/-! ## What a new order does to the stock -/

section Transaction
variable {start : Database} {aborts : List Bool} {input : NewOrderInput}

def Restored (start : Database) : Exit → World → Prop
  | .status .systemAbort, w => w.db = start
  | .status .userAbort, w => w.db.clearAll = start
  | _, _ => True

theorem restored_of_stopped {α : Type} {pre : World → Prop} {m : Tx α} {post : α → World → Prop}
    (triple : Triple pre m post (Stopped start aborts False)) :
    Triple pre m post (Restored start) := by
  refine triple.conseq (fun _ holds => holds) (fun _ _ holds => holds) fun code w stopped => ?_
  match code with
  | .status .systemAbort => exact stopped.1
  | .status .userAbort => exact stopped.1
  | .status .success | .status .bug | .exception _ => trivial

def stockLogs (start : Database) (isRemote : Bool) (done : List NewOrderItem) (key : Nat) :
    Option (Log Stock) :=
  if linesOf key done = [] then none
  else (start.rows .stock key).map fun s =>
    { lt := .update, record := orderedStock isRemote s (linesOf key done) }

def Stocked (start : Database) (aborts : List Bool) (isRemote : Bool) (done : List NewOrderItem)
    (w : World) : Prop :=
  ∃ logs, logs .stock = stockLogs start isRemote done ∧ Running start aborts logs w

theorem running_replace {logs : Logs} {id : TableId} {w : World}
    {table : Relation Nat (RecordOf id)} (running : Running start aborts logs w)
    (rows : table.rows = (w.db.tables id).rows) :
    Running start aborts (Function.update logs id table.ws.get?)
      { w with db := w.db.set id table } :=
  running.set rows (fun _ => by simp) fun _ different => by simp [different]

variable {isRemote : Bool} {done : List NewOrderItem} {id : TableId} {key : Nat}

theorem Stocked.replace {w : World} {table : Relation Nat (RecordOf id)}
    (stocked : Stocked start aborts isRemote done w) (different : id ≠ .stock)
    (rows : table.rows = (w.db.tables id).rows) :
    Stocked start aborts isRemote done { w with db := w.db.set id table } := by
  obtain ⟨logs, stock, running⟩ := stocked
  exact ⟨_, by simp [different.symm, stock], running_replace running rows⟩

theorem applyUpdateToWriteset_rows {K R : Type} [LinearOrder K] {r after : Relation K R} {key : K}
    {record : R} (called : r.applyUpdateToWriteset key = .ok (after, record)) :
    after.rows = r.rows := by
  unfold Relation.applyUpdateToWriteset at called
  split at called
  · split at called
    · cases called
      rfl
    · cases called
      rfl
    · cases called
  · split at called
    · cases called
    · cases called
      rfl

theorem applyInsertToWriteset_rows {K R : Type} [LinearOrder K] [Inhabited R]
    {r after : Relation K R} {key : K} (called : r.applyInsertToWriteset key = .ok after) :
    after.rows = r.rows := by
  unfold Relation.applyInsertToWriteset at called
  split at called
  · split at called
    · cases called
    · cases called
    · cases called
      rfl
  · cases called
    rfl

theorem prepareUpdate_stocked (different : id ≠ .stock) :
    Triple (Stocked start aborts isRemote done) (prepareRecordForUpdate id key)
      (fun _ => Stocked start aborts isRemote done) (Restored start) :=
  prepareRecordForUpdate_rule
    (fun _ _ _ stocked called => stocked.replace different (applyUpdateToWriteset_rows called))
    fun _ _ _ _ => trivial

theorem prepareInsert_stocked (different : id ≠ .stock) :
    Triple (Stocked start aborts isRemote done) (prepareRecordForInsert id key)
      (fun _ => Stocked start aborts isRemote done) (Restored start) := by
  intro w stocked
  simp only [prepareRecordForInsert, Program.result_bind, Program.result_get]
  cases called : (w.db.tables id).applyInsertToWriteset key with
  | error message => trivial
  | ok table => exact stocked.replace different (applyInsertToWriteset_rows called)

theorem write_stocked (different : id ≠ .stock) (record : RecordOf id) :
    Triple (Stocked start aborts isRemote done) (write id key record)
      (fun _ => Stocked start aborts isRemote done) (Restored start) :=
  fun _ stocked => stocked.replace different (Relation.write_rows _ _ _)

theorem orKill_stocked (clean : start.Clean) :
    Triple (Stocked start aborts isRemote done) (orKill .success)
      (fun _ => Stocked start aborts isRemote done) (Restored start) :=
  Triple.of_exists fun logs => Triple.of_fact fun stock =>
    (restored_of_stopped (orKill_spec clean)).conseq (fun _ running => running)
      (fun _ _ running => ⟨logs, stock, running⟩) fun _ _ restored => restored

theorem getTimestamp_stocked :
    Triple (Stocked start aborts isRemote done) getTimestamp
      (fun _ => Stocked start aborts isRemote done) (Restored start) :=
  Triple.of_exists fun logs => Triple.of_fact fun stock =>
    (restored_of_stopped getTimestamp_spec).conseq (fun _ running => running)
      (fun _ _ running => ⟨logs, stock, running⟩) fun _ _ restored => restored

theorem getRecord_stocked (clean : start.Clean) :
    Triple (Stocked start aborts isRemote done) (getRecord id key)
      (fun _ => Stocked start aborts isRemote done) (Restored start) := by
  refine Triple.bind_get fun w stocked => ?_
  cases w.db.rows id key with
  | some record =>
    refine ((orKill_stocked clean).pre_of fun _ same => same ▸ stocked).bind fun _ => ?_
    exact Triple.pure fun _ stocked => stocked
  | none => exact fun _ _ => trivial

theorem stockLogs_line (item : NewOrderItem) {s : Stock}
    (row : start.rows .stock item.stockKey = some s) (logs : Logs)
    (stock : logs .stock = stockLogs start isRemote done) :
    (logs.set .stock item.stockKey
      { lt := .update
        record := modifyStock (orderedStock isRemote s (linesOf item.stockKey done))
          item.olQuantity isRemote }) .stock =
      stockLogs start isRemote (done ++ [item]) := by
  funext key
  rw [Logs.set_key, stock]
  unfold stockLogs
  rw [linesOf_append, linesOf_singleton]
  by_cases same : key = item.stockKey
  · subst same
    simp [row, orderedStock_append]
  · simp [same, Ne.symm same]

theorem newOrderLine_stocked (clean : start.Clean) (oId olNum : Nat) :
    Triple (Stocked start aborts input.isRemote done) (newOrderLine input oId olNum)
      (fun _ => Stocked start aborts input.isRemote (done ++ [input.items (olNum - 1)]))
      (Restored start) := by
  unfold newOrderLine
  generalize input.items (olNum - 1) = item
  by_cases unused : item.olIId = unusedItemId
  · simp only [unused, if_true]
    rintro w ⟨logs, -, running⟩
    exact running.clearAll clean
  · simp only [unused, if_false]
    refine (getRecord_stocked clean).bind fun i => ?_
    refine Triple.of_exists fun logs => Triple.of_fact fun stock => ?_
    -- without a row the call throws
    cases row : start.rows .stock item.stockKey with
    | none =>
      rintro w running
      have logged := running.logs .stock item.stockKey
      have stored : (w.db.tables .stock).rows.get? item.stockKey = none := by
        rw [running.rows]
        exact row
      have absent : (w.db.tables .stock).ws.get? item.stockKey = none := by
        rw [logged, stock]
        simp [stockLogs, row]
      have thrown : (w.db.tables .stock).applyUpdateToWriteset item.stockKey =
          .error "No record to update in db" := by
        simp [Relation.applyUpdateToWriteset, absent, stored]
      simp only [Program.result_bind, prepareRecordForUpdate, Program.result_get]
      rw [show StockKey.createKey item.olSupplyWId item.olIId = item.stockKey from rfl, thrown]
      trivial
    | some s =>
      have latest : Latest start logs .stock item.stockKey
          (orderedStock input.isRemote s (linesOf item.stockKey done)) := by
        unfold Latest
        rw [stock]
        by_cases first : linesOf item.stockKey done = []
        · exact .inr ⟨by simp [stockLogs, first], by rw [row, first]; rfl⟩
        · exact .inl (by simp [stockLogs, first, row])
      refine (restored_of_stopped (prepareRecordForUpdate_spec latest)).bind fun found =>
        Triple.of_fact fun same => ?_
      subst same
      refine (restored_of_stopped (orKill_spec clean)).bind fun _ => ?_
      refine (restored_of_stopped (write_again _)).bind fun _ => ?_
      refine ((orKill_stocked clean).pre_of fun _ running =>
        ⟨_, stockLogs_line item row logs stock, running⟩).bind fun _ => ?_
      refine (prepareInsert_stocked (by decide)).bind fun _ => ?_
      refine (orKill_stocked clean).bind fun _ => ?_
      refine (write_stocked (by decide) _).bind fun _ => ?_
      exact orKill_stocked clean

theorem newOrderLines_stocked (clean : start.Clean) (oId : Nat) :
    Triple (Stocked start aborts input.isRemote [])
      ((ids input.olCnt).forM (newOrderLine input oId))
      (fun _ => Stocked start aborts input.isRemote input.lines) (Restored start) := by
  refine Triple.forM (fun done _ => Stocked start aborts input.isRemote
    (done.map fun olNum => input.items (olNum - 1))) ?_
  intro done olNum rest _
  rw [List.map_append]
  exact newOrderLine_stocked clean oId olNum

theorem newOrderTx_stock (clean : start.Clean) (input : NewOrderInput) :
    Triple (Running start aborts Logs.empty) (newOrderTx input)
      (fun _ w => w.db.Clean ∧ ∀ key, w.db.rows .stock key = (start.rows .stock key).map
        fun s => orderedStock input.isRemote s (linesOf key input.lines))
      (Restored start) := by
  have begun : ∀ w, Running start aborts Logs.empty w →
      Stocked start aborts input.isRemote [] w :=
    fun _ running => ⟨_, by funext key; simp [stockLogs, linesOf, Logs.empty], running⟩
  refine Triple.pre_of ?_ begun
  unfold newOrderTx
  refine (getRecord_stocked clean).bind fun _ => ?_
  refine (prepareUpdate_stocked (by decide)).bind fun d => ?_
  refine (orKill_stocked clean).bind fun _ => ?_
  refine (write_stocked (by decide) _).bind fun _ => ?_
  refine (orKill_stocked clean).bind fun _ => ?_
  refine (getRecord_stocked clean).bind fun _ => ?_
  refine (prepareInsert_stocked (by decide)).bind fun _ => ?_
  refine (orKill_stocked clean).bind fun _ => ?_
  refine (write_stocked (by decide) _).bind fun _ => ?_
  refine (orKill_stocked clean).bind fun _ => ?_
  refine (prepareInsert_stocked (by decide)).bind fun _ => ?_
  refine (orKill_stocked clean).bind fun _ => ?_
  refine getTimestamp_stocked.bind fun now => ?_
  refine (write_stocked (by decide) _).bind fun _ => ?_
  refine (orKill_stocked clean).bind fun _ => ?_
  refine (newOrderLines_stocked clean d.dNextOId).bind fun _ => ?_
  refine Triple.of_exists fun logs => Triple.of_fact fun stock => ?_
  refine (restored_of_stopped commit_spec).conseq (fun _ running => running)
    (fun _ w committed => ⟨committed.clean, fun key => ?_⟩) fun _ _ restored => restored
  rw [committed.rows, Logs.apply, stock]
  unfold stockLogs
  split
  · rename_i none'
    split at none'
    · rename_i noLines
      simp [noLines, orderedStock]
    · rw [Option.map_eq_none_iff.mp none']
      rfl
  · rename_i log some'
    split at some'
    · cases some'
    · obtain ⟨s, row, rfl⟩ := Option.map_eq_some_iff.mp some'
      simp [Log.effect, row]

end Transaction

/-! ## Sequences of new orders -/

structure Ledger where
  db : Database
  ordered : List NewOrderItem

/-- The input of the attempt with which `run_with_retry` commits, if it does. -/
def committedInput : List Attempt → Database → Option TxInput
  | [], _ => none
  | attempt :: rest, db =>
    match attempt.input.run.result (attempt.start db) with
    | (.ok (), _) => some attempt.input
    | (.error (.status .systemAbort), w) => committedInput rest w.db
    | _ => none

def TxInput.lines : TxInput → List NewOrderItem
  | .newOrder input => input.lines
  | _ => []

def Ledger.step (ledger : Ledger) (attempts : List Attempt) : Option Ledger :=
  (runWithRetry attempts ledger.db).map fun db =>
    { db := db
      ordered := ledger.ordered ++ ((committedInput attempts ledger.db).map TxInput.lines).getD [] }

def NewOrderInput.Quantities (input : NewOrderInput) : Prop :=
  ∀ item ∈ input.lines, 1 ≤ item.olQuantity ∧ item.olQuantity ≤ 10

instance (input : NewOrderInput) : Decidable input.Quantities :=
  inferInstanceAs (Decidable (∀ item ∈ input.lines, _))

/-- No line leaves exactly ten of its stock, counted from the rows before the order, and the
counters of the stock last. -/
def NewOrderInput.Ordinary (rows : Rows) (input : NewOrderInput) : Prop :=
  ∀ n < input.olCnt, ∀ s ∈ rows .stock (input.items n).stockKey,
    (s.sQuantity -
        totalQuantity (linesOf (input.items n).stockKey (input.lines.take (n + 1)))) % 91 ≠ 10 ∧
      s.sYtd + totalQuantity (linesOf (input.items n).stockKey (input.lines.take (n + 1))) <
        2 ^ 32 ∧
      s.sOrderCnt + (linesOf (input.items n).stockKey (input.lines.take (n + 1))).length < 2 ^ 16

instance (rows : Rows) (input : NewOrderInput) : Decidable (input.Ordinary rows) :=
  inferInstanceAs (Decidable (∀ n < input.olCnt,
    ∀ s ∈ rows .stock (input.items n).stockKey, _ ∧ _ ∧ _))

def TxInput.Orders : TxInput → Prop
  | .newOrder input => input.Quantities
  | _ => False

def TxInput.Ordinary (rows : Rows) : TxInput → Prop
  | .newOrder input => input.Ordinary rows
  | _ => True

def Ledger.Orders (_ : Ledger) (attempts : List Attempt) : Prop :=
  ∀ attempt ∈ attempts, attempt.input.Orders

def Ledger.OrdersOrdinary (ledger : Ledger) (attempts : List Attempt) : Prop :=
  ∀ attempt ∈ attempts, attempt.input.Orders ∧ attempt.input.Ordinary ledger.db.rows

theorem runWithRetry_stock {attempts : List Attempt} {db after : Database} (clean : db.Clean)
    (orders : ∀ attempt ∈ attempts, attempt.input.Orders)
    (completed : runWithRetry attempts db = some after) :
    (committedInput attempts db = none ∧ after = db) ∨
      ∃ attempt ∈ attempts, ∃ input, attempt.input = .newOrder input ∧
        committedInput attempts db = some (.newOrder input) ∧ after.Clean ∧
        ∀ key, after.rows .stock key = (db.rows .stock key).map
          fun s => orderedStock input.isRemote s (linesOf key input.lines) := by
  induction attempts with
  | nil => cases completed
  | cons attempt rest ih =>
    obtain ⟨input, isNewOrder⟩ : ∃ input, attempt.input = .newOrder input := by
      have ordersStock := orders attempt List.mem_cons_self
      cases isInput : attempt.input with
      | newOrder input => exact ⟨input, rfl⟩
      | payment | orderStatus | delivery | stockLevel =>
        rw [isInput] at ordersStock
        exact absurd ordersStock id
    have outcome := newOrderTx_stock clean input (attempt.start db) (Running.initial clean)
    rw [runWithRetry] at completed
    rw [committedInput]
    rw [isNewOrder, TxInput.run] at completed ⊢
    rcases result : (newOrderTx input).result (attempt.start db) with ⟨value, w⟩
    rw [result] at outcome completed
    cases value with
    | ok _ =>
      obtain ⟨-, same⟩ := Option.ite_some_none_eq_some.mp completed
      cases same
      exact .inr ⟨attempt, List.mem_cons_self, input, isNewOrder, rfl, outcome⟩
    | error code =>
      match code with
      | .exception _ | .status .success | .status .bug => cases completed
      | .status .userAbort =>
        obtain ⟨-, same⟩ := Option.ite_some_none_eq_some.mp completed
        cases same
        exact .inl ⟨rfl, outcome⟩
      | .status .systemAbort =>
        have same : w.db = db := outcome
        simp only [same] at completed ⊢
        obtain unchanged | ⟨other, member, rest⟩ :=
          ih (fun other member => orders other (List.mem_cons_of_mem _ member)) completed
        · exact .inl unchanged
        · exact .inr ⟨other, List.mem_cons_of_mem _ member, rest⟩

/-- The lines for a stock up to one of them are those among the first lines of the order. -/
theorem linesOf_split {key : Nat} {lines earlier later : List NewOrderItem} {item : NewOrderItem}
    (split : linesOf key lines = earlier ++ item :: later) :
    ∃ n, lines[n]? = some item ∧ item.stockKey = key ∧
      linesOf key (lines.take (n + 1)) = earlier ++ [item] := by
  obtain ⟨front, back, rfl, frontLines, backLines⟩ := List.filter_eq_append_iff.mp split
  obtain ⟨skipped, rest, rfl, none', keyed, -⟩ := List.filter_eq_cons_iff.mp backLines
  have same : item.stockKey = key := by simpa using keyed
  refine ⟨(front ++ skipped).length, ?_, same, ?_⟩
  · rw [← List.append_assoc]
    simp
  · rw [← List.append_assoc, List.take_append, List.take_of_length_le (by omega)]
    rw [Nat.add_sub_cancel_left, List.take_succ_cons, List.take_zero, linesOf_append,
      linesOf_append, linesOf_singleton, if_pos same]
    have empty : linesOf key skipped = [] := List.filter_eq_nil_iff.mpr none'
    rw [empty, List.append_nil]
    exact congrArg (· ++ [item]) frontLines

theorem lines_getElem? {input : NewOrderInput} {n : Nat} {item : NewOrderItem}
    (found : input.lines[n]? = some item) : n < input.olCnt ∧ item = input.items n := by
  unfold NewOrderInput.lines ids at found
  rw [List.getElem?_map, Option.map_eq_some_iff] at found
  obtain ⟨olNum, position, rfl⟩ := found
  obtain ⟨bound, value⟩ := List.getElem?_eq_some_iff.mp position
  simp only [List.length_range', List.getElem_range'] at bound value
  refine ⟨bound, congrArg input.items ?_⟩
  omega

theorem Books.order {loaded s : Stock} {key : Nat} {before : List NewOrderItem} {rows : Rows}
    {input : NewOrderInput} (books : Books loaded s before) (row : rows .stock key = some s)
    (quantities : input.Quantities) (ordinary : input.Ordinary rows) :
    Books loaded (orderedStock input.isRemote s (linesOf key input.lines))
      (before ++ linesOf key input.lines) := by
  refine books.lines input.isRemote _
    (fun item member => quantities item (List.mem_of_mem_filter member)) ?_
  intro earlier item later split
  obtain ⟨n, found, rfl, upTo⟩ := linesOf_split split
  obtain ⟨bound, rfl⟩ := lines_getElem? found
  have holds := ordinary n bound s row
  rw [upTo] at holds
  exact holds

def Ledger.InOrder (start : Database) (ledger : Ledger) : Prop :=
  ∀ key, Option.Rel (fun loaded s => Books loaded s (linesOf key ledger.ordered))
    (start.rows .stock key) (ledger.db.rows .stock key)

theorem Ledger.InOrder.step {start : Database} {ledger after : Ledger} {attempts : List Attempt}
    (inOrder : ledger.InOrder start) (clean : ledger.db.Clean)
    (ordinary : ledger.OrdersOrdinary attempts) (taken : ledger.step attempts = some after) :
    after.db.Clean ∧ after.InOrder start := by
  obtain ⟨db, completed, rfl⟩ := Option.map_eq_some_iff.mp taken
  obtain ⟨none', same⟩ | ⟨attempt, member, input, isNewOrder, committed, cleanAfter, rows⟩ :=
    runWithRetry_stock clean (fun attempt member => (ordinary attempt member).1) completed
  · subst same
    refine ⟨clean, fun key => ?_⟩
    simpa [none'] using inOrder key
  · obtain ⟨quantities, ordinary⟩ := ordinary attempt member
    rw [isNewOrder] at quantities ordinary
    refine ⟨cleanAfter, fun key => ?_⟩
    have related := inOrder key
    simp only [committed, Option.map_some, Option.getD_some, TxInput.lines, rows key,
      linesOf_append]
    cases loaded : start.rows .stock key with
    | none =>
      rw [loaded] at related
      cases row : ledger.db.rows .stock key with
      | none => exact .none
      | some s => simp [row] at related
    | some loadedStock =>
      rw [loaded] at related
      cases row : ledger.db.rows .stock key with
      | none => simp [row] at related
      | some s =>
        rw [row] at related
        exact .some ((Option.rel_some_some.mp related).order row quantities ordinary)

/-- In every sequence of new orders from loaded stock, no line of which leaves exactly ten of
its stock, the books of every stock row are in order. -/
theorem stock_inOrder {start : Database} {trace : List (List Attempt)} {final : Ledger}
    (clean : start.Clean) (loaded : ∀ key s, start.rows .stock key = some s → s.Loaded)
    (run : Run Ledger.step Ledger.OrdersOrdinary { db := start, ordered := [] } trace final) :
    final.InOrder start := by
  have kept : final.db.Clean ∧ final.InOrder start := by
    refine run.invariant (fun ledger => ledger.db.Clean ∧ ledger.InOrder start) ⟨clean, ?_⟩
      fun _ _ _ holds ordinary taken => holds.2.step holds.1 ordinary taken
    intro key
    cases row : start.rows .stock key with
    | none => exact .none
    | some s => exact .some (loaded key s row).books
  exact kept.2

/-! ## Two small databases -/

def smallScale : Scale :=
  { warehouses := 1, items := 2, customers := 1, orders := 1, delivered := 0 }

def onePieceCall : List Attempt :=
  [{ input := .newOrder smallOrder, aborts := [true], clock := 0 },
    { input := .newOrder smallOrder, aborts := [], clock := 0 }]

theorem stock_loaded {quantity : Int} (range : 10 ≤ quantity ∧ quantity ≤ 100) (key : Nat)
    (s : Stock) (row : (loadAllTables smallScale (drawsWith quantity)).rows .stock key = some s) :
    s.Loaded := by
  have member := OrderedMap.mem_of_get?_ofList row
  simp only [loadedRows, List.mem_flatMap, List.mem_map, Prod.mk.injEq] at member
  obtain ⟨w, -, i, -, -, rfl⟩ := member
  exact ⟨range, rfl, rfl⟩

theorem stock_inOrder_onePiece : ∃ final,
    Run Ledger.step Ledger.OrdersOrdinary
        { db := loadAllTables smallScale (drawsWith 50), ordered := [] } [onePieceCall] final ∧
      final.ordered.length = 5 ∧ final.InOrder (loadAllTables smallScale (drawsWith 50)) := by
  have reached : (Ledger.step { db := loadAllTables smallScale (drawsWith 50), ordered := [] }
      onePieceCall).map (fun ledger => ledger.ordered.length) = some 5 := by
    decide +kernel
  obtain ⟨final, taken, ordered⟩ := Option.map_eq_some_iff.mp reached
  have ordinary : Ledger.OrdersOrdinary
      { db := loadAllTables smallScale (drawsWith 50), ordered := [] } onePieceCall := by
    have holds : smallOrder.Quantities ∧
        smallOrder.Ordinary (loadAllTables smallScale (drawsWith 50)).rows := by
      decide +kernel
    intro attempt member
    simp only [onePieceCall, List.mem_cons, List.not_mem_nil, or_false] at member
    obtain rfl | rfl := member <;> exact holds
  have run := Run.single ordinary taken
  exact ⟨final, run, ordered,
    stock_inOrder ⟨fun _ => rfl, rfl⟩ (stock_loaded (by decide)) run⟩

/-- Fifteen pieces and five lines with one piece each: the last line finds eleven and leaves
101. -/
theorem stock_leaves_range : ∃ final,
    Run Ledger.step Ledger.Orders
        { db := loadAllTables smallScale (drawsWith 15), ordered := [] } [onePieceCall] final ∧
      (∀ key s, (loadAllTables smallScale (drawsWith 15)).rows .stock key = some s → s.Loaded) ∧
      (final.db.rows .stock (StockKey.createKey 1 2)).map Stock.sQuantity = some 101 := by
  have reached : (Ledger.step { db := loadAllTables smallScale (drawsWith 15), ordered := [] }
      onePieceCall).map (fun ledger =>
        (ledger.db.rows .stock (StockKey.createKey 1 2)).map Stock.sQuantity) =
      some (some 101) := by
    decide +kernel
  obtain ⟨final, taken, quantity⟩ := Option.map_eq_some_iff.mp reached
  have orders : Ledger.Orders
      { db := loadAllTables smallScale (drawsWith 15), ordered := [] } onePieceCall := by
    have holds : smallOrder.Quantities := by decide
    intro attempt member
    simp only [onePieceCall, List.mem_cons, List.not_mem_nil, or_false] at member
    obtain rfl | rfl := member <;> exact holds
  exact ⟨final, Run.single orders taken, stock_loaded (by decide), quantity⟩

end TpccRunner.Tpcc
