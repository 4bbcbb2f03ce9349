import Mathlib
import TpccRunner.Tpcc.Invariant

/-!
# What the transactions log

For every profile with a valid input on a consistent database: what it has logged when it
commits, and that it ends early only by an injected abort or, for a new order with an unused
item, by an abort of the user.  In particular no call fails and none throws.
-/

set_option autoImplicit false

namespace TpccRunner.Tpcc

open Lib Naive Tx

/-! ## Valid inputs -/

structure NewOrderInput.Valid (scale : Scale) (input : NewOrderInput) : Prop where
  district : InDistrict scale input.wId input.dId
  customer : 1 ≤ input.cId ∧ input.cId ≤ scale.customers
  olCnt : 5 ≤ input.olCnt ∧ input.olCnt ≤ 15
  item : ∀ i < input.olCnt, 1 ≤ (input.items i).olIId ∧ (input.items i).olIId ≤ scale.items
  supply : ∀ i < input.olCnt,
    1 ≤ (input.items i).olSupplyWId ∧ (input.items i).olSupplyWId ≤ scale.warehouses
  quantity : ∀ i < input.olCnt, 1 ≤ (input.items i).olQuantity ∧ (input.items i).olQuantity ≤ 10

/-- A customer that is given by its id, or by a last name that some customer has. -/
def ValidCustomer (scale : Scale) (rows : Rows) (w d c : Nat) (byLastName : Bool) (cLast : CStr)
    (chosen : Nat) : Prop :=
  if byLastName then
    ∃ r, rows .customer (CustomerKey.createKey w d chosen) = some r ∧
      r.secondaryKey = CustomerSecondaryKey.createKey w d cLast
  else 1 ≤ c ∧ c ≤ scale.customers

structure PaymentInput.Valid (scale : Scale) (rows : Rows) (input : PaymentInput) : Prop where
  district : InDistrict scale input.wId input.dId
  customerDistrict : InDistrict scale input.cWId input.cDId
  customer : ValidCustomer scale rows input.cWId input.cDId input.cId input.byLastName input.cLast
    input.chosen

structure DeliveryInput.Valid (scale : Scale) (input : DeliveryInput) : Prop where
  warehouse : 1 ≤ input.wId ∧ input.wId ≤ scale.warehouses

structure OrderStatusInput.Valid (scale : Scale) (rows : Rows) (input : OrderStatusInput) :
    Prop where
  district : InDistrict scale input.wId input.dId
  customer : ValidCustomer scale rows input.wId input.dId input.cId input.byLastName input.cLast
    input.chosen

def StockLevelInput.Valid (scale : Scale) (input : StockLevelInput) : Prop :=
  InDistrict scale input.wId input.dId

/-- An abort of the user: a new order names the unused item. -/
def NewOrderInput.Unused (input : NewOrderInput) : Prop :=
  ∃ i < input.olCnt, (input.items i).olIId = unusedItemId

theorem ids_split {count item : Nat} {done rest : List Nat}
    (split : ids count = done ++ item :: rest) :
    item = done.length + 1 ∧ item ≤ count := by
  have position : (ids count)[done.length]? = some item := by simp [split]
  obtain ⟨bound, value⟩ := List.getElem?_eq_some_iff.mp position
  simp only [ids, List.length_range', List.getElem_range'] at bound value
  omega

theorem mem_ids {count item : Nat} : item ∈ ids count ↔ 1 ≤ item ∧ item ≤ count := by
  simp [ids, List.mem_range'_1]
  omega

variable {scale : Scale} {start : Database} {aborts : List Bool} {user : Prop}

theorem Updates.latest {logs : Logs} {id : TableId} {key : Nat} {row : RecordOf id}
    (updates : Updates start.rows logs id) (present : start.rows id key = some row) :
    ∃ record, Latest start logs id key record ∧ Keeps id row record := by
  cases logged : logs id key with
  | none => exact ⟨row, .inr ⟨logged, present⟩, Keeps.refl id row⟩
  | some log =>
    obtain ⟨isUpdate, old, oldPresent, keeps⟩ := updates key log logged
    cases Option.some.inj (present.symm.trans oldPresent)
    obtain ⟨lt, record⟩ := log
    cases isUpdate
    exact ⟨record, .inl logged, keeps⟩

theorem Updates.of_none {rows : Rows} {logs : Logs} {id : TableId}
    (none' : logs id = fun _ => none) : Updates rows logs id := by
  intro key log logged
  simp [none'] at logged

/-! ## NewOrder -/

section NewOrder
variable (input : NewOrderInput) (d : District)

/-- The write set of a new order whose first `count` lines have been added. -/
structure NewOrderLogs (scale : Scale) (rows : Rows) (count : Nat) (logs : Logs) : Prop where
  quiet : ∀ id, id = .item ∨ id = .warehouse ∨ id = .customer → logs id = fun _ => none
  stock : Updates rows logs .stock
  district : logs .district = fun key =>
    if key = DistrictKey.createKey input.wId input.dId then
      some { lt := .update, record := { d with dNextOId := (d.dNextOId + 1) % 2 ^ 32 } }
    else none
  newOrder : logs .newOrder = fun key =>
    if key = NewOrderKey.createKey input.wId input.dId d.dNextOId then
      some { lt := .insert, record := createNeworder input.wId input.dId d.dNextOId }
    else none
  order : ∃ now, logs .order = fun key =>
    if key = OrderKey.createKey input.wId input.dId d.dNextOId then
      some { lt := .insert
             record := createOrder input.wId input.dId input.cId d.dNextOId input.olCnt
               input.isRemote now }
    else none
  line : ∀ key log, logs .orderLine key = some log → log.lt = .insert ∧ ∃ n item olAmount,
    1 ≤ n ∧ n ≤ count ∧ key = OrderLineKey.createKey input.wId input.dId d.dNextOId n ∧
      log.record = createOrderline input.wId input.dId d.dNextOId n item olAmount ∧
        1 ≤ item.olIId ∧ item.olIId ≤ scale.items
  lines : ∀ n, 1 ≤ n → n ≤ count →
    (logs .orderLine (OrderLineKey.createKey input.wId input.dId d.dNextOId n)).isSome

variable {input d}

theorem NewOrderLogs.addLine {count : Nat} {rows : Rows} {logs : Logs} {item : NewOrderItem}
    {sKey : Nat} {stock : Stock} (logged : NewOrderLogs input d scale rows count logs)
    (validItem : 1 ≤ item.olIId ∧ item.olIId ≤ scale.items)
    (stockRow : rows .stock sKey = some stock) (newStock : Stock) (olAmount : ℚ) :
    NewOrderLogs input d scale rows (count + 1)
      ((logs.set .stock sKey { lt := .update, record := newStock }).set .orderLine
        (OrderLineKey.createKey input.wId input.dId d.dNextOId (count + 1))
        { lt := .insert
          record := createOrderline input.wId input.dId d.dNextOId (count + 1) item
            olAmount }) := by
  refine ⟨?_, ?_, ?_, ?_, ?_, ?_, ?_⟩
  · intro id quiet
    obtain rfl | rfl | rfl := quiet <;> simp [logged.quiet]
  · intro key log present
    rw [Logs.set_table_of_ne (by decide), Logs.set_key] at present
    split at present
    · rename_i same
      cases present
      exact ⟨rfl, stock, same ▸ stockRow, trivial⟩
    · exact logged.stock key log present
  · simp [logged.district]
  · simp [logged.newOrder]
  · obtain ⟨now, order⟩ := logged.order
    exact ⟨now, by simp [order]⟩
  · intro key log present
    rw [Logs.set_key] at present
    split at present
    · rename_i same
      cases present
      exact ⟨rfl, count + 1, item, olAmount, by omega, le_refl _, same, rfl, validItem⟩
    · rw [Logs.set_table_of_ne (by decide)] at present
      obtain ⟨isInsert, n, item, olAmount, positive, below, rest⟩ := logged.line key log present
      exact ⟨isInsert, n, item, olAmount, positive, by omega, rest⟩
  · intro n positive below
    rw [Logs.set_key]
    split
    · rfl
    · rename_i different
      rw [Logs.set_table_of_ne (by decide)]
      refine logged.lines n positive ?_
      by_contra beyond
      exact different (by rw [show n = count + 1 by omega])

theorem newOrderLine_spec {count : Nat} (clean : start.Clean) (base : Population scale start.rows)
    (valid : scale.Valid) (validInput : input.Valid scale) (bound : d.dNextOId < 2 ^ 32)
    (turn : count + 1 ≤ input.olCnt) :
    Triple (fun w => ∃ logs, NewOrderLogs input d scale start.rows count logs ∧
        Running start aborts logs w)
      (newOrderLine input d.dNextOId (count + 1))
      (fun _ w => ∃ logs, NewOrderLogs input d scale start.rows (count + 1) logs ∧
        Running start aborts logs w)
      (Stopped start aborts input.Unused) := by
  refine Triple.of_exists fun logs => Triple.of_fact fun logged => ?_
  have inRange : count < input.olCnt := turn
  have validItem := validInput.item count inRange
  unfold newOrderLine
  simp only [Nat.add_sub_cancel]
  obtain ⟨item, itemRow⟩ := base.item _ validItem
  obtain ⟨stock, stockRow⟩ := base.stock _ _ (validInput.supply count inRange) validItem
  obtain ⟨current, latest, -⟩ := logged.stock.latest stockRow
  by_cases unused : (input.items count).olIId = unusedItemId
  · simp only [unused, if_true]
    exact Triple.throw fun w running => ⟨running.clearAll clean, count, inRange, unused⟩
  · simp only [unused, if_false]
    refine (getRecord_spec clean itemRow).bind fun i => Triple.of_fact fun _ => ?_
    refine (prepareRecordForUpdate_spec latest).bind fun s => Triple.of_fact fun same => ?_
    subst same
    refine (orKill_spec clean).bind fun _ => ?_
    refine (write_again _).bind fun _ => ?_
    refine (orKill_spec clean).bind fun _ => ?_
    refine (prepareRecordForInsert_spec ?_).bind fun _ => ?_
    · -- the numbers of the lines so far are smaller
      rw [Logs.set_table_of_ne (by decide)]
      by_contra present
      obtain ⟨log, present⟩ := Option.ne_none_iff_exists'.mp present
      obtain ⟨-, n, -, -, -, below, sameKey, -⟩ := logged.line _ _ present
      have bounds := validInput.district.bounds valid
      have few := validInput.olCnt.2
      have same := (OrderLineKey.createKey_inj bounds.1 bounds.2 bound (by omega) bounds.1 bounds.2
        bound (by omega)).mp sameKey
      omega
    · refine (orKill_spec clean).bind fun _ => ?_
      refine (write_again _).bind fun _ => ?_
      refine (orKill_spec clean).conseq (fun _ running => running) (fun _ w running => ?_)
        fun _ _ stopped => stopped
      exact ⟨_, logged.addLine validItem stockRow _ _, running⟩

theorem newOrderLines_spec (clean : start.Clean) (base : Population scale start.rows)
    (valid : scale.Valid) (validInput : input.Valid scale) (bound : d.dNextOId < 2 ^ 32) :
    Triple (fun w => ∃ logs, NewOrderLogs input d scale start.rows 0 logs ∧
        Running start aborts logs w)
      ((ids input.olCnt).forM (newOrderLine input d.dNextOId))
      (fun _ w => ∃ logs, NewOrderLogs input d scale start.rows input.olCnt logs ∧
        Running start aborts logs w)
      (Stopped start aborts input.Unused) := by
  refine Triple.conseq (Triple.forM (fun done _ w => ∃ logs,
    NewOrderLogs input d scale start.rows done.length logs ∧ Running start aborts logs w) ?_)
    (fun _ running => running) (fun _ w running => ?_) fun _ _ stopped => stopped
  · intro done olNum rest split
    obtain ⟨position, inRange⟩ := ids_split split
    subst position
    rw [List.length_append, List.length_singleton]
    exact newOrderLine_spec clean base valid validInput bound inRange
  · simpa [ids] using running

theorem newOrderTx_spec (clean : start.Clean) (base : Population scale start.rows)
    (valid : scale.Valid) (validInput : input.Valid scale)
    (district : start.rows .district (DistrictKey.createKey input.wId input.dId) = some d) :
    Triple (Running start aborts Logs.empty) (newOrderTx input)
      (fun _ w => ∃ logs, NewOrderLogs input d scale start.rows input.olCnt logs ∧
        Committed start logs w)
      (Stopped start aborts input.Unused) := by
  obtain ⟨warehouse, warehouseRow⟩ := base.warehouse _ validInput.district.warehouse
  obtain ⟨customer, customerRow⟩ :=
    base.customer _ _ _ validInput.district validInput.customer
  have bound : d.dNextOId < 2 ^ 32 := by
    have next := base.nextBound _ _ validInput.district
    simpa [nextOId, district] using next
  unfold newOrderTx
  refine (getRecord_spec clean warehouseRow).bind fun _ => Triple.of_fact fun _ => ?_
  refine (prepareRecordForUpdate_spec (.inr ⟨rfl, district⟩)).bind
    fun found => Triple.of_fact fun same => ?_
  subst same
  refine (orKill_spec clean).bind fun _ => ?_
  refine (write_again _).bind fun _ => ?_
  refine (orKill_spec clean).bind fun _ => ?_
  refine (getRecord_spec clean customerRow).bind fun _ => Triple.of_fact fun _ => ?_
  refine (prepareRecordForInsert_spec (by simp [Logs.empty])).bind fun _ => ?_
  refine (orKill_spec clean).bind fun _ => ?_
  refine (write_again _).bind fun _ => ?_
  refine (orKill_spec clean).bind fun _ => ?_
  refine (prepareRecordForInsert_spec (by simp [Logs.empty])).bind fun _ => ?_
  refine (orKill_spec clean).bind fun _ => ?_
  refine getTimestamp_spec.bind fun now => ?_
  refine (write_again _).bind fun _ => ?_
  refine (orKill_spec clean).bind fun _ => ?_
  refine ((newOrderLines_spec clean base valid validInput bound).pre_of
    fun w running => ⟨_, ?_, running⟩).bind fun _ => Triple.of_exists fun logs =>
      Triple.of_fact fun logged => ?_
  · refine ⟨?_, ?_, ?_, ?_, ⟨now, ?_⟩, ?_, ?_⟩
    · intro id quiet
      obtain rfl | rfl | rfl := quiet <;> simp <;> rfl
    · exact Updates.of_none (by simp; rfl)
    · funext key
      simp [Logs.set_key, Logs.empty]
    · funext key
      simp [Logs.set_key, Logs.empty]
    · funext key
      simp [Logs.set_key, Logs.empty]
    · intro key log present
      simp [Logs.empty] at present
    · intro n positive below
      omega
  · exact commit_spec.conseq (fun _ running => running)
      (fun _ w committed => ⟨logs, logged, committed⟩) fun _ _ stopped => stopped

end NewOrder

/-! ## Payment -/

section Payment
variable {rows : Rows}

theorem getCustomerByLastName_spec {logs : Logs} {w d chosen : Nat} {cLast : CStr} {r : Customer}
    (present : start.rows .customer (CustomerKey.createKey w d chosen) = some r)
    (named : r.secondaryKey = CustomerSecondaryKey.createKey w d cLast) :
    Triple (Running start aborts logs) (getCustomerByLastName w d cLast chosen)
      (fun found world => found = r ∧ Running start aborts logs world)
      (Stopped start aborts user) := by
  intro world running
  have stored : world.db.rows .customer (CustomerKey.createKey w d chosen) = some r := by
    unfold Database.rows
    rw [running.rows]
    exact present
  simp only [getCustomerByLastName, Program.result_bind, Program.result_get, stored, named,
    if_true, Program.result_pure]
  exact ⟨trivial, running⟩

theorem paymentCustomerKey_spec {input : PaymentInput} {logs : Logs}
    (base : Base scale start.rows) (validInput : input.Valid scale start.rows) :
    Triple (Running start aborts logs) (paymentCustomerKey input)
      (fun key world => (∃ c, start.rows .customer key = some c) ∧
        Running start aborts logs world)
      (Stopped start aborts user) := by
  have validCustomer := validInput.customer
  unfold ValidCustomer at validCustomer
  unfold paymentCustomerKey
  cases byLastName : input.byLastName with
  | false =>
    simp only [byLastName, Bool.false_eq_true, if_false] at validCustomer ⊢
    have present := base.customer _ _ _ validInput.customerDistrict validCustomer
    exact Triple.pure fun _ running => ⟨present, running⟩
  | true =>
    simp only [byLastName, if_true] at validCustomer ⊢
    obtain ⟨c, present, named⟩ := validCustomer
    refine (getCustomerByLastName_spec present named).bind fun found =>
      Triple.of_fact fun same => Triple.pure fun _ running => ⟨⟨c, ?_⟩, running⟩
    subst same
    rw [← base.customerRow _ _ present]
    exact present

def paymentLogs (input : PaymentInput) (w : Warehouse) (d : District) (cKey : Nat)
    (c : Customer) : Logs :=
  ((Logs.empty.set .warehouse (WarehouseKey.createKey input.wId)
    { lt := .update, record := { w with wYtd := w.wYtd + input.hAmount } }).set .district
    (DistrictKey.createKey input.wId input.dId)
    { lt := .update, record := { d with dYtd := d.dYtd + input.hAmount } }).set .customer cKey
    { lt := .update, record := payCustomer c input }

theorem paymentTx_spec {input : PaymentInput} {w : Warehouse} {d : District}
    (clean : start.Clean) (base : Base scale start.rows)
    (validInput : input.Valid scale start.rows)
    (warehouse : start.rows .warehouse (WarehouseKey.createKey input.wId) = some w)
    (district : start.rows .district (DistrictKey.createKey input.wId input.dId) = some d) :
    Triple (Running start aborts Logs.empty) (paymentTx input)
      (fun _ world => ∃ cKey c, start.rows .customer cKey = some c ∧
        Committed start (paymentLogs input w d cKey c) world)
      (Stopped start aborts user) := by
  unfold paymentTx
  refine (prepareRecordForUpdate_spec (.inr ⟨rfl, warehouse⟩)).bind
    fun found => Triple.of_fact fun same => ?_
  subst same
  refine (orKill_spec clean).bind fun _ => ?_
  refine (write_again _).bind fun _ => ?_
  refine (orKill_spec clean).bind fun _ => ?_
  refine (prepareRecordForUpdate_spec (.inr ⟨by simp [Logs.empty], district⟩)).bind
    fun found => Triple.of_fact fun same => ?_
  subst same
  refine (orKill_spec clean).bind fun _ => ?_
  refine (write_again _).bind fun _ => ?_
  refine (orKill_spec clean).bind fun _ => ?_
  refine (paymentCustomerKey_spec base validInput).bind fun cKey =>
    Triple.of_fact fun present => ?_
  obtain ⟨c, customer⟩ := present
  refine (prepareRecordForUpdate_spec (.inr ⟨by simp [Logs.empty], customer⟩)).bind
    fun found => Triple.of_fact fun same => ?_
  subst same
  refine (orKill_spec clean).bind fun _ => ?_
  refine (write_again _).bind fun _ => ?_
  refine (orKill_spec clean).bind fun _ => ?_
  refine (orKill_spec clean).bind fun _ => ?_
  refine getTimestamp_spec.bind fun now => ?_
  refine (insertHistory_spec _).bind fun _ => ?_
  refine (orKill_spec clean).bind fun _ => ?_
  exact commit_spec.conseq (fun _ running => running)
    (fun _ _ committed => ⟨cKey, _, customer, committed⟩) fun _ _ stopped => stopped

end Payment

/-! ## OrderStatus and StockLevel -/

section ReadOnly

theorem rangeQuery_spec {logs : Logs} (low up : Nat) :
    Triple (Running start aborts logs) (rangeQuery low up)
      (fun lines world =>
        (∀ ol ∈ lines, ∃ key, start.rows .orderLine key = some ol) ∧
          Running start aborts logs world)
      (Stopped start aborts user) := by
  intro world running
  simp only [rangeQuery, Program.result_bind, Program.result_get, Program.result_pure]
  rw [running.rows]
  refine ⟨?_, running⟩
  intro ol member
  obtain ⟨⟨key, row⟩, inRange, rfl⟩ := List.mem_map.mp member
  exact ⟨key, (OrderedMap.mem_range.mp inRange).1⟩

theorem orderStatusTx_spec {input : OrderStatusInput} (clean : start.Clean)
    (base : Base scale start.rows) (validInput : input.Valid scale start.rows) :
    Triple (Running start aborts Logs.empty) (orderStatusTx input)
      (fun _ => Committed start Logs.empty) (Stopped start aborts user) := by
  have validCustomer := validInput.customer
  unfold ValidCustomer at validCustomer
  unfold orderStatusTx
  have rest : Triple (Running start aborts Logs.empty)
      (do
        orKill .success
        let o := input.order
        let _ ← rangeQuery (OrderLineKey.createKey o.oWId o.oDId o.oId 1)
          (OrderLineKey.createKey o.oWId o.oDId (o.oId + 1) 1)
        orKill .success
        commit)
      (fun _ => Committed start Logs.empty) (Stopped start aborts user) := by
    refine (orKill_spec clean).bind fun _ => ?_
    refine (rangeQuery_spec _ _).bind fun _ => Triple.of_fact fun _ => ?_
    exact (orKill_spec clean).bind fun _ => commit_spec
  cases byLastName : input.byLastName with
  | false =>
    simp only [byLastName, Bool.false_eq_true, if_false] at validCustomer ⊢
    obtain ⟨c, present⟩ := base.customer _ _ _ validInput.district validCustomer
    exact (getRecord_spec clean present).bind fun _ => Triple.of_fact fun _ => rest
  | true =>
    simp only [byLastName, if_true] at validCustomer ⊢
    obtain ⟨c, present, named⟩ := validCustomer
    refine (getCustomerByLastName_spec present named).bind fun _ => Triple.of_fact fun _ => ?_
    exact (orKill_spec clean).bind fun _ => rest

theorem stockLevelTx_spec {input : StockLevelInput} (clean : start.Clean)
    (base : Base scale start.rows) (validInput : input.Valid scale) :
    Triple (Running start aborts Logs.empty) (stockLevelTx input)
      (fun _ => Committed start Logs.empty) (Stopped start aborts user) := by
  obtain ⟨d, district⟩ := base.district _ _ validInput
  unfold stockLevelTx
  refine (getRecord_spec clean district).bind fun _ => Triple.of_fact fun _ => ?_
  refine (rangeQuery_spec _ _).bind fun lines => Triple.of_fact fun read => ?_
  refine (orKill_spec clean).bind fun _ => ?_
  refine Triple.bind ?_ fun _ => commit_spec
  refine Triple.forM_keeps fun iId member => ?_
  simp only [List.mem_insertionSort, List.mem_dedup, List.mem_filter, List.mem_map] at member
  obtain ⟨⟨ol, inLines, rfl⟩, -⟩ := member
  obtain ⟨key, present⟩ := read ol inLines
  obtain ⟨s, stock⟩ := base.stock _ _ validInput.warehouse (base.lineRow key ol present).item
  exact (getRecord_spec clean stock).bind fun _ => Triple.of_fact fun _ =>
    Triple.pure fun _ running => running

end ReadOnly

end TpccRunner.Tpcc
