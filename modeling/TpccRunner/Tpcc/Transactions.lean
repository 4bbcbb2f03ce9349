import Mathlib
import TpccRunner.Lib.StepSystem
import TpccRunner.Naive.Database

/-!
# The TPC-C transactions on the naive protocol

The loader, the five transaction profiles and `run_with_retry`.  What the code draws at
random is an input: the generated fields of the loaded records, the fields of a
transaction's `Input`, and the injected aborts.  What a transaction only writes to its
`Output` is not kept.

The secondary indexes may be stale, so that the lookups through them are inputs too: a
lookup by last name selects some existing customer of the name, and the order that
`get_order_by_customer_id` yields is any record.
-/

set_option autoImplicit false

namespace TpccRunner.Tpcc

open Lib Naive

/-! ## Loading -/

structure Scale where
  warehouses : Nat
  items : Nat
  customers : Nat
  orders : Nat
  /-- Orders above this id are undelivered. -/
  delivered : Nat

/-- The constants of `record_layout.hpp` and `initializer.hpp`. -/
def Scale.tpcc (warehouses : Nat) : Scale :=
  { warehouses := warehouses, items := 100000, customers := 3000, orders := 3000
    delivered := 2100 }

/-- `District::DISTS_PER_WARE`. -/
def distsPerWare : Nat := 10

/-- What the `generate` functions draw. -/
structure Generated where
  item : Nat → Item
  warehouse : Nat → Warehouse
  stock : Nat → Nat → Stock
  district : Nat → Nat → District
  customer : Nat → Nat → Nat → Customer
  history : List History
  /-- The permutation of the customers over the orders of a district. -/
  orderCustomer : Nat → Nat → Nat → Nat
  order : Nat → Nat → Nat → Order
  orderLine : Nat → Nat → Nat → Nat → OrderLine

structure Generated.Valid (scale : Scale) (g : Generated) : Prop where
  olCnt : ∀ w d o, 5 ≤ (g.order w d o).oOlCnt ∧ (g.order w d o).oOlCnt ≤ 15
  customer : ∀ w d o, 1 ≤ o ∧ o ≤ scale.orders →
    1 ≤ g.orderCustomer w d o ∧ g.orderCustomer w d o ≤ scale.customers
  item : ∀ w d o n, 1 ≤ (g.orderLine w d o n).olIId ∧ (g.orderLine w d o n).olIId ≤ scale.items

section Load
variable (scale : Scale) (g : Generated)

/-- `for (id = 1; id <= count; id++)`. -/
def ids (count : Nat) : List Nat := List.range' 1 count

def districtIds : List (Nat × Nat) :=
  (ids scale.warehouses).flatMap fun w => (ids distsPerWare).map fun d => (w, d)

def orderIds : List (Nat × Nat × Nat) :=
  (districtIds scale).flatMap fun (w, d) => (ids scale.orders).map fun o => (w, d, o)

def loadedItem (i : Nat) : Item := { g.item i with iId := i }

def loadedWarehouse (w : Nat) : Warehouse := { g.warehouse w with wId := w, wYtd := 300000 }

def loadedStock (w i : Nat) : Stock :=
  { g.stock w i with sWId := w, sIId := i, sYtd := 0, sOrderCnt := 0, sRemoteCnt := 0 }

/-- The source writes 3001, the successor of `Order::ORDS_PER_DIST`. -/
def loadedDistrict (w d : Nat) : District :=
  { g.district w d with dWId := w, dId := d, dNextOId := scale.orders + 1, dYtd := 30000 }

def loadedCustomer (w d c : Nat) : Customer :=
  { g.customer w d c with
    cWId := w, cDId := d, cId := c, cPaymentCnt := 1, cDeliveryCnt := 0, cBalance := -10
    cYtdPayment := 10 }

def loadedOrder (w d o : Nat) : Order :=
  { g.order w d o with oWId := w, oDId := d, oId := o, oCId := g.orderCustomer w d o }

def loadedNewOrder (w d o : Nat) : NewOrder := { noWId := w, noDId := d, noOId := o }

def loadedOrderLine (w d o n : Nat) : OrderLine :=
  { g.orderLine w d o n with olWId := w, olDId := d, olOId := o, olNumber := n, olQuantity := 5 }

def loadedRows : (id : TableId) → List (Nat × RecordOf id)
  | .item => (ids scale.items).map fun i => (ItemKey.createKey i, loadedItem g i)
  | .warehouse =>
    (ids scale.warehouses).map fun w => (WarehouseKey.createKey w, loadedWarehouse g w)
  | .stock => (ids scale.warehouses).flatMap fun w =>
    (ids scale.items).map fun i => (StockKey.createKey w i, loadedStock g w i)
  | .district => (districtIds scale).map fun (w, d) =>
    (DistrictKey.createKey w d, loadedDistrict scale g w d)
  | .customer => (districtIds scale).flatMap fun (w, d) =>
    (ids scale.customers).map fun c => (CustomerKey.createKey w d c, loadedCustomer g w d c)
  | .order => (orderIds scale).map fun (w, d, o) =>
    (OrderKey.createKey w d o, loadedOrder g w d o)
  | .newOrder => ((orderIds scale).filter fun (_, _, o) => o > scale.delivered).map
      fun (w, d, o) => (NewOrderKey.createKey w d o, loadedNewOrder w d o)
  | .orderLine => (orderIds scale).flatMap fun (w, d, o) =>
    (ids (g.order w d o).oOlCnt).map fun n =>
      (OrderLineKey.createKey w d o n, loadedOrderLine g w d o n)

def loadAllTables : Database :=
  { tables := fun id => { rows := .ofList (loadedRows scale g id), ws := .empty }
    history := g.history
    historyWs := [] }

end Load

/-! ## The profiles -/

open Tx

/-- `Item::UNUSED_ID`. -/
def unusedItemId : Nat := 1

structure NewOrderItem where
  olSupplyWId : Nat
  olIId : Nat
  olQuantity : Nat
  deriving Inhabited

structure NewOrderInput where
  wId : Nat
  dId : Nat
  cId : Nat
  olCnt : Nat
  isRemote : Bool
  items : Nat → NewOrderItem

def createNeworder (wId dId oId : Nat) : NewOrder := { noWId := wId, noDId := dId, noOId := oId }

def createOrder (wId dId cId oId olCnt : Nat) (isRemote : Bool) (now : Int) : Order :=
  { oWId := wId, oDId := dId, oId := oId, oCId := cId, oCarrierId := 0, oOlCnt := olCnt
    oAllLocal := !isRemote, oEntryD := now }

def createOrderline (wId dId oId olNum : Nat) (item : NewOrderItem) (olAmount : ℚ) : OrderLine :=
  { olWId := wId, olDId := dId, olOId := oId, olNumber := olNum, olIId := item.olIId
    olSupplyWId := item.olSupplyWId, olDeliveryD := 0, olQuantity := item.olQuantity
    olAmount := olAmount }

def modifyStock (s : Stock) (olQuantity : Nat) (isRemote : Bool) : Stock :=
  { s with
    -- an `int16_t`
    sQuantity :=
      (if s.sQuantity > olQuantity + 10 then s.sQuantity - olQuantity
       else s.sQuantity - olQuantity + 91).bmod (2 ^ 16)
    sYtd := (s.sYtd + olQuantity) % 2 ^ 32
    sOrderCnt := (s.sOrderCnt + 1) % 2 ^ 16
    sRemoteCnt := if isRemote then (s.sRemoteCnt + 1) % 2 ^ 16 else s.sRemoteCnt }

/-- One turn of the loop of `NewOrderTx::run`. -/
def newOrderLine (input : NewOrderInput) (oId olNum : Nat) : Tx PUnit := do
  let item := input.items (olNum - 1)
  if item.olIId = unusedItemId then
    throw (.status .userAbort)
  let i ← getRecord .item (ItemKey.createKey item.olIId)
  let sKey := StockKey.createKey item.olSupplyWId item.olIId
  let s ← prepareRecordForUpdate .stock sKey
  orKill .success
  write .stock sKey (modifyStock s item.olQuantity input.isRemote)
  orKill .success
  let olAmount := item.olQuantity * i.iPrice
  let olKey := OrderLineKey.createKey input.wId input.dId oId olNum
  prepareRecordForInsert .orderLine olKey
  orKill .success
  write .orderLine olKey (createOrderline input.wId input.dId oId olNum item olAmount)
  orKill .success

def newOrderTx (input : NewOrderInput) : Tx Unit := do
  let _ ← getRecord .warehouse (WarehouseKey.createKey input.wId)
  let dKey := DistrictKey.createKey input.wId input.dId
  let d ← prepareRecordForUpdate .district dKey
  orKill .success
  let oId := d.dNextOId
  write .district dKey { d with dNextOId := (d.dNextOId + 1) % 2 ^ 32 }
  orKill .success
  let _ ← getRecord .customer (CustomerKey.createKey input.wId input.dId input.cId)
  let noKey := NewOrderKey.createKey input.wId input.dId oId
  prepareRecordForInsert .newOrder noKey
  orKill .success
  write .newOrder noKey (createNeworder input.wId input.dId oId)
  orKill .success
  let oKey := OrderKey.createKey input.wId input.dId oId
  prepareRecordForInsert .order oKey
  orKill .success
  let now ← getTimestamp
  write .order oKey
    (createOrder input.wId input.dId input.cId oId input.olCnt input.isRemote now)
  orKill .success
  (ids input.olCnt).forM (newOrderLine input oId)
  commit

/-- A lookup through the index of last names, which selects the customer `chosen`. -/
def getCustomerByLastName (wId dId : Nat) (cLast : CStr) (chosen : Nat) : Tx Customer := do
  match (← get).db.rows .customer (CustomerKey.createKey wId dId chosen) with
  | some c =>
    if c.secondaryKey = CustomerSecondaryKey.createKey wId dId cLast then pure c
    else throw (.status .bug)
  | none => throw (.status .bug)

structure PaymentInput where
  wId : Nat
  dId : Nat
  cId : Nat
  cWId : Nat
  cDId : Nat
  hAmount : ℚ
  byLastName : Bool
  cLast : CStr
  /-- The customer that the lookup by last name selects. -/
  chosen : Nat

/-- `%4u` and the like: digits with blanks in front. -/
def padLeft (width : Nat) (text : CStr) : CStr :=
  List.replicate (width - text.length) ' ' ++ text

def padRight (width : Nat) (text : CStr) : CStr :=
  text ++ List.replicate (width - text.length) ' '

def digits (width n : Nat) : CStr := padLeft width (Nat.toDigits 10 n)

/-- `%7.2f` of an amount that is not negative. -/
def amountText (amount : ℚ) : CStr :=
  let cents := (amount * 100 + 1 / 2).floor.toNat
  padLeft 7 (Nat.toDigits 10 (cents / 100) ++ '.' :: Nat.toDigits 10 (cents % 100 / 10) ++
    Nat.toDigits 10 (cents % 10))

/-- The sizes of the buffers `c_data` and `h_data`. -/
def customerDataSize : Nat := 501

def historyDataSize : Nat := 25

def modifyCustomerData (c : Customer) (input : PaymentInput) : CStr :=
  copyCstr
    (['|', ' '] ++ digits 4 c.cId ++ [' '] ++ digits 2 input.cDId ++ [' '] ++
      digits 4 input.cWId ++ [' '] ++ digits 2 input.dId ++ [' '] ++ digits 4 input.wId ++
      [' ', '$'] ++ amountText input.hAmount ++ c.cData)
    customerDataSize

def payCustomer (c : Customer) (input : PaymentInput) : Customer :=
  { c with
    cBalance := c.cBalance - input.hAmount
    cYtdPayment := c.cYtdPayment + input.hAmount
    cPaymentCnt := (c.cPaymentCnt + 1) % 2 ^ 16
    cData := if c.cCredit.take 2 = ['B', 'C'] then modifyCustomerData c input else c.cData }

def createHistory (input : PaymentInput) (cId : Nat) (wName dName : CStr) (now : Int) : History :=
  { hCWId := input.cWId, hCDId := input.cDId, hCId := cId, hWId := input.wId, hDId := input.dId
    hDate := now, hAmount := input.hAmount
    hData := copyCstr (padRight 10 (wName.take 10) ++ [' ', ' ', ' ', ' '] ++ dName.take 10)
      historyDataSize }

def paymentCustomerKey (input : PaymentInput) : Tx Nat := do
  if input.byLastName then
    let c ← getCustomerByLastName input.cWId input.cDId input.cLast input.chosen
    pure c.key
  else pure (CustomerKey.createKey input.cWId input.cDId input.cId)

def paymentTx (input : PaymentInput) : Tx Unit := do
  let wKey := WarehouseKey.createKey input.wId
  let w ← prepareRecordForUpdate .warehouse wKey
  orKill .success
  write .warehouse wKey { w with wYtd := w.wYtd + input.hAmount }
  orKill .success
  let dKey := DistrictKey.createKey input.wId input.dId
  let d ← prepareRecordForUpdate .district dKey
  orKill .success
  write .district dKey { d with dYtd := d.dYtd + input.hAmount }
  orKill .success
  let cKey ← paymentCustomerKey input
  let c ← prepareRecordForUpdate .customer cKey
  orKill .success
  write .customer cKey (payCustomer c input)
  orKill .success
  orKill .success
  let now ← getTimestamp
  insertHistory (createHistory input c.cId w.wName d.dName now)
  orKill .success
  commit

structure DeliveryInput where
  wId : Nat
  oCarrierId : Nat

/-- `get_neworder_with_smallest_key_no_less_than`: the lower bound, if it has the warehouse
and district of `low`. -/
def getNeworderWithSmallestKeyNoLessThan (low : Nat) : Tx (Option NewOrder) := do
  match ((← get).db.tables .newOrder).rows.lowerBound low with
  | some (key, no) => pure (if key / 2 ^ 32 = low / 2 ^ 32 then some no else none)
  | none => pure none

/-- `range_query` of the order lines. -/
def rangeQuery (low up : Nat) : Tx (List OrderLine) := do
  pure ((((← get).db.tables .orderLine).rows.range low up).map Prod.snd)

/-- `range_update` of the order lines, which sums up their amounts. -/
def deliverLines (low up : Nat) : Tx ℚ := do
  let lines := ((← get).db.tables .orderLine).rows.range low up
  lines.foldlM (fun total line => do
    let ol ← prepareRecordForUpdate .orderLine line.1
    let now ← getTimestamp
    write .orderLine line.1 { ol with olDeliveryD := now }
    pure (total + ol.olAmount)) 0

def deliverOrder (input : DeliveryInput) (dId : Nat) (no : NewOrder) : Tx PUnit := do
  prepareRecordForDelete .newOrder no.key
  orKill .success
  orKill .success
  let oKey := OrderKey.createKey input.wId dId no.noOId
  let o ← prepareRecordForUpdate .order oKey
  orKill .success
  write .order oKey { o with oCarrierId := input.oCarrierId }
  orKill .success
  let total ← deliverLines (OrderLineKey.createKey o.oWId o.oDId o.oId 1)
    (OrderLineKey.createKey o.oWId o.oDId (o.oId + 1) 1)
  orKill .success
  let cKey := CustomerKey.createKey input.wId dId o.oCId
  let c ← prepareRecordForUpdate .customer cKey
  orKill .success
  write .customer cKey
    { c with cBalance := c.cBalance + total, cDeliveryCnt := (c.cDeliveryCnt + 1) % 2 ^ 16 }
  orKill .success

/-- One turn of the loop of `DeliveryTx::run`. -/
def deliverDistrict (input : DeliveryInput) (dId : Nat) : Tx PUnit := do
  match ← getNeworderWithSmallestKeyNoLessThan (NewOrderKey.createKey input.wId dId 1) with
  | none => pure ()
  | some no =>
    orKill .success
    deliverOrder input dId no

def deliveryTx (input : DeliveryInput) : Tx Unit := do
  (ids distsPerWare).forM (deliverDistrict input)
  commit

structure OrderStatusInput where
  wId : Nat
  dId : Nat
  cId : Nat
  byLastName : Bool
  cLast : CStr
  chosen : Nat
  /-- What the index of orders yields for the customer. -/
  order : Order

def orderStatusTx (input : OrderStatusInput) : Tx Unit := do
  if input.byLastName then
    let _ ← getCustomerByLastName input.wId input.dId input.cLast input.chosen
    orKill .success
  else
    let _ ← getRecord .customer (CustomerKey.createKey input.wId input.dId input.cId)
  orKill .success
  let o := input.order
  -- the lines only go to the output
  let _ ← rangeQuery (OrderLineKey.createKey o.oWId o.oDId o.oId 1)
    (OrderLineKey.createKey o.oWId o.oDId (o.oId + 1) 1)
  orKill .success
  commit

structure StockLevelInput where
  wId : Nat
  dId : Nat

def stockLevelTx (input : StockLevelInput) : Tx Unit := do
  let d ← getRecord .district (DistrictKey.createKey input.wId input.dId)
  let low := OrderLineKey.createKey input.wId input.dId ((d.dNextOId + (2 ^ 32 - 20)) % 2 ^ 32) 1
  let up := OrderLineKey.createKey input.wId input.dId d.dNextOId 1
  let lines ← rangeQuery low up
  orKill .success
  let sIIds := ((lines.map OrderLine.olIId).filter (· ≠ unusedItemId)).dedup
  (sIIds.insertionSort (· ≤ ·)).forM fun iId => do
    let _ ← getRecord .stock (StockKey.createKey input.wId iId)
  commit

/-! ## The runner -/

inductive TxInput where
  | newOrder (input : NewOrderInput)
  | payment (input : PaymentInput)
  | orderStatus (input : OrderStatusInput)
  | delivery (input : DeliveryInput)
  | stockLevel (input : StockLevelInput)

def TxInput.run : TxInput → Tx Unit
  | .newOrder input => newOrderTx input
  | .payment input => paymentTx input
  | .orderStatus input => orderStatusTx input
  | .delivery input => deliveryTx input
  | .stockLevel input => stockLevelTx input

/-- One turn of the loop of `run_with_retry`, with everything it draws. -/
structure Attempt where
  input : TxInput
  aborts : List Bool
  clock : Int

def Attempt.start (attempt : Attempt) (db : Database) : World :=
  { db := db, aborts := attempt.aborts, clock := attempt.clock }

/-- `run_with_retry`, which needs as many attempts as it takes; `none` when they do not end
it, or when one ends with a bug or an exception. -/
def runWithRetry : List Attempt → Database → Option Database
  | [], _ => none
  | attempt :: rest, db =>
    match attempt.input.run.result (attempt.start db) with
    | (.ok (), w) => if rest.isEmpty then some w.db else none
    | (.error (.status .userAbort), w) => if rest.isEmpty then some w.db.clearAll else none
    | (.error (.status .systemAbort), w) => runWithRetry rest w.db
    | _ => none

def step (db : Database) (attempts : List Attempt) : Option Database := runWithRetry attempts db

end TpccRunner.Tpcc
